import Macro10.Proofs.Row.LineCount

/-!
# Rows with one line terminator

In a row whose line terminators all read `e`, no other symbol ends a line. The rules keep this, as
they cut up only texts within a line and the quotes of strings (`Neat`). So the new row has line
breaks by `e` only, unless there is a body and its line breaks read otherwise (`lined_retarget`).
-/

namespace Macro10

open List
open Item (made textOf text_eq)

variable {e : Text} {xs : List Item}

namespace Text

/-- Every symbol of the text that ends a line is in a copy of `e`. -/
inductive Rules (e : Text) : Text → Prop
  | nil : Rules e []
  | symbol {s : Symbol} {t : Text} (hs : s.endsLine = false) (h : Rules e t) : Rules e (s :: t)
  | line {t : Text} (h : Rules e t) : Rules e (e ++ t)

namespace Rules

variable {t u : Text}

theorem of_breaks (h : t.Breaks 0) : Rules e t := by
  have hends := h.not_endsLine
  clear h
  induction t with
  | nil => exact .nil
  | cons s t ih =>
    obtain ⟨hs, ht⟩ := forall_mem_cons.mp hends
    exact .symbol hs (ih ht)

theorem self : Rules e e := by
  have hline : Rules e (e ++ []) := .line .nil
  rwa [append_nil] at hline

theorem append (h : Rules e t) (hu : Rules e u) : Rules e (t ++ u) := by
  induction h with
  | nil => exact hu
  | symbol hs _ ih => exact .symbol hs ih
  | line _ ih =>
    rw [append_assoc]
    exact .line ih

theorem flatMap {α : Type} {f : α → Text} {xs : List α} (h : ∀ x ∈ xs, Rules e (f x)) :
    Rules e (xs.flatMap f) := by
  induction xs with
  | nil => exact .nil
  | cons x xs ih =>
    obtain ⟨hx, hxs⟩ := forall_mem_cons.mp h
    rw [flatMap_cons]
    exact hx.append (ih hxs)

theorem reverse (h : Rules e t) : Rules e.reverse t.reverse := by
  induction h with
  | nil => exact .nil
  | symbol hs _ ih =>
    rw [reverse_cons]
    exact ih.append (.symbol hs .nil)
  | line _ ih =>
    rw [reverse_append]
    exact ih.append .self

theorem dropWhile (h : Rules e t) (he : ∀ s ∈ e, s.isSpace = true) :
    Rules e (t.dropWhile Symbol.isSpace) := by
  induction h with
  | nil => exact .nil
  | symbol hs h ih =>
    rw [dropWhile_cons]
    split
    · exact ih
    · exact .symbol hs h
  | line _ ih =>
    rw [dropWhile_append_of_pos he]
    exact ih

/-- No terminator is cut in two by trimming. -/
theorem trim (h : Rules e t) (he : ∀ s ∈ e, s.isSpace = true) : Rules e t.trim := by
  have hback := (h.dropWhile he).reverse.dropWhile fun s hs => he s (mem_reverse.mp hs)
  have hall := hback.reverse
  rwa [reverse_reverse] at hall

theorem replaceSymbol (h : Rules e t) {old new : Symbol} (hold : old ∉ e)
    (hnew : new.endsLine = false) : Rules e (Text.replaceSymbol old new t) := by
  induction h with
  | nil => exact .nil
  | @symbol s t hs _ ih =>
    refine .symbol ?_ ih
    dsimp only
    split
    · exact hnew
    · exact hs
  | line _ ih =>
    have hsame : e.map (fun s => if s = old then new else s) = e.map id :=
      map_congr_left fun s hs => if_neg (ne_of_mem_of_not_mem hs hold)
    rw [Text.replaceSymbol, map_append, hsame, map_id]
    exact .line ih

theorem mem_of_endsLine (h : Rules e t) {s : Symbol} (hs : s ∈ t) (hends : s.endsLine = true) :
    s ∈ e := by
  induction h with
  | nil => cases hs
  | symbol hwithin _ ih =>
    rcases mem_cons.mp hs with rfl | hs
    · rw [hwithin] at hends
      cases hends
    · exact ih hs
  | line _ ih => exact (mem_append.mp hs).elim id ih

end Rules

end Text

theorem Terminator.isSpace_of_mem (e : Terminator) : ∀ s ∈ e.text, s.isSpace = true := by
  cases e <;> decide

namespace Row

open Retarget (quoteSingle requote characterLiteral)

variable {t : Text} {p : Piece} {x y : Item}

/-! ## Single pieces -/

/-- A text with line breaks by `e` only, also without the symbols at its ends. -/
structure Peeled (e t : Text) : Prop where
  rules : e.Rules t
  tail : e.Rules t.tail
  inner : e.Rules t.tail.dropLast

theorem peeled_enclosed (h : e.Rules t) {a b : Symbol} (ha : a.endsLine = false)
    (hb : b.endsLine = false) : Peeled e (a :: t ++ [b]) := by
  have htail : e.Rules (t ++ [b]) := h.append (.symbol hb .nil)
  refine ⟨.symbol ha htail, htail, ?_⟩
  rw [cons_append, tail_cons, dropLast_concat]
  exact h

theorem Peeled.respell (h : Peeled e t) {respell : Text → Text}
    (hrespell : respell ∈ respellings) : Peeled e (respell t) := by
  rcases mem_cons.mp hrespell with rfl | hrespell
  · unfold quoteSingle
    split
    · exact peeled_enclosed h.inner (by decide) (by decide)
    · exact h
  · obtain rfl := mem_singleton.mp hrespell
    unfold requote
    split
    · exact peeled_enclosed h.inner (by decide) (by decide)
    · exact peeled_enclosed h.tail (by decide) (by decide)

/-- The piece is within a line, or it is a terminator that reads `e`, or a string with such
terminators in it. -/
structure Neat (e : Text) (p : Piece) : Prop extends Bounded p where
  text : p.text.Breaks 0 ∨ p.kind = .whitespace ∧ p.text = e ∨ p.kind = .string ∧ Peeled e p.text

theorem Neat.rules (h : Neat e p) : e.Rules p.text := by
  rcases h.text with htext | ⟨-, htext⟩ | ⟨-, htext⟩
  · exact .of_breaks htext
  · rw [htext]
    exact .self
  · exact htext.rules

theorem Neat.turned (h : Neat e x.value) (hy : Turns x y) : Neat e y.value := by
  refine ⟨h.toBounded.turned hy, ?_⟩
  cases hy.retexts with
  | fixed htext => exact .inl htext
  | same hkind htext =>
    rw [hkind, htext]
    exact h.text
  | string hp hq hrespell htext =>
    rw [htext]
    rcases h.text with hflat | ⟨hspace, -⟩ | ⟨-, hpeeled⟩
    · exact .inl (breaks_respell hrespell hflat)
    · cases hspace.symm.trans hp
    · exact .inr (.inr ⟨hq, hpeeled.respell hrespell⟩)
  | word hkind htext =>
    rw [htext]
    rcases h.text with hflat | ⟨hspace, -⟩ | ⟨hstring, -⟩
    · refine .inl (.of_not_endsLine fun s hs => ?_)
      exact hflat.not_endsLine s (dropLast_subset _ hs)
    · cases hspace.symm.trans hkind
    · cases hstring.symm.trans hkind

/-! ## Items -/

/-- What is known of an item of a row, before and after the walk along it. -/
structure Fit (e : Text) (x : Item) : Prop where
  neat : Neat e x.value
  leaf : x.value.kind ≠ .container → x.inside = []
  inside : e.Rules (textOf x.inside)

theorem Fit.rules (h : Fit e x) : e.Rules (Item.text x) := by
  rw [text_eq]
  split
  · exact ((Text.Rules.of_breaks h.neat.opening).append h.inside).append (.of_breaks h.neat.closing)
  · exact h.neat.rules

theorem Fit.turned (h : Fit e x) (hy : Turns x y) : Fit e y := by
  have hneat := h.neat.turned hy
  rcases hy.inside with hnil | ⟨heq, hkind⟩
  · refine ⟨hneat, fun _ => hnil, ?_⟩
    rw [hnil]
    exact .nil
  · exact ⟨hneat, fun hne => heq.trans (h.leaf (hkind ▸ hne)), heq ▸ h.inside⟩

/-- The string that a message prints has the line breaks of its words. -/
theorem fit_printed {e : Terminator} {words : Text} (h : e.text.Rules words) :
    Fit e.text (made .string (printed words)) := by
  have hquote : Symbol.char '"' ∉ e.text := by cases e <;> decide
  have hwords := (h.trim e.isSpace_of_mem).replaceSymbol hquote
    (show (Symbol.char '\'').endsLine = false by decide)
  refine ⟨⟨bounded_made _ _, .inr (.inr ⟨rfl, ?_⟩)⟩, fun _ => rfl, .nil⟩
  exact peeled_enclosed hwords (by decide) (by decide)

/-- **What the rules make of fit items is fit.** -/
theorem Arises.fit {e : Terminator} (hxs : ∀ x ∈ xs, Fit e.text x)
    (hy : Arises xs y) : Fit e.text y := by
  induction hy with
  | item h => exact hxs _ h
  | turned _ hy ih => exact ih.turned hy
  | @made kind text h =>
    have hall : ∀ m ∈ madePieces, ∀ s ∈ m.2, s.endsLine = false := by decide
    exact ⟨⟨bounded_made _ _, .inl (.of_not_endsLine (hall _ h))⟩, fun _ => rfl, .nil⟩
  | message _ ih => exact fit_printed (.flatMap fun y hy => (ih y hy).rules)

/-! ## Rows -/

/-- The row has line breaks by `e` only, unless it has bodies, whose lines end with `newline`. -/
structure Lined (e newline : Text) (heads : Nat → Option Nat) (ys : List Item) : Prop where
  rules : bodyCount heads ys = 0 ∨ e.Rules newline → e.Rules (textOf ys)
  broken : 0 < bodyCount heads ys → newline ⊆ textOf ys

variable {newline : Text} {heads : Nat → Option Nat} {ys : List Item}

theorem Lined.nil : Lined e newline heads [] :=
  ⟨fun _ => .nil, fun h => absurd h (Nat.lt_irrefl 0)⟩

theorem Lined.append (h : Lined e newline heads xs) (h' : Lined e newline heads ys) :
    Lined e newline heads (xs ++ ys) := by
  refine ⟨fun hnone => ?_, fun hsome => ?_⟩
  · rw [bodyCount_append, Nat.add_eq_zero_iff] at hnone
    rw [Item.textOf_append]
    exact (h.rules (hnone.imp_left And.left)).append (h'.rules (hnone.imp_left And.right))
  · rw [bodyCount_append] at hsome
    rw [Item.textOf_append]
    rcases Nat.add_pos_iff_pos_or_pos.mp hsome with hsome | hsome
    · exact subset_append_of_subset_left _ (h.broken hsome)
    · exact subset_append_of_subset_right _ (h'.broken hsome)

theorem Lined.map {f : Item → Item} (h : ∀ x ∈ xs, Lined e newline heads [f x]) :
    Lined e newline heads (xs.map f) := by
  induction xs with
  | nil => exact .nil
  | cons x xs ih =>
    obtain ⟨hx, hxs⟩ := forall_mem_cons.mp h
    exact hx.append (ih hxs)

theorem lined_refill (hkind : p.kind = .container) (hp : Bounded p)
    (hbody : p.role = .inline ↔ (p.label.bind heads).isSome = false)
    (h : Lined e newline heads xs) :
    Lined e newline heads [refill newline p xs] := by
  have htext (ys : List Item) : textOf [.node p ys] = p.opening ++ textOf ys ++ p.closing := by
    simp [text_eq, hkind, textOf]
  have hgroup {ys : List Item} (hys : e.Rules (textOf ys)) : e.Rules (textOf [.node p ys]) := by
    rw [htext]
    exact ((Text.Rules.of_breaks hp.opening).append hys).append (.of_breaks hp.closing)
  unfold refill
  cases hrole : p.role with
  | inline =>
    have hcount : bodyCount heads [.node p xs] = bodyCount heads xs := by
      rw [bodyCount_group hkind, hbody.mp hrole]
      simp
    refine ⟨fun hnone => hgroup (h.rules (hcount ▸ hnone)), fun hsome => ?_⟩
    have hsub := h.broken (hcount ▸ hsome)
    rw [htext]
    exact subset_append_of_subset_left _ (subset_append_of_subset_right _ hsub)
  | body closing =>
    have hlabel : (p.label.bind heads).isSome = true := by
      rw [← Bool.not_eq_false, ← hbody, hrole]
      simp
    refine ⟨fun hnone => ?_, fun _ => ?_⟩
    · have hnewline : e.Rules newline := by
        refine hnone.resolve_left ?_
        rw [bodyCount_group hkind, hlabel]
        simp
      refine hgroup ?_
      have hword : e.Rules (textOf (closing.map (made .identifier)).toList) := by
        cases closing with
        | none => exact .nil
        | some word => simpa [text_eq] using .of_breaks (hp.word word hrole)
      have hall := (hnewline.append (h.rules (.inr hnewline))).append (hnewline.append hword)
      simpa [text_eq] using hall
    · rw [htext]
      intro s hs
      simp [text_eq, hs]

theorem lined_descend {seen : List Piece} (hfit : Fit e y) (hbodied : Bodied heads seen y)
    (hinner : ∀ opening, Lined e newline heads (retarget newline opening y.inside)) :
    Lined e newline heads [descend newline y] := by
  by_cases hkind : y.value.kind = .container
  · rw [descend, if_pos hkind]
    exact lined_refill hkind hfit.neat.toBounded (hbodied.role_eq_inline_iff hkind) (hinner _)
  · have hcount : bodyCount heads [y] = 0 := by
      rw [bodyCount_cons, hfit.leaf hkind]
      simp [hkind]
    rw [descend_of_kind_ne hkind]
    refine ⟨fun _ => ?_, fun hsome => absurd hcount hsome.ne'⟩
    simpa using hfit.rules

/-- **Retargeting keeps the line terminator of a row** and of all rows inside it, unless a body is
put on lines that end otherwise. -/
theorem lined_retarget {e : Terminator} (htame : Nest.Throughout Tame xs)
    (hforetold : Nest.Throughout (Foretold heads []) xs)
    (hneat : ∀ p ∈ Nest.listing xs, Neat e.text p) :
    e.text.Rules (textOf xs) ∧
      ∀ opening, Lined e.text newline heads (retarget newline opening xs) := by
  have hrows := htame.and hforetold
  clear htame hforetold
  induction hrows with
  | @intro xs row _ ih =>
    have hfit : ∀ x ∈ xs, Fit e.text x ∧
        ∀ opening, Lined e.text newline heads (retarget newline opening x.inside) := by
      intro x hx
      have hvalues : x.values ⊆ Nest.listing xs := fun p hp => mem_flatMap.mpr ⟨x, hx, hp⟩
      rw [Nest.values_eq] at hvalues
      obtain ⟨hvalue, hinside⟩ := forall_mem_cons.mp fun p hp => hneat p (hvalues hp)
      obtain ⟨hrules, hlined⟩ := ih x hx hinside
      exact ⟨⟨hvalue, row.1.leafy x hx, hrules⟩, hlined⟩
    refine ⟨.flatMap fun x hx => (hfit x hx).1.rules, fun opening => ?_⟩
    rw [retarget_eq]
    refine .map fun y hy => ?_
    have harises := stems_retargetRow opening [] xs y hy
    refine lined_descend (harises.fit fun x hx => (hfit x hx).1)
      (bodied_retargetRow row.1 row.2 opening y hy) fun opening => ?_
    rcases harises.inside with hnil | ⟨x, hx, heq⟩
    · rw [hnil, retarget_eq, retargetRow]
      exact .nil
    · rw [heq]
      exact (hfit x hx).2 opening

end Row

end Macro10
