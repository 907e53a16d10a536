import Macro10.Proofs.Row.Dangling
import Macro10.Proofs.TargetRows

/-!
# Commas at the end of a line, in documents

At the top level of a target and in the body of a directive, a comma at the end of a line was
followed by another comma in the source, which has been dropped (`comma_ends_line`). Such a comma
does survive (`comma_survives`): only the last of several is dropped.
-/

namespace Macro10

open List

variable {d normal : Document} {cs : List Cell} {us : List Item} {parent : Option Id}

open Cell (ids ids_append ids_cons labelled piece_labelled value_item)

variable {before after : Option Piece} {p : Piece}

namespace Document

/-- None of the tokens is on the line before it ends or has a comment. -/
def endsLine (d : Document) : List Id → Bool
  | [] => true
  | i :: rest =>
    if d.tests Token.isBlank i then d.endsLine rest
    else d.tests (fun t => t.isNewline || t.kind = .comment) i

/-- The token at `i` is a comma. -/
def isCommaAt (d : Document) (i : Id) : Bool := d.tests (·.isOperator ",") i

/-- The comma at `j` follows the one at `i`, with nothing but blanks between them. -/
def DoubledAt (d : Document) (i j : Id) : Prop :=
  ∃ parent before between after, d.Scope parent (before ++ i :: (between ++ j :: after)) ∧
    d.isCommaAt i = true ∧ d.isCommaAt j = true ∧ ∀ b ∈ between, d.tests Token.isBlank b = true

theorem endsLine_ids
    (h : ∀ c ∈ cs, d.Looks c) :
    d.endsLine (ids cs) = Row.endsLine [] (Cell.items cs) := by
  induction cs with
  | nil => rfl
  | cons c cs ih =>
    obtain ⟨⟨t, ht, hshows⟩, hrest⟩ := forall_mem_cons.mp h
    rw [ids_cons, endsLine, tests_eq ht, tests_eq ht, hshows.isBlank, hshows.isNewline,
      hshows.kind, ih hrest, Cell.items_cons, Row.endsLine_cons, value_item]

end Document

/-! ## Rows that are written -/

namespace Row

variable {newline : Text} {row xs ys : List Item} {z : Item}

theorem exists_doubled_retarget (hrow : retarget newline [] us = xs ++ z :: ys)
    (hz : isComma z = true) (hends : endsLine [] ys = true) :
    ∃ y, Doubled z y us ∧ Item.blanked y ∈ ys := by
  rw [retarget_eq] at hrow
  obtain ⟨xs', zs', hsplit, rfl, hzs⟩ := map_eq_append_iff.mp hrow
  obtain ⟨z', ys', rfl, rfl, rfl⟩ := map_eq_cons_iff.mp hzs
  rw [isComma, value_descend] at hz
  rw [descend_of_kind_ne (by simp [Piece.kind_of_isOperator hz])]
  rw [endsLine, afterBlanks, map_value_descend] at hends
  obtain ⟨y, hdoubled, hy⟩ := (sweep_retargetRow [] us).exists_doubled hsplit hz hends
  exact ⟨y, hdoubled, mem_map.mpr ⟨_, hy, descend_blanked newline y⟩⟩

/-- **A comma at the end of a line of a row that is written was followed by another comma.** -/
theorem Written.exists_doubled (h : Written newline [] us row) (hrow : row = xs ++ z :: ys)
    (hz : isComma z = true) (hends : endsLine [] ys = true) :
    ∃ y, Doubled z y us ∧ Item.blanked y ∈ ys := by
  cases h with
  | inline heq => exact exists_doubled_retarget (heq.symm.trans hrow) hz hends
  | @body closing _ _ heq =>
    -- The comma stands between the line breaks around the body.
    have hback : ∀ y ∈ Item.made .whitespace newline ::
        (closing.map (Item.made .identifier)).toList,
        isComma y = false := by
      refine forall_mem_cons.mpr ⟨isComma_of_whitespace rfl, fun y hy => ?_⟩
      obtain ⟨word, -, rfl⟩ := Option.map_eq_some_iff.mp (Option.mem_toList.mp hy)
      exact isComma_of_kind_ne (by simp)
    obtain ⟨ys', hxs, rfl⟩ := exists_of_back hback (heq.symm.trans hrow) hz
    have hfront : ∀ y ∈ [Item.made .whitespace newline], isComma y = false :=
      forall_mem_singleton.mpr (isComma_of_whitespace rfl)
    obtain ⟨xs', hretarget⟩ := exists_of_front hfront hxs hz
    obtain ⟨y, hdoubled, hy⟩ := exists_doubled_retarget hretarget hz (endsLine_of_append hends)
    exact ⟨y, hdoubled, mem_append_left _ hy⟩

end Row

/-! ## Commas of the normal form -/

theorem Row.isOperator_settledBetween (h : (settledBetween before after p).isOperator "," = true) :
    p.isOperator "," = true := by
  unfold settledBetween at h
  split at h
  · next hmark =>
    -- An exclamation mark stays an operator, but it becomes no comma.
    have hkind := Piece.kind_of_isOperator hmark
    split at h
    all_goals
      simp [Piece.isOperator, Token.isOperator, Piece.token, hkind, Text.ofString] at h
  · split at h
    · rw [isOperator_blanked] at h
      cases h
    · have hkind : p.kind ≠ .container := by
        have hsame : (parenthesized p).kind = p.kind := by
          unfold parenthesized
          split <;> rfl
        rw [← hsame, Piece.kind_of_isOperator h]
        decide
      rwa [parenthesized_of_kind_ne hkind] at h

theorem Row.isBlank_settledBetween (hbefore : before.any (·.isOperator "!") = false)
    (h : (settledBetween before after p).isBlank = true) : p.isBlank = true := by
  have hkind : (settledBetween before after p).kind = .whitespace := Piece.kind_of_isBlank h
  unfold settledBetween at h hkind
  split at h
  · next hmark =>
    rw [if_pos hmark, Piece.kind_setText, Piece.kind_of_isOperator hmark] at hkind
    cases hkind
  · next hmark =>
    rw [hbefore, Bool.and_false, if_neg (by decide)] at h
    rw [if_neg hmark, hbefore, Bool.and_false, if_neg (by decide)] at hkind
    unfold parenthesized at h hkind
    split at h
    · next hcontainer =>
      rw [if_pos hcontainer] at hkind
      rw [hcontainer] at hkind
      cases hkind
    · exact h

namespace NormalRow

variable {xs ys bs xs' ys' bs' : List Cell} {c c' z y : Cell}

theorem isBlank_of_normal (h : NormalRow d normal parent (xs ++ (bs ++ ys)) (xs' ++ (bs' ++ ys')))
    (hxs : ids xs' = ids xs) (hbs : ids bs' = ids bs)
    (hbefore : (Cell.pieces xs).getLast?.any (·.isOperator "!") = false)
    (hblank : ∀ b ∈ bs', b.piece.isBlank = true) : ∀ b ∈ bs, b.piece.isBlank = true := by
  induction bs generalizing xs xs' bs' with
  | nil => exact forall_mem_nil _
  | cons b bs ih =>
    obtain ⟨b', bs', rfl, hb, hrest⟩ := map_eq_cons_iff.mp hbs
    obtain ⟨hb', hblanks⟩ := forall_mem_cons.mp hblank
    have hfirst : b.piece.isBlank = true := by
      obtain ⟨halike, -⟩ := h.alike_piece hxs
      rw [Piece.isBlank, halike.token_eq] at hb'
      exact Row.isBlank_settledBetween hbefore hb'
    refine forall_mem_cons.mpr ⟨hfirst, ?_⟩
    have hnext : NormalRow d normal parent ((xs ++ [b]) ++ (bs ++ ys))
        ((xs' ++ [b']) ++ (bs' ++ ys')) := by simpa using h
    refine ih hnext ?_ hrest ?_ hblanks
    · rw [ids_append, ids_append, hxs]
      simpa [ids] using hb
    · have hkind : b.piece.kind = .whitespace := Piece.kind_of_isBlank hfirst
      rw [Cell.pieces_append]
      simpa [Cell.pieces] using Piece.isOperator_of_kind_ne (by simp [hkind]) _

theorem isOperator_of_normal (h : NormalRow d normal parent (xs ++ c :: ys) (xs' ++ c' :: ys'))
    (hxs : ids xs' = ids xs) (hc : c'.piece.isOperator "," = true) :
    c.piece.isOperator "," = true := by
  obtain ⟨halike, -⟩ := h.alike_piece hxs
  rw [halike.isOperator_eq] at hc
  exact Row.isOperator_settledBetween hc

/-- **Commas that follow one another in the normal form did so before.** -/
theorem doubledAt {vs : List Cell}
    (h : NormalRow d normal parent vs (xs' ++ z :: (bs' ++ y :: ys')))
    (hscope : d.Scope parent (ids vs))
    (hz : z.piece.isOperator "," = true)
    (hy : y.piece.isOperator "," = true)
    (hbs : ∀ b ∈ bs', b.piece.isBlank = true) : d.DoubledAt z.id y.id := by
  have hids := h.ids_eq
  rw [ids_append, ids_cons] at hids
  obtain ⟨xs, c, zs, rfl, hxs, hc, hzs⟩ := Cell.exists_of_ids_eq hids
  rw [ids_append, ids_cons] at hzs
  obtain ⟨bs, e, ys, rfl, hbs', he, hys⟩ := Cell.exists_of_ids_eq hzs.symm
  have hcomma := h.isOperator_of_normal hxs.symm hz
  have hprev : (Cell.pieces (xs ++ [c])).getLast?.any (·.isOperator "!") = false := by
    rw [Cell.pieces_append]
    simpa [Cell.pieces] using Piece.isOperator_of_ne hcomma (by decide)
  -- The row is cut once after the first comma, and once before the second.
  have hfirst : NormalRow d normal parent ((xs ++ [c]) ++ (bs ++ e :: ys))
      ((xs' ++ [z]) ++ (bs' ++ y :: ys')) := by simpa using h
  have hblanks := hfirst.isBlank_of_normal (by simp [hxs, hc]) hbs'.symm hprev hbs
  have hsecond : NormalRow d normal parent ((xs ++ c :: bs) ++ e :: ys)
      ((xs' ++ z :: bs') ++ y :: ys') := by simpa using h
  have hcomma' := hsecond.isOperator_of_normal (by simp [hxs, hc, hbs']) hy
  have hlooks := h.read.row.looks
  rw [← hc, ← he]
  refine ⟨parent, ids xs, ids bs, ids ys, by simpa using hscope, ?_, ?_, ?_⟩
  · obtain ⟨t, ht, hshows⟩ := hlooks c (by simp)
    rw [Document.isCommaAt, Document.tests_eq ht, hshows.isOperator, hcomma]
  · obtain ⟨t, ht, hshows⟩ := hlooks e (by simp)
    rw [Document.isCommaAt, Document.tests_eq ht, hshows.isOperator, hcomma']
  · intro i hi
    obtain ⟨b, hb, rfl⟩ := mem_map.mp hi
    obtain ⟨t, ht, hshows⟩ := hlooks b (by simp [hb])
    rw [Document.tests_eq ht, hshows.isBlank, hblanks b hb]

end NormalRow

theorem Cell.exists_within_labelled (h : Nest.Within us (Cell.items (cs.map labelled))) :
    ∃ vs : List Cell, us = vs.map (fun c => c.labelled.item) ∧ Nest.Within vs cs := by
  obtain ⟨ws, rfl, hws⟩ := Nest.Within.of_map h
  obtain ⟨vs, rfl, hvs⟩ := Nest.Within.of_map hws
  exact ⟨vs, List.map_map, hvs⟩

namespace Retargeted

variable {target : Document} {out : List Cell} (h : Retargeted normal cs target out)
include h

/-- A comma at the end of a line was followed by another comma in the normal form. -/
theorem exists_row_of_comma
    (hroles : ∀ p ∈ Nest.listing (Cell.items (cs.map labelled)), p.role = .inline)
    {before after : List Id} {i : Id}
    (hscope : target.Scope parent (before ++ i :: after)) (hopening : target.openingOf parent = [])
    (hi : target.isCommaAt i = true) (hends : target.endsLine after = true) :
    ∃ xs bs ys : List Cell, ∃ z y : Cell, Nest.Within (xs ++ z :: (bs ++ y :: ys)) cs ∧ z.id = i ∧
      y.id ∈ after ∧ z.piece.isOperator "," = true ∧
      y.piece.isOperator "," = true ∧ (∀ b ∈ bs, b.piece.isBlank = true) ∧
      target.tests (fun t => t.kind = .whitespace && t.text = some []) y.id = true := by
  obtain ⟨ws, us, hids, hws, hstanding, hus, hwritten⟩ := h.exists_row hroles hscope
  obtain ⟨xs, c, ys, rfl, rfl, rfl, rfl⟩ := Cell.exists_of_ids_eq hids
  have hlooks := hstanding.row.looks
  obtain ⟨t, ht, hshows⟩ := hlooks c (by simp)
  rw [Document.isCommaAt, Document.tests_eq ht, hshows.isOperator] at hi
  rw [Document.endsLine_ids fun e he => hlooks e (by simp [he])] at hends
  rw [hopening] at hwritten
  rw [Cell.items_append, Cell.items_cons] at hwritten
  obtain ⟨y, hdoubled, hy⟩ := hwritten.exists_doubled rfl (by rwa [Row.isComma, value_item]) hends
  obtain ⟨e, he, hblanked⟩ := mem_map.mp hy
  rcases hus with rfl | hus
  · cases hdoubled
  obtain ⟨vs, rfl, hvs⟩ := Cell.exists_within_labelled hus
  obtain ⟨us, bs, rest, hrow, -, hcomma, hbs⟩ := hdoubled.exists_eq
  obtain ⟨us, zs, rfl, rfl, hzs⟩ := map_eq_append_iff.mp hrow
  obtain ⟨z, zs, rfl, hz, hzs⟩ := map_eq_cons_iff.mp hzs
  obtain ⟨bs, ws, rfl, rfl, hlast⟩ := map_eq_append_iff.mp hzs
  obtain ⟨w, zs, rfl, rfl, -⟩ := map_eq_cons_iff.mp hlast
  -- Labels tell where the two commas have been.
  have hpiece : c.piece = { z.piece with label := some z.id } := by
    rw [← value_item, ← hz, value_item, piece_labelled]
  have hpiece' : e.piece = { w.piece with label := some w.id }.blanked := by
    rw [← value_item, hblanked, Item.value_blanked, value_item, piece_labelled]
  have hid : c.id = z.id := h.id_eq_of_label hws (c := c) (by simp) (by rw [hpiece])
  have hid' : e.id = w.id := h.id_eq_of_label hws (c := e) (by simp [he]) (by rw [hpiece']; rfl)
  refine ⟨us, bs, zs, z, w, hvs, hid.symm, hid' ▸ mem_map_of_mem he, ?_, ?_, ?_, ?_⟩
  · rw [hpiece] at hi
    exact hi
  · rw [Row.isComma, value_item, piece_labelled] at hcomma
    exact hcomma
  · intro b hb
    have hblank := hbs _ (mem_map_of_mem hb)
    rw [value_item, piece_labelled] at hblank
    exact hblank
  · obtain ⟨u, hu, hshowsu⟩ := hlooks e (by simp [he])
    rw [hpiece'] at hshowsu
    rw [← hid', Document.tests_eq hu, hshowsu.kind, hshowsu.text_eq (by simp)]
    rfl

end Retargeted

/-- **Only a comma that another one followed ends a line.** In the target, a comma of the top level
or of a body has something after it on its line, or in the source it was followed by another comma,
which has been dropped. -/
theorem comma_ends_line {source : Text} {radix : Int} {d : Document}
    (h : read source radix = .ok d) :
    ∃ target, d.converted = .ok target ∧
      ∀ {parent : Option Id} {before after : List Id} {i : Id},
        target.Scope parent (before ++ i :: after) → target.openingOf parent = [] →
        target.isCommaAt i = true → target.endsLine after = true →
        ∃ j ∈ after, d.DoubledAt i j ∧
          target.tests (fun t => t.kind = .whitespace && t.text = some []) j = true := by
  obtain ⟨f, normal, cs, hnormal⟩ := exists_normalized h
  obtain ⟨target, out, htarget, hout⟩ := hnormal.exists_retargeted
  refine ⟨target, hnormal.converted_eq.trans htarget, fun hscope hopening hi hends => ?_⟩
  obtain ⟨xs, bs, ys, z, y, hrow, rfl, hy, hz, hcomma, hbs, hdropped⟩ :=
    hout.exists_row_of_comma hnormal.role_eq hscope hopening hi hends
  obtain ⟨parent', vs, hnormalRow, hscope'⟩ :=
    hnormal.normalRow.within (hnormal.readRoot ▸ .root) hrow (by simp)
  exact ⟨y.id, hy, hnormalRow.doubledAt hscope' hz hcomma hbs, hdropped⟩

/-- Commas at the end of a line, before a comment, at the end of a body and in an operand. -/
theorem comma_ends_line_body :
    ∃ d, read "A, ,\nB,;C\nIFN D,<E,>\nLDAI F,,\n" 8 = .ok d ∧
      ∃ target, d.converted = .ok target ∧
        ∀ {parent : Option Id} {before after : List Id} {i : Id},
          target.Scope parent (before ++ i :: after) → target.openingOf parent = [] →
          target.isCommaAt i = true → target.endsLine after = true →
          ∃ j ∈ after, d.DoubledAt i j ∧
            target.tests (fun t => t.kind = .whitespace && t.text = some []) j = true :=
  exists_eq_ok_and (by decide +kernel) comma_ends_line

/-- The first of two commas at the end of a line is left there. -/
theorem comma_survives :
    ∃ d target before i after, read "A,,\n" 8 = .ok d ∧
      d.converted = .ok target ∧ target.Scope none (before ++ i :: after) ∧
      target.openingOf none = [] ∧ target.isCommaAt i = true ∧ target.endsLine after = true := by
  obtain ⟨d, hd, hconverted⟩ := exists_eq_ok_of_any (x := read "A,,\n" 8)
    (p := fun d => d.converted.toOption.any fun target => target.root = [0] ++ 1 :: [2, 3] &&
      target.isCommaAt 1 && target.endsLine [2, 3]) (by decide +kernel)
  obtain ⟨target, htarget, hall⟩ := exists_eq_ok_of_any hconverted
  rw [Bool.and_eq_true, Bool.and_eq_true, decide_eq_true_eq] at hall
  obtain ⟨⟨hroot, hcomma⟩, hends⟩ := hall
  exact ⟨d, target, [0], 1, [2, 3], hd, htarget, hroot ▸ .root, rfl, hcomma, hends⟩

end Macro10
