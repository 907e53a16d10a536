import Macro10.Proofs.Row.Foretold
import Macro10.Proofs.Row.Level

/-!
# Lines of a row that has been retargeted

Retargeting a row keeps its line breaks and adds two for each body that is left (`kept_retarget`).
The bodies can be counted by their labels, since it is known before the walk starts which groups are
bodies (`Proofs/Row/Foretold`).
-/

namespace Macro10.Row

open List

variable {heads : Nat → Option Nat} {seen : List Piece}
  {xs ys ahead : List Item} {x y : Item} {n : Nat} {p : Piece}

open Item (made setText textOf text_eq)

/-! ## Line breaks -/

/-- The number of bodies at any depth. -/
def bodyCount (heads : Nat → Option Nat) (xs : List Item) : Nat :=
  (Nest.listing xs).countP fun p => p.kind = .container && (p.label.bind heads).isSome

@[simp]
theorem bodyCount_nil : bodyCount heads [] = 0 := rfl

theorem bodyCount_append (xs ys : List Item) :
    bodyCount heads (xs ++ ys) = bodyCount heads xs + bodyCount heads ys := by
  rw [bodyCount, Nest.listing_append, countP_append]
  rfl

theorem bodyCount_cons (x : Item) (xs : List Item) :
    bodyCount heads (x :: xs) =
      (if x.value.kind = .container && (x.value.label.bind heads).isSome then 1 else 0) +
        bodyCount heads x.inside + bodyCount heads xs := by
  rw [bodyCount, Nest.listing_cons, Nest.values_eq, countP_append, countP_cons,
    Nat.add_comm (List.countP _ _)]
  rfl

/-- The row `ys` has the line breaks of `xs`, and two more for each of its bodies. -/
def Kept (heads : Nat → Option Nat) (xs ys : List Item) : Prop :=
  (textOf ys).Breaks (lines xs + 2 * bodyCount heads ys)

namespace Kept

variable {us vs : List Item}

theorem nil : Kept heads [] [] := Text.Breaks.nil

theorem append (h : Kept heads xs ys) (h' : Kept heads us vs) :
    Kept heads (xs ++ us) (ys ++ vs) := by
  have hall := Text.Breaks.append h h'
  rw [Kept, Item.textOf_append, lines_append, bodyCount_append]
  convert hall using 1
  omega

theorem of_aged (h : Kept heads ys us) (haged : AgedRow xs ys) : Kept heads xs us := by
  rwa [Kept, ← haged.lines_eq]

/-- Items that are no groups are put down as they are, and have no bodies. -/
theorem of_leaves (h : (textOf ys).Breaks (lines xs))
    (hleaves : ∀ y ∈ ys, y.value.kind ≠ .container ∧ y.inside = []) (newline : Text) :
    Kept heads xs (ys.map (descend newline)) := by
  have hsame : ys.map (descend newline) = ys.map id :=
    map_congr_left fun y hy => descend_of_kind_ne (hleaves y hy).1 newline
  rw [hsame, map_id]
  have hcount : bodyCount heads ys = 0 := by
    clear h hsame
    induction ys with
    | nil => rfl
    | cons y ys ih =>
      obtain ⟨⟨hkind, hinside⟩, hys⟩ := forall_mem_cons.mp hleaves
      rw [bodyCount_cons, hinside, ih hys]
      simp [hkind]
  rwa [Kept, hcount]

theorem inserted (h : ∀ y ∈ ys, Inserted y) (newline : Text) :
    Kept heads [] (ys.map (descend newline)) :=
  of_leaves (breaks_textOf_zero fun y hy => (h y hy).breaks)
    (fun y hy => ⟨(h y hy).made.kind, (h y hy).made.inside⟩) newline

theorem map {f : Item → Item} (h : ∀ x ∈ xs, Kept heads [x] [f x]) : Kept heads xs (xs.map f) := by
  induction xs with
  | nil => exact nil
  | cons x xs ih =>
    obtain ⟨hx, hxs⟩ := forall_mem_cons.mp h
    exact hx.append (ih hxs)

end Kept

/-! ## Groups -/

theorem breaks_group (hkind : p.kind = .container) (hlevel : Level p)
    (h : (textOf xs).Breaks n) : (textOf [.node p xs]).Breaks n := by
  have hall := (hlevel.opening.append h).append hlevel.closing
  simpa [text_eq, hkind, textOf] using hall

theorem bodyCount_group (hkind : p.kind = .container) (xs : List Item) :
    bodyCount heads [.node p xs] =
      (if (p.label.bind heads).isSome then 1 else 0) + bodyCount heads xs := by
  simp [bodyCount_cons, hkind]

theorem bodyCount_body (newline : Text) (closing : Option Text) (xs : List Item) :
    bodyCount heads (made .whitespace newline :: xs ++ made .whitespace newline ::
      (closing.map (made .identifier)).toList) = bodyCount heads xs := by
  rw [bodyCount_append, bodyCount_cons, bodyCount_cons]
  cases closing <;> simp [bodyCount_cons]

section Walk

variable {newline : Text} (hnewline : newline.Breaks 1)
include hnewline

/-- A body is a row between two line breaks, and a word may close it after the second. -/
theorem breaks_body {closing : Option Text} (h : (textOf xs).Breaks n)
    (hclosing : ∀ word, closing = some word → word.Breaks 0) :
    (textOf (made .whitespace newline :: xs ++ made .whitespace newline ::
      (closing.map (made .identifier)).toList)).Breaks (n + 2) := by
  have hbreak : (Item.text (made .whitespace newline)).Breaks 1 := by
    simpa [text_eq] using hnewline
  have hword : (textOf (closing.map (made .identifier)).toList).Breaks 0 := by
    cases closing with
    | none => exact .nil
    | some word => simpa [text_eq] using hclosing word rfl
  have hall := (hbreak.append h).append (hbreak.append hword)
  rw [Item.textOf_append, Item.textOf_cons, Item.textOf_cons]
  convert hall using 1
  omega

/-- A group with a new row inside it; a body gets two line breaks more. -/
theorem kept_refill (hkind : p.kind = .container) (hlevel : Level p)
    (hbody : p.role = .inline ↔ (p.label.bind heads).isSome = false) (h : Kept heads xs ys) :
    Kept heads [.node p xs] [refill newline p ys] := by
  have hline : p.isNewline = false := Piece.isNewline_eq_false (by simp [hkind])
  have hlines : lines [.node p xs] = lines xs := by simp [lines_cons, hline]
  unfold refill
  cases hrole : p.role with
  | inline =>
    rw [Kept, hlines, bodyCount_group hkind, hbody.mp hrole]
    simpa using breaks_group hkind hlevel h
  | body closing =>
    have hlabel : (p.label.bind heads).isSome = true := by
      rw [← Bool.not_eq_false, ← hbody, hrole]
      nofun
    have hinside := breaks_body hnewline h fun word hword => hlevel.word word (hword ▸ hrole)
    rw [Kept, hlines, bodyCount_group hkind, hlabel, bodyCount_body]
    convert breaks_group hkind hlevel hinside using 1
    simp only [if_true]
    omega

/-- An item is put down; if it is a group, it is gone into. -/
theorem kept_descend (hlevel : Level y.value)
    (hleaf : y.value.kind ≠ .container → y.inside = []) (hbodied : Bodied heads seen y)
    (hinner : ∀ opening, Kept heads y.inside (retarget newline opening y.inside)) :
    Kept heads [y] [descend newline y] := by
  by_cases hkind : y.value.kind = .container
  · have hgroup := kept_refill hnewline hkind hlevel (hbodied.role_eq_inline_iff hkind)
      (hinner y.value.opening)
    rw [Nest.node_value_inside] at hgroup
    rwa [descend, if_pos hkind]
  · have hnone : (textOf y.inside).Breaks (lines y.inside) := by
      rw [hleaf hkind]
      exact .nil
    have htext : (textOf [y]).Breaks (lines [y]) := by
      simpa using hlevel.breaks_text hleaf hnone
    exact .of_leaves htext (forall_mem_singleton.mpr ⟨hkind, hleaf hkind⟩) newline

/-! ## The walk -/

/-- What the walk needs to know of an item that it has not reached. -/
structure Ready (newline : Text) (heads : Nat → Option Nat) (x : Item) : Prop where
  labelled : x.value.label.isSome = true
  level : Level x.value
  shut : Shut x.value
  breaks : (textOf x.inside).Breaks (lines x.inside)
  inner : ∀ opening, Kept heads x.inside (retarget newline opening x.inside)

omit hnewline

theorem level_of_arises (h : ∀ x ∈ xs, Ready newline heads x) (hy : Arises xs y)
    (hlabel : y.value.label.isSome = true) : Level y.value :=
  (inherited_level newline).arises (fun x hx _ => (h x hx).level) hy hlabel

/-- A group that the walk has not reached has its brackets, or it has braces for them. -/
theorem Alters.shut {y' : Item} {j : Nat} (h : Alters x j y y') (haged : Aged y y')
    (hy : Shut y.value) : Shut y'.value := by
  cases h with
  | same => exact hy
  | braced => exact hy.braced
  | colon => exact fun hkind => nomatch hkind
  | erased _ _ _ hspace =>
    intro hkind
    rw [hspace] at hkind
    cases hkind
  | respaced _ _ hlight =>
    intro hkind
    have hgroup := (haged.kind_eq (by simp [hkind])).trans hkind
    rcases hlight with hlight | hlight <;> cases hlight.symm.trans hgroup

theorem Leaves.ready (h : Leaves x ahead n ys) (hready : ∀ y ∈ x :: ahead, Ready newline heads y)
    (hstems : Stems (x :: ahead) ys) : ∀ y ∈ ys, Ready newline heads y := by
  intro y' hy'
  obtain ⟨l, hl⟩ := mem_iff_getElem?.mp hy'
  obtain ⟨y, hy, halters, haged⟩ := h.get_back hl
  have hold := hready y (mem_cons_of_mem x (mem_of_getElem? hy))
  have hlabel : y'.value.label.isSome = true := by
    rw [haged.label]
    exact hold.labelled
  exact ⟨hlabel, level_of_arises hready (hstems y' hy') hlabel, halters.shut haged hold.shut,
    haged.inside ▸ hold.breaks, haged.inside ▸ hold.inner⟩

include hnewline

section

variable (htame : Tame (x :: ahead)) (hready : ∀ y ∈ x :: ahead, Ready newline heads y)
  (hkind : x.value.kind = .identifier) (opening : Text)
include htame hready hkind opening

theorem kept_self (before : List Piece) :
    Kept heads [x] [descend newline (word opening before x ahead).self] := by
  obtain ⟨text, hself⟩ := exists_self_word hkind opening before ahead
  have harises : Arises (x :: ahead) (word opening before x ahead).self :=
    stems_word hkind opening before _ mem_cons_self
  have hx := hready x mem_cons_self
  have hleaf := (leafy_cons.mp htame.leafy).1
  rw [hself] at harises ⊢
  have hlines : lines [setText text x] = lines [x] := by
    have hline : (setText text x).value.isNewline = x.value.isNewline :=
      congrArg Prod.snd (frame_setText (by simp [hkind]) text)
    rw [lines_cons, lines_cons, hline]
    rfl
  have hkept := kept_descend hnewline (level_of_arises hready harises hx.labelled) hleaf
    (show Bodied heads [] _ from .of_kind_ne (by simp [hkind])) hx.inner
  rwa [Kept, hlines] at hkept

/-- What a word shows has the line breaks of what it takes. -/
theorem kept_shown {before : List Piece}
    (hbodied : ∀ y ∈ (word opening before x ahead).shown, Bodied heads seen y) :
    let r := word opening before x ahead
    Kept heads (ahead.take r.taken) (r.shown.map (descend newline)) := by
  have hleafy := htame.tail.leafy
  have hstems : Stems (x :: ahead) (word opening before x ahead).items :=
    stems_word hkind opening before
  cases deals_word htame hkind opening before with
  | message hmessage =>
    have htellable : ∀ y ∈ ahead, Tellable y := fun y hy =>
      have hy' := hready y (mem_cons_of_mem x hy)
      ⟨hy'.level, hy'.shut, hy'.level.breaks_text (hleafy y hy) hy'.breaks⟩
    have hswallows : Swallows (ahead.take (message x ahead).taken) (message x ahead).shown :=
      swallows_taken hleafy
    rw [word_message (isMessage_iff.mp hmessage).2]
    refine Kept.of_leaves ?_ (fun y hy => ⟨hswallows.kind_ne y hy, ?_⟩) newline
    · rw [show (message x ahead).taken = (statement ahead).length from rfl, take_statement]
      exact breaks_message hleafy htellable x
    · exact (hswallows.blank y hy).elim Made.inside And.right
  | steady front back self aged inserted shown =>
    dsimp only
    obtain ⟨hfront, hback⟩ := forall_mem_append.mp inserted
    rw [shown] at hbodied
    rw [shown, map_append, map_append]
    have htaken : Kept heads (ahead.take (word opening before x ahead).taken)
        (((word opening before x ahead).ahead.take
          (word opening before x ahead).taken).map (descend newline)) := by
      refine (Kept.map fun y hy => ?_).of_aged (aged.take _)
      obtain ⟨z, hz, haged⟩ := exists_mem_of_forall₂ (aged.take _) hy
      have hold := hready z (mem_cons_of_mem x (mem_of_mem_take hz))
      have hlabel : y.value.label.isSome = true := by
        rw [haged.label]
        exact hold.labelled
      refine kept_descend hnewline (level_of_arises hready (hstems y ?_) hlabel)
        ((aged.take _).leafy (hleafy.of_subset (take_subset _ _)) y hy)
        (hbodied y (mem_append_left _ (mem_append_right _ hy)))
        (haged.inside ▸ hold.inner)
      exact mem_append_right _ (mem_of_mem_take hy)
    have hall := ((Kept.inserted hfront newline).append htaken).append (Kept.inserted hback newline)
    rwa [nil_append, append_nil] at hall

end

/-- **The walk along a row keeps its line breaks,** and each body gets two more. -/
theorem kept_retargetRow {before : List Piece} (htame : Tame xs)
    (hready : ∀ x ∈ xs, Ready newline heads x) (opening : Text)
    (hbodied : ∀ y ∈ retargetRow opening before xs, Bodied heads seen y) :
    Kept heads xs ((retargetRow opening before xs).map (descend newline)) := by
  fun_induction retargetRow opening before xs with
  | case1 => exact .nil
  | case2 before x ahead hkind r ih =>
    have hleaves := leaves_word htame hkind opening before
    have hstems : Stems (x :: ahead) r.items := stems_word hkind opening before
    have hleft : r.ahead.drop r.taken ⊆ r.items := fun y hy =>
      mem_append_right _ (mem_of_mem_drop hy)
    obtain ⟨hfirst, hothers⟩ := forall_mem_append.mp hbodied
    have hrest := ih (hleaves.tame htame) (hleaves.ready hready (hstems.of_subset hleft)) hothers
    have hshown := kept_shown hnewline htame hready hkind opening (forall_mem_cons.mp hfirst).2
    have hself : Kept heads [x] [descend newline r.self] :=
      kept_self hnewline htame hready hkind opening before
    have hall := hself.append (hshown.append (hrest.of_aged hleaves.aged))
    rw [take_append_drop] at hall
    rw [cons_append, map_cons, map_append]
    exact hall
  | case3 before x ahead hkind y ih =>
    obtain ⟨hleaf, hleafy⟩ := leafy_cons.mp htame.leafy
    have hleaves := leaves_after hleafy x
    have hstems := (Stems.tail (x := x) ahead).trans (reworked_after x ahead).stems
    obtain ⟨hself, hothers⟩ := forall_mem_cons.mp (forall_mem_append.mp hbodied).2
    have hrest := ih (hleaves.tame htame) (hleaves.ready hready hstems) hothers
    have haged : Aged x y := aged_written hleaf (by simp [respellings]) ..
    have hx := hready x mem_cons_self
    have hlabel : y.value.label.isSome = true := by
      rw [haged.label]
      exact hx.labelled
    have hself : Kept heads [x] [descend newline y] := by
      refine (kept_descend hnewline (level_of_arises hready ?_ hlabel) ?_ hself
        (haged.inside ▸ hx.inner)).of_aged (.cons haged .nil)
      · exact Reworks.arises (reworks_written (by simp [respellings]) ..) mem_cons_self
      · intro hne
        rw [← haged.inside]
        exact hleaf (haged.of_kind_ne hne)
    have hannounced : Kept heads []
        ((if isLiteral x then announcement opening before else []).map (descend newline)) :=
      .inserted (inserted_announcement x opening before) newline
    have hall := hannounced.append (hself.append (hrest.of_aged hleaves.aged))
    rw [map_append, map_cons]
    exact hall

/-- **Retargeting keeps the line breaks of a row** and of all rows inside it, and each body that is
left gets two more. -/
theorem kept_retarget (htame : Nest.Throughout Tame xs)
    (hforetold : Nest.Throughout (Foretold heads []) xs)
    (hpieces : ∀ p ∈ Nest.listing xs, p.label.isSome = true ∧ Level p ∧ Shut p) (opening : Text) :
    Kept heads xs (retarget newline opening xs) := by
  have hrows := htame.and hforetold
  clear htame hforetold
  induction hrows generalizing opening with
  | intro row inside ih =>
    rw [retarget_eq]
    refine kept_retargetRow hnewline row.1 (fun x hx => ?_) opening
      (bodied_retargetRow row.1 row.2 opening)
    have hvalues : x.values ⊆ Nest.listing _ := fun p hp => mem_flatMap.mpr ⟨x, hx, hp⟩
    rw [Nest.values_eq] at hvalues
    obtain ⟨⟨hlabel, hlevel, hshut⟩, hinside⟩ :=
      forall_mem_cons.mp fun p hp => hpieces p (hvalues hp)
    refine ⟨hlabel, hlevel, hshut, ?_, ih x hx hinside⟩
    exact breaks_textOf ((inside x hx).mono fun us hus => hus.1.leafy) fun p hp =>
      (hinside p hp).2.1

end Walk

end Macro10.Row
