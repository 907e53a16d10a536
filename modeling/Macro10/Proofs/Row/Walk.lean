import Macro10.Proofs.Row.Arises

/-!
# The walk along a row

`retargetRow` walks one row; `retarget` walks a row and then the rows inside its groups. A group is
entered after its row is done, and by then it is known whether it is the body of a directive.
-/

namespace Macro10.Row

open List

variable {x : Item} {xs : List Item}

open Retarget (quoteSingle)
open Nest (listing listing_cons value values values_eq)

/-- The item is a literal. -/
def isLiteral (x : Item) : Bool := x.value.kind = .string || x.value.kind = .number

/-- Retargets a row after the given pieces, without what is inside its groups. -/
def retargetRow (opening : Text) (before : List Piece) : List Item → List Item
  | [] => []
  | x :: ahead =>
    if x.value.kind = .identifier then
      let r := word opening before x ahead
      r.self :: r.shown ++ retargetRow opening
        (((r.ahead.take r.taken).map value).reverse ++ r.self.value :: before)
        (r.ahead.drop r.taken)
    else
      let y := written quoteSingle opening before x ahead
      (if isLiteral x then announcement opening before else []) ++
        y :: retargetRow opening (y.value :: before) (after x ahead)
termination_by ahead => ahead.length
decreasing_by
  · simp only [length_drop, length_ahead_word, length_cons]
    omega
  · simp

section

variable (opening : Text) (before : List Piece) (ahead : List Item)

theorem retargetRow_word (h : x.value.kind = .identifier) :
    retargetRow opening before (x :: ahead) =
      let r := word opening before x ahead
      r.self :: r.shown ++ retargetRow opening
        (((r.ahead.take r.taken).map value).reverse ++ r.self.value :: before)
        (r.ahead.drop r.taken) := by
  rw [retargetRow, if_pos h]

/-- An item that is neither a word nor an operator nor a literal. -/
theorem retargetRow_other (h : x.value.kind ≠ .identifier) (hoperator : x.value.kind ≠ .operator)
    (hliteral : isLiteral x = false) :
    retargetRow opening before (x :: ahead) =
      let y := written quoteSingle opening before x ahead
      y :: retargetRow opening (y.value :: before) ahead := by
  rw [retargetRow, if_neg h, hliteral, after, if_neg hoperator]
  rfl

theorem retargetRow_container (h : x.value.kind = .container) :
    retargetRow opening before (x :: ahead) =
      enter before x :: retargetRow opening (entered before x.value :: before) ahead := by
  rw [retargetRow_other _ _ _ (by simp [h]) (by simp [h]) (by simp [isLiteral, h])]
  simp only [written, h]
  rfl

theorem retargetRow_whitespace (h : x.value.kind = .whitespace) :
    retargetRow opening before (x :: ahead) =
      x :: retargetRow opening (x.value :: before) ahead := by
  rw [retargetRow_other _ _ _ (by simp [h]) (by simp [h]) (by simp [isLiteral, h])]
  simp only [written, h]

end

/-- Every item of a row that has been walked comes from the row. -/
theorem stems_retargetRow (opening : Text) (before : List Piece) (xs : List Item) :
    Stems xs (retargetRow opening before xs) := by
  fun_induction retargetRow opening before xs with
  | case1 => exact .nil
  | case2 before x ahead hkind r ih =>
    obtain ⟨hshown, hleft⟩ := forall_mem_append.mp (stems_word hkind opening before)
    exact .append hshown (Stems.trans (Stems.of_subset hleft (drop_subset _ _)) ih)
  | case3 before x ahead _ y ih =>
    have hself : Arises (x :: ahead) y :=
      Reworks.arises (reworks_written (by simp [respellings]) ..) mem_cons_self
    refine .append ?_ (.cons hself ?_)
    · split
      · exact stems_announcement _ opening before
      · exact .nil
    · exact ((Stems.tail ahead).trans (reworked_after x ahead).stems).trans ih

/-! ## Groups -/

/-- A group with the new row inside it. The body of a directive is put on lines of its own. -/
def refill (newline : Text) (p : Piece) (inside : List Item) : Item :=
  match p.role with
  | .inline => .node p inside
  | .body closing =>
    .node p (Item.made .whitespace newline :: inside ++ Item.made .whitespace newline ::
      (closing.map (Item.made .identifier)).toList)

/-- Retargets a row, and the rows inside its groups. -/
def retarget (newline opening : Text) (xs : List Item) : List Item :=
  (retargetRow opening [] xs).attach.map fun ⟨x, _⟩ =>
    if x.value.kind = .container then
      refill newline x.value (retarget newline x.value.opening x.inside)
    else x
termination_by (listing xs).length
decreasing_by
  have hx := ‹x ∈ retargetRow opening [] xs›
  have hpos : 0 < (listing xs).length := by
    cases xs with
    | nil => rw [retargetRow] at hx; cases hx
    | cons y ys => rw [listing_cons, values_eq]; exact Nat.succ_pos _
  rcases (stems_retargetRow opening [] xs x hx).inside with hinside | ⟨y, hy, hinside⟩
  · rw [hinside]
    exact hpos
  · have hle := Nest.length_values_le hy
    have hlt := Nest.length_listing_inside_lt y
    rw [hinside]
    omega

/-- Retargets what is inside an item, if it is a group. -/
def descend (newline : Text) (x : Item) : Item :=
  if x.value.kind = .container then
    refill newline x.value (retarget newline x.value.opening x.inside)
  else x

theorem descend_of_kind_ne (h : x.value.kind ≠ .container) (newline : Text) :
    descend newline x = x := if_neg h

theorem map_descend_of_kind_ne {ys : List Item} {newline : Text}
    (h : ∀ y ∈ ys, y.value.kind ≠ .container) : ys.map (descend newline) = ys :=
  (map_congr_left fun y hy => descend_of_kind_ne (h y hy) newline).trans (map_id ys)

@[simp]
theorem descend_blanked (newline : Text) (x : Item) :
    descend newline (Item.blanked x) = Item.blanked x :=
  descend_of_kind_ne (by simp) newline

@[simp]
theorem value_descend (newline : Text) (x : Item) : (descend newline x).value = x.value := by
  unfold descend refill
  split
  · split <;> rfl
  · rfl

theorem descend_made {kind : Kind} (h : kind ≠ .container) (newline text : Text) :
    descend newline (Item.made kind text) = Item.made kind text := if_neg h

theorem descend_setText (h : x.value.kind ≠ .container) (newline text : Text) :
    descend newline (Item.setText text x) = Item.setText text x := if_neg h

theorem map_value_descend (newline : Text) (xs : List Item) :
    (xs.map (descend newline)).map value = xs.map value := by
  rw [List.map_map]
  exact map_congr_left fun x _ => value_descend newline x

theorem map_descend_announcement (newline opening : Text) (before : List Piece) :
    (announcement opening before).map (descend newline) = announcement opening before := by
  unfold announcement
  split
  · simp [descend_made]
  · rfl

/-- What a group holds is retargeted within the brackets that it is left with. -/
theorem descend_enter (h : x.value.kind = .container) (newline : Text) (before : List Piece) :
    descend newline (enter before x) = refill newline (entered before x.value)
      (retarget newline (entered before x.value).opening x.inside) := by
  have hkind : (entered before x.value).kind = .container := by
    unfold entered
    split <;> exact h
  exact if_pos hkind

/-- A row is walked, and then the groups that are left. -/
theorem retarget_eq (newline opening : Text) (xs : List Item) :
    retarget newline opening xs = (retargetRow opening [] xs).map (descend newline) := by
  rw [retarget]
  exact attach_map_val (f := descend newline)

/-! ## All pieces -/

/-- The rules hand the property `P` on: it holds of what they make of a piece if it holds of the
piece, and of what they put in. -/
structure Inherited (newline : Text) (P : Piece → Prop) : Prop where
  turned : ∀ {x y : Item}, P x.value → Turns x y → P y.value
  made : ∀ {kind : Kind} {text : Text}, (kind, text) ∈ madePieces → P (.made kind text)
  message : ∀ text : Text, P (.made .string text)
  newline : P (.made .whitespace newline)
  closing : ∀ {p : Piece} {word : Text}, P p → p.role = .body (some word) →
    P (.made .identifier word)

namespace Inherited

variable {newline : Text} {P : Piece → Prop} (h : Inherited newline P)
include h

theorem arises {y : Item} (hxs : ∀ x ∈ xs, P x.value) (hy : Arises xs y) : P y.value := by
  induction hy with
  | item hx => exact hxs _ hx
  | turned _ hy ih => exact h.turned ih hy
  | made hmade => exact h.made hmade
  | message => exact h.message _

theorem refill {p : Piece} (hp : P p) {ys : List Item} (hys : ∀ q ∈ listing ys, P q) :
    ∀ q ∈ listing (refill newline p ys).inside, P q := by
  unfold Row.refill
  split
  · exact hys
  · next closing hrole =>
    intro q hq
    have hmade : ∀ {kind : Kind} {text : Text}, q ∈ values (Item.made kind text) →
        q = .made kind text := by
      intro kind text hmem
      simpa [values_eq] using hmem
    rw [Nest.inside_node, Nest.listing_append, mem_append, listing_cons,
      listing_cons, mem_append, mem_append] at hq
    rcases hq with (hq | hq) | hq | hq
    · rw [hmade hq]
      exact h.newline
    · exact hys q hq
    · rw [hmade hq]
      exact h.newline
    · cases closing with
      | none => cases hq
      | some word =>
        have hword : q ∈ values (Item.made .identifier word) := by
          simpa [listing] using hq
        rw [hmade hword]
        exact h.closing hp hrole

/-- **What the rules hand on holds of all pieces of a row that has been retargeted.** -/
theorem retarget (hxs : ∀ p ∈ listing xs, P p) (opening : Text) :
    ∀ p ∈ listing (retarget newline opening xs), P p := by
  induction xs using Nest.inside_induction generalizing opening with
  | step xs ih =>
    have hvalues : ∀ x ∈ xs, P x.value := fun x hx =>
      hxs _ (mem_flatMap.mpr ⟨x, hx, x.value_mem_values⟩)
    have hinside : ∀ x ∈ xs, ∀ p ∈ listing x.inside, P p := fun x hx p hp =>
      hxs p (mem_flatMap.mpr ⟨x, hx, by rw [values_eq]; exact mem_cons_of_mem _ hp⟩)
    intro p hp
    rw [retarget_eq] at hp
    obtain ⟨z, hz, hpz⟩ := mem_flatMap.mp hp
    obtain ⟨y, hy, rfl⟩ := mem_map.mp hz
    have harises := stems_retargetRow opening [] xs y hy
    rw [values_eq, value_descend] at hpz
    rcases mem_cons.mp hpz with rfl | hpz
    · exact h.arises hvalues harises
    -- What was inside an item of the row is inside it still, or the item is empty.
    have hrow : (∀ q ∈ listing y.inside, P q) ∧
        ∀ opening, ∀ q ∈ listing (Row.retarget newline opening y.inside), P q := by
      rcases harises.inside with hnil | ⟨x, hx, heq⟩
      · rw [hnil]
        refine ⟨fun q hq => (not_mem_nil hq).elim, fun opening q hq => ?_⟩
        rw [retarget_eq, retargetRow] at hq
        cases hq
      · rw [heq]
        exact ⟨hinside x hx, ih x hx (hinside x hx)⟩
    by_cases hkind : y.value.kind = .container
    · rw [descend, if_pos hkind] at hpz
      exact h.refill (h.arises hvalues harises) (hrow.2 _) p hpz
    · rw [descend_of_kind_ne hkind] at hpz
      exact hrow.1 p hpz

end Inherited

end Macro10.Row
