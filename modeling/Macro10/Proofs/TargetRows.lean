import Macro10.Proofs.NormalRows

/-!
# The rows of a target

Each list of siblings in a target is what the walk has left of a row of the normal form; the body of
a directive stands between two line breaks, and a word may close it (`Retargeted.exists_row`).
-/

namespace Macro10

open List

namespace Row

/-! ## Rows inside groups -/

/-- A group that is a body has no brackets, and only some words can close it. -/
structure Unbracketed (p : Piece) : Prop where
  opening : ∀ closing, p.role = .body closing → p.opening = []
  closing : ∀ word, p.role = .body (some word) → word ∈ closingTexts

theorem Unbracketed.of_inline {p : Piece} (h : p.role = .inline) : Unbracketed p := by
  constructor
  all_goals
    intro _ hrole
    rw [h] at hrole
    cases hrole

theorem Unbracketed.turned {x y : Item} (h : Unbracketed x.value) (hy : Turns x y) :
    Unbracketed y.value := by
  cases hy with
  | blanked => exact ⟨fun _ _ => rfl, h.closing⟩
  | spaced | respelled | operator | word | immediate => exact ⟨h.opening, h.closing⟩
  | entered before =>
    unfold enter entered
    split
    · exact .of_inline rfl
    · next closing hrole =>
      refine ⟨fun _ _ => rfl, fun word hword => ?_⟩
      obtain rfl := Role.body.inj hword
      exact mem_closingTexts_of_roleAfter hrole
  | braced =>
    unfold braced
    split
    · next hparens =>
      -- A body has no parentheses, so there are no braces for it.
      simp only [Bool.and_eq_true, decide_eq_true_eq] at hparens
      refine ⟨fun closing hrole => ?_, h.closing⟩
      have hopening := h.opening closing hrole
      rw [hparens.1.2] at hopening
      cases hopening
    · exact h

theorem inherited_unbracketed (newline : Text) : Inherited newline Unbracketed where
  turned := Unbracketed.turned
  made := fun _ => .of_inline rfl
  message := fun _ => .of_inline rfl
  newline := .of_inline rfl
  closing := fun _ _ => .of_inline rfl

/-- The walk has left `row` of the items `us` in a group with the bracket `opening`. -/
inductive Written (newline opening : Text) (us row : List Item) : Prop
  | inline (hrow : row = retarget newline opening us)
  /-- The body of a directive is on lines of its own. -/
  | body {closing : Option Text} (hopening : opening = [])
      (hclosing : ∀ word, closing = some word → word ∈ closingTexts)
      (hrow : row = Item.made .whitespace newline :: retarget newline opening us ++
        Item.made .whitespace newline :: (closing.map (Item.made .identifier)).toList)

theorem map_value_retarget (newline opening : Text) (us : List Item) :
    (retarget newline opening us).map Nest.value = (retargetRow opening [] us).map Nest.value := by
  rw [retarget_eq, map_value_descend]

theorem Written.mem_retarget {newline opening : Text} {us row : List Item}
    (h : Written newline opening us row) {z : Item} (hz : z ∈ row)
    (hkind : z.value.kind = .container) : z ∈ retarget newline opening us := by
  cases h with
  | inline hrow => exact hrow ▸ hz
  | @body closing _ _ hrow =>
    rw [hrow] at hz
    rcases mem_append.mp hz with hz | hz
    · rcases mem_cons.mp hz with rfl | hz
      · cases hkind
      · exact hz
    · rcases mem_cons.mp hz with rfl | hz
      · cases hkind
      · obtain ⟨word, -, rfl⟩ := Option.map_eq_some_iff.mp (Option.mem_toList.mp hz)
        cases hkind

/-- The row inside a group that the walk has left. -/
theorem exists_written_inside {newline opening : Text} {us : List Item}
    (hus : ∀ x ∈ us, Unbracketed x.value) {z : Item} (hz : z ∈ retarget newline opening us)
    (hkind : z.value.kind = .container) :
    ∃ vs, (vs = [] ∨ ∃ x ∈ us, vs = x.inside) ∧ Written newline z.value.opening vs z.inside := by
  rw [retarget_eq] at hz
  obtain ⟨y, hy, rfl⟩ := mem_map.mp hz
  rw [value_descend] at hkind ⊢
  have harises := stems_retargetRow opening [] us y hy
  refine ⟨y.inside, harises.inside, ?_⟩
  have hbody := (inherited_unbracketed newline).arises hus harises
  rw [descend, if_pos hkind, refill]
  cases hrole : y.value.role with
  | inline => exact .inline rfl
  | body closing =>
    refine .body (hbody.opening closing hrole) (fun word hword => ?_) rfl
    exact hbody.closing word (hword ▸ hrole)

end Row

/-! ## Documents -/

/-- The bracket around a list of siblings; there is none at the top level. -/
def Document.openingOf (d : Document) : Option Id → Text
  | none => []
  | some i => (d.tokens[i]?.map Token.opening).getD []

theorem Forest.role_items (f : Forest) : ∀ p ∈ Nest.listing f.items, p.role = .inline := by
  induction f with
  | nil => exact forall_mem_nil _
  | leaf kind text position rest ih =>
    rw [items, Nest.listing_cons, Nest.values_node]
    exact forall_mem_cons.mpr ⟨rfl, ih⟩
  | group position closed children rest ihc ih =>
    rw [items, Nest.listing_cons, Nest.values_node]
    exact forall_mem_append.mpr ⟨forall_mem_cons.mpr ⟨rfl, ihc⟩, ih⟩

theorem Normalized.role_eq {d normal : Document} {f : Forest} {cs : List Cell}
    (h : Normalized d f normal cs) :
    ∀ p ∈ Nest.listing (Cell.items (cs.map Cell.labelled)), p.role = .inline := by
  intro p hp
  obtain ⟨-, q, -, -, hq, hsettles⟩ := h.exists_settled hp
  exact hsettles.role.trans (f.role_items q hq)

/-- **Each list of siblings in a target is what the walk has left of a row.** -/
theorem Retargeted.exists_row {normal target : Document} {cs out : List Cell}
    (h : Retargeted normal cs target out)
    (hroles : ∀ p ∈ Nest.listing (Cell.items (cs.map Cell.labelled)), p.role = .inline)
    {parent : Option Id} {ids : List Id} (hscope : target.Scope parent ids) :
    ∃ ws us, ids = Cell.ids ws ∧ Nest.Within ws out ∧ target.Standing false parent ws ∧
      (us = [] ∨ Nest.Within us (Cell.items (cs.map Cell.labelled))) ∧
      Row.Written normal.newline (target.openingOf parent) us (Cell.items ws) := by
  induction hscope with
  | root => exact ⟨out, _, h.outRoot, .refl, h.outStanding, .inr .refl, .inline h.items⟩
  | @children parent ids children i t _ hi ht hchildren ih =>
    obtain ⟨ws, us, rfl, hws, hstanding, hus, hwritten⟩ := ih
    obtain ⟨c, hc, rfl⟩ := mem_map.mp hi
    obtain ⟨t', ht', hshows⟩ := hstanding.row.looks c hc
    cases ht.symm.trans ht'
    rw [hshows.children] at hchildren
    split at hchildren
    · next hkind =>
      cases hchildren
      have hmem := hwritten.mem_retarget (mem_map_of_mem hc) (by rw [Cell.value_item, hkind])
      have hwithin : ∀ x ∈ us, Nest.Within x.inside (Cell.items (cs.map Cell.labelled)) ∧
          x.value.role = .inline := by
        intro x hx
        rcases hus with rfl | hus
        · cases hx
        · refine ⟨Nest.Within.trans (.inside hx .refl) hus, hroles _ (hus.listing_subset ?_)⟩
          exact mem_flatMap.mpr ⟨x, hx, x.value_mem_values⟩
      obtain ⟨vs, hvs, hinside⟩ := Row.exists_written_inside
        (fun x hx => .of_inline (hwithin x hx).2) hmem (by rw [Cell.value_item, hkind])
      obtain ⟨xs, ys, rfl⟩ := append_of_mem hc
      refine ⟨c.inside, vs, rfl, Nest.Within.trans (.inside hc .refl) hws, hstanding.inside, ?_, ?_⟩
      · rcases hvs with rfl | ⟨x, hx, rfl⟩
        · exact .inl rfl
        · exact .inr (hwithin x hx).1
      · rw [Cell.value_item, Cell.inside_item] at hinside
        rw [Document.openingOf, ht, Option.map_some, Option.getD_some, hshows.opening]
        exact hinside
    · cases hchildren

end Macro10
