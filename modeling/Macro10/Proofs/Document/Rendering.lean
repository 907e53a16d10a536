import Macro10.Proofs.Document.Neighbours

/-!
# The text of cells

The text of a token in a document is the text of its item.
-/

namespace Macro10.Document

open List
open Cell (ids items)

variable {marked : Bool} {d : Document} {fuel : Nat}

theorem mapM_eq_ok {α β : Type} {f : α → Except Failure β} {g : α → β} {xs : List α}
    (h : ∀ x ∈ xs, f x = .ok (g x)) : xs.mapM f = .ok (xs.map g) := by
  induction xs with
  | nil => rfl
  | cons x xs ih =>
    obtain ⟨hx, hxs⟩ := forall_mem_cons.mp h
    rw [mapM_cons, hx, ih hxs]
    rfl

theorem renderWithin_eq {c : Cell}
    (h : d.Looks c)
    (hnested : d.Nested marked c) (hfuel : (Cell.places c.inside).length < fuel) :
    d.renderWithin fuel c.id = .ok (Item.text c.item) := by
  induction hnested generalizing fuel with
  | @intro c leaf row all ih =>
    obtain ⟨t, ht, hlooks⟩ := h
    obtain ⟨fuel, rfl⟩ := Nat.exists_eq_add_of_le' ((Nat.zero_le _).trans_lt hfuel)
    rw [renderWithin, token_eq_ok_iff.mpr ht, Item.text_eq, Cell.value_item, Cell.inside_item]
    simp only [bind, Except.bind]
    by_cases hkind : c.piece.kind = .container
    · have hinner : (t.children.getD []).mapM (d.renderWithin fuel) =
          .ok ((items c.inside).map Item.text) := by
        rw [hlooks.children, if_pos hkind, Option.getD_some, ids, mapM_map, items,
          List.map_map]
        refine mapM_eq_ok fun x hx => ih x hx (row.looks x hx) ?_
        have hlt := Cell.length_places_inside_lt hx
        omega
      rw [hlooks.kind, hkind, if_pos rfl, hinner, hlooks.opening, hlooks.closing]
      rw [flatMap_def]
      rfl
    · rw [hlooks.kind, if_neg hkind, hlooks.words hkind]
      split
      · contradiction
      · rfl

theorem renderList_eq {cs : List Cell}
    (h : ∀ c ∈ cs, d.Looks c)
    (hnested : ∀ c ∈ cs, d.Nested marked c)
    (hfuel : ∀ c ∈ cs, (Cell.places c.inside).length ≤ d.tokens.size) :
    d.renderList (ids cs) = .ok (Item.textOf (items cs)) := by
  have hmap : (ids cs).mapM d.renderToken = .ok ((items cs).map Item.text) := by
    rw [ids, mapM_map, items, List.map_map]
    exact mapM_eq_ok fun c hc => renderWithin_eq (h c hc) (hnested c hc)
      (Nat.lt_succ_of_le (hfuel c hc))
  rw [renderList, hmap, Item.textOf, flatMap_def]
  rfl

end Macro10.Document
