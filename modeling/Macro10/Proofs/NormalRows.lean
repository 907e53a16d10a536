import Macro10.Proofs.Retargeted
import Macro10.Proofs.Row.Arguments

/-!
# The rows of a document and of its normal form

A document that was read and its normal form have the same lists of siblings, and the row of the
second is the normal form of the row of the first (`Normalized.exists_rows`). A token of the row
stands in both documents between the same tokens (`NormalRow.exists_tokens`).
-/

namespace Macro10

open List

variable {i : Id} {d : Document} {t : Token} {parent : Option Id}

open Cell (ids_append ids_cons pieces)

variable {cs : List Cell} {f : Forest}

/-! ## Forms -/

theorem Nest.map_eq {α β : Type} (f : α → β) (t : Nest α) :
    t.map f = .node (f t.value) (t.inside.map (Nest.map f)) := by
  rw [← node_value_inside (t.map f), value_map, inside_map]

/-- A row and its normal form have the same form. -/
theorem Row.map_unit_normal {P : List Item → Prop} {xs : List Item} (h : Nest.Throughout P xs) :
    (normal xs).map (Nest.map fun _ => ()) = xs.map (Nest.map fun _ => ()) := by
  induction h with
  | @intro xs _ _ ih =>
    have hmap (ys : List Item) : ys.map (Nest.map fun _ => ()) =
        (ys.map Nest.inside).map fun row => Nest.node () (row.map (Nest.map fun _ => ())) := by
      rw [List.map_map]
      exact map_congr_left fun y _ => Nest.map_eq _ y
    rw [hmap, map_inside_normal, hmap xs, List.map_map, List.map_map]
    refine map_congr_left fun x hx => ?_
    rw [Function.comp_apply, Function.comp_apply, ih x hx]

/-! ## Rows -/

/-- The row `vs` of the document `d` has become the row `us` of its normal form. -/
structure NormalRow (d normal : Document) (parent : Option Id) (vs us : List Cell) : Prop where
  read : d.Standing true parent vs
  standing : normal.Standing true parent us
  form : us.map (Nest.map Prod.fst) = vs.map (Nest.map Prod.fst)
  items : Cell.items us = Row.normal (Cell.items vs)
  unmarked : Nest.Throughout (fun xs => ∀ x ∈ xs, x.value.Unmarked) (Cell.items vs)

theorem Normalized.normalRow {normal : Document}
    (h : Normalized d f normal cs) : NormalRow d normal none (f.cells 0) cs where
  read := h.read
  standing := h.standing
  form := by
    have hunit := Row.map_unit_normal f.throughout_unmarked
    rw [← h.items, ← f.items_cells 0] at hunit
    rw [Cell.items, Cell.items] at hunit
    exact Nest.map_eq_of_listing
      ((Nest.list_map_map _ _ cs).symm.trans (hunit.trans (Nest.list_map_map _ _ _)))
      h.places_cells.symm
  items := by rw [h.items, f.items_cells]
  unmarked := by
    rw [f.items_cells]
    exact f.throughout_unmarked

namespace NormalRow

variable {normal : Document} {vs us : List Cell}

theorem ids_eq (h : NormalRow d normal parent vs us) : Cell.ids us = Cell.ids vs := by
  have hids (cs : List Cell) : Cell.ids cs = (cs.map (Nest.map Prod.fst)).map Nest.value := by
    rw [Cell.ids, List.map_map]
    exact map_congr_left fun c _ => (Nest.value_map _ c).symm
  rw [hids, hids, h.form]

theorem pieces_eq (h : NormalRow d normal parent vs us) :
    pieces us = Row.normalAfter none (pieces vs) := by
  rw [← Cell.map_value_items, h.items, Row.map_value_normal, Cell.map_value_items]

variable {xs ys : List Cell} {c : Cell}

theorem exists_cut (h : NormalRow d normal parent (xs ++ c :: ys) us) :
    ∃ xs' c' ys', us = xs' ++ c' :: ys' ∧ Cell.ids xs' = Cell.ids xs ∧ c'.id = c.id ∧
      Cell.ids ys' = Cell.ids ys ∧ NormalRow d normal (some c.id) c.inside c'.inside := by
  have hids := h.ids_eq
  rw [ids_append, ids_cons] at hids
  obtain ⟨xs', zs, rfl, hxs, hzs⟩ := map_eq_append_iff.mp hids
  obtain ⟨c', ys', rfl, hid, hys⟩ := map_eq_cons_iff.mp hzs
  have hlength : xs'.length = xs.length := by simpa using congrArg List.length hxs
  have hid' : c'.id = c.id := hid
  refine ⟨xs', c', ys', rfl, hxs, hid, hys, h.read.inside, hid' ▸ h.standing.inside, ?_, ?_, ?_⟩
  · have hform := congrArg (fun l => l[xs.length]?.map Nest.inside) h.form
    rw [map_append, map_append, map_cons, map_cons] at hform
    simpa [hlength, getElem?_append_right] using hform
  · have hitems := congrArg (fun l => (l.map Nest.inside)[xs.length]?) h.items
    simp only [Row.map_inside_normal] at hitems
    simpa [hlength, getElem?_append_right] using hitems
  · cases h.unmarked with
    | intro _ inside => exact Cell.inside_item c ▸ inside c.item (mem_map_of_mem (by simp))

/-- A piece of the normal form is said by the pieces around it. -/
theorem alike_piece {xs' ys' : List Cell} {c' : Cell}
    (h : NormalRow d normal parent (xs ++ c :: ys) (xs' ++ c' :: ys'))
    (hxs : Cell.ids xs' = Cell.ids xs) :
    Row.Alike (Row.settledBetween (pieces xs).getLast? (pieces ys).head? c.piece)
        c'.piece ∧
      c'.piece.owner = (Row.owned ((pieces xs).foldl Row.gathering none) c.piece).owner ∧
      c'.piece.parts = (Row.headed c.piece (pieces ys)).parts ∧
      c'.piece.body = (Row.headed c.piece (pieces ys)).body := by
  have hpieces := h.pieces_eq
  obtain ⟨q, hq, hmarks⟩ :=
    Row.exists_normal_piece (pieces xs) c.piece (pieces ys)
  have hlength : (pieces xs).length = (pieces xs').length := by
    simpa [pieces] using congrArg List.length hxs.symm
  rw [Cell.pieces_append, Cell.pieces_append, Cell.pieces_cons, Cell.pieces_cons] at hpieces
  rw [← hpieces, hlength, getElem?_append_right (le_rfl), Nat.sub_self] at hq
  cases hq
  exact hmarks

/-- **A token in a document and in its normal form.** It stands between the same tokens, and its
piece is the one that the normal form gives. -/
theorem exists_tokens (h : NormalRow d normal parent (xs ++ c :: ys) us) :
    ∃ t t' q, d.tokens[c.id]? = some t ∧ normal.tokens[c.id]? = some t' ∧
      t.Fits true parent (Cell.ids xs).reverse (Cell.ids ys) c.piece (Cell.ids c.inside) ∧
      t'.Fits true parent (Cell.ids xs).reverse (Cell.ids ys) q (Cell.ids c.inside) ∧
      Row.Alike (Row.settledBetween (pieces xs).getLast? (pieces ys).head? c.piece) q ∧
      q.owner = (Row.owned ((pieces xs).foldl Row.gathering none) c.piece).owner ∧
      q.parts = (Row.headed c.piece (pieces ys)).parts ∧
      q.body = (Row.headed c.piece (pieces ys)).body := by
  obtain ⟨xs', c', ys', rfl, hxs, hid, hys, hinside⟩ := h.exists_cut
  obtain ⟨t, ht, hfits⟩ := h.read.row.holds
  obtain ⟨t', ht', hfits'⟩ := h.standing.row.holds
  rw [append_nil, append_nil] at hfits hfits'
  rw [hxs, hys, hinside.ids_eq] at hfits'
  exact ⟨t, t', c'.piece, ht, hid ▸ ht', hfits, hfits', h.alike_piece hxs⟩

theorem unmarked_piece (h : NormalRow d normal parent (xs ++ c :: ys) us) : c.piece.Unmarked := by
  cases h.unmarked with
  | intro row _ => exact Cell.value_item c ▸ row c.item (mem_map_of_mem (by simp))

/-- The rows inside a row of the normal form come from rows of the document. -/
theorem within (h : NormalRow d normal parent vs us) (hscope : d.Scope parent (Cell.ids vs))
    {ws : List Cell} (hws : Nest.Within ws us) (hne : ws ≠ []) :
    ∃ parent' vs', NormalRow d normal parent' vs' ws ∧ d.Scope parent' (Cell.ids vs') := by
  induction hws generalizing parent vs with
  | refl => exact ⟨parent, vs, h, hscope⟩
  | @inside us c hc hwithin ih =>
    obtain ⟨xs', ys', rfl⟩ := append_of_mem hc
    have hids := h.ids_eq
    rw [ids_append, ids_cons] at hids
    obtain ⟨xs, b, ys, rfl, hxs, -, -⟩ := Cell.exists_of_ids_eq hids
    obtain ⟨xs'', c'', ys'', heq, hxs'', -, -, hinside⟩ := h.exists_cut
    have hlength : xs'.length = xs''.length := by
      simpa [Cell.ids] using congrArg List.length (hxs.symm.trans hxs''.symm)
    obtain ⟨rfl, -⟩ := List.cons.inj (append_inj heq hlength).2
    obtain ⟨t, ht, hshows⟩ := h.read.row.looks b (by simp)
    have hchildren := hshows.children
    by_cases hkind : (Cell.piece b).kind = .container
    · rw [if_pos hkind] at hchildren
      exact ih hinside (.children hscope (mem_map_of_mem (by simp)) ht hchildren)
    · -- Only a group has something inside.
      have hleaf : Cell.ids c.inside = [] := by
        rw [hinside.ids_eq, (h.read.nested b (by simp)).leaf hkind]
        rfl
      rw [map_eq_nil_iff.mp hleaf] at hwithin
      cases hwithin with
      | refl => exact absurd rfl hne
      | inside hmem => cases hmem

end NormalRow

/-- **Each list of siblings is a row of the document and of its normal form.** -/
theorem Normalized.exists_rows {normal : Document}
    (h : Normalized d f normal cs) {ids : List Id}
    (hscope : d.Scope parent ids) :
    ∃ vs us, ids = Cell.ids vs ∧ NormalRow d normal parent vs us := by
  induction hscope with
  | root => exact ⟨_, _, h.readRoot, h.normalRow⟩
  | children _ hi ht hchildren ih =>
    obtain ⟨vs, us, rfl, hrow⟩ := ih
    obtain ⟨c, hc, rfl⟩ := mem_map.mp hi
    obtain ⟨t, ht', hshows⟩ := hrow.read.row.looks c hc
    cases ht.symm.trans ht'
    obtain ⟨xs, ys, rfl⟩ := append_of_mem hc
    obtain ⟨-, c', -, -, -, -, -, hinside⟩ := hrow.exists_cut
    refine ⟨c.inside, c'.inside, ?_, hinside⟩
    rw [hshows.children] at hchildren
    split at hchildren
    · exact (Option.some.inj hchildren).symm
    · cases hchildren

theorem Normalized.size_eq {normal : Document}
    (h : Normalized d f normal cs) : normal.tokens.size = d.tokens.size := by
  refine Nat.le_antisymm ?_ (Edit.evolves_normalize h.edit).size
  have hlength := h.read.length_places_le
  rwa [h.places_cells, h.places, length_range] at hlength

theorem Normalized.exists_scope {normal : Document}
    (h : Normalized d f normal cs) (ht : normal.tokens[i]? = some t) :
    ∃ parent before after, d.Scope parent (before ++ i :: after) := by
  have hplace : i ∈ Cell.places (f.cells 0) := by
    rw [h.places_cells, h.places]
    exact mem_range.mpr (Document.lt_size_of_getElem? ht)
  obtain ⟨v, hv, rfl⟩ := mem_map.mp hplace
  obtain ⟨vs, hvs, c, hc, rfl⟩ := Nest.exists_within hv
  obtain ⟨parent, -, hscope⟩ :=
    h.read.within (h.readRoot ▸ .root) hvs (ne_nil_of_mem hc)
  obtain ⟨xs, ys, rfl⟩ := append_of_mem hc
  rw [ids_append, ids_cons] at hscope
  exact ⟨parent, _, _, hscope⟩

end Macro10
