import Macro10.Proofs.Row.Conveyed

/-!
# Rows that the walk comes to

The walk goes along a row and then along the rows inside the groups that it has left. It comes to
every row in this way, except for those in groups that a message has swallowed (`visited_or_lost`).
-/

namespace Macro10.Row

open List

/-- A group is put down with what is inside it, or is lost. -/
theorem Carried.becomes_or_lost {xs ys : List Item} (h : Carried Eq xs ys) {t : Item} (ht : t ∈ xs)
    (hkind : t.value.kind = .container) (newline : Text) :
    (∃ y ∈ ys, Becomes Eq t y) ∨ Lost xs (ys.map (Row.descend newline)) t := by
  induction h with
  | nil => cases ht
  | @made y xs ys _ _ ih =>
    rcases ih ht with ⟨z, hz, hbecomes⟩ | hlost
    · exact .inl ⟨z, mem_cons_of_mem _ hz, hbecomes⟩
    · refine .inr (hlost.append [] ?_)
      rw [map_cons, Nest.listing_cons]
      exact subset_append_right _ _
  | @item x y xs ys hx _ ih =>
    rcases mem_cons.mp ht with rfl | ht
    · exact .inl ⟨y, mem_cons_self, hx⟩
    rcases ih ht with ⟨z, hz, hbecomes⟩ | hlost
    · exact .inl ⟨z, mem_cons_of_mem _ hz, hbecomes⟩
    · refine .inr (hlost.append [x] ?_)
      rw [map_cons, Nest.listing_cons]
      exact subset_append_right _ _
  | @message x y taken shown xs ys hword hx hshown _ ih =>
    have hmap : (y :: (shown ++ ys)).map (Row.descend newline) =
        Row.descend newline y :: (shown ++ ys.map (Row.descend newline)) := by
      rw [map_cons, map_append, map_descend_of_kind_ne hshown.kind_ne]
    rw [hmap]
    rcases mem_cons.mp ht with rfl | ht
    · exact .inl ⟨y, mem_cons_self, hx⟩
    rcases mem_append.mp ht with ht | ht
    · refine .inr (hshown.lost hword ht hkind ?_)
      rw [Nest.listing_cons, Nest.listing_append]
      exact fun p hp => mem_append_right _ (mem_append_left _ hp)
    rcases ih ht with ⟨z, hz, hbecomes⟩ | hlost
    · exact .inl ⟨z, mem_cons_of_mem _ (mem_append_right _ hz), hbecomes⟩
    · refine .inr (hlost.append (x :: taken) ?_)
      rw [Nest.listing_cons, Nest.listing_append]
      exact fun p hp => mem_append_right _ (mem_append_right _ hp)

theorem subset_inside_refill (newline : Text) (p : Piece) (ys : List Item) :
    ys ⊆ (refill newline p ys).inside := by
  unfold refill
  split
  · exact List.Subset.refl _
  · intro y hy
    exact mem_append_left _ (mem_cons_of_mem _ hy)

theorem mem_retarget_of_becomes {xs : List Item} {t y : Item} {opening : Text}
    (hy : y ∈ retargetRow opening [] xs) (hbecomes : Becomes Eq t y)
    (hkind : t.value.kind = .container) (newline : Text) :
    ∃ z ∈ retarget newline opening xs, retarget newline y.value.opening t.inside ⊆ z.inside := by
  have hgroup : y.value.kind = .container := by
    rcases hbecomes.kind with heq | ⟨hne, -⟩
    · exact heq.trans hkind
    · exact absurd hkind hne
  refine ⟨descend newline y, ?_, ?_⟩
  · rw [retarget_eq]
    exact mem_map_of_mem hy
  · rw [descend, if_pos hgroup, ← hbecomes.inside]
    exact subset_inside_refill newline y.value _

/-- **The walk comes to every row** that is not in a group which a message has swallowed. -/
theorem visited_or_lost {xs us : List Item} (h : Nest.Throughout Tame xs) (hus : Nest.Within us xs)
    (hne : us ≠ []) (newline opening : Text) :
    (∃ opening' row, Nest.Within row (retarget newline opening xs) ∧
      retarget newline opening' us ⊆ row) ∨
    ∃ w, Lost xs (retarget newline opening xs) w ∧ Nest.Within us w.inside := by
  induction hus generalizing opening with
  | refl => exact .inl ⟨opening, _, .refl, List.Subset.refl _⟩
  | @inside xs t ht hwithin ih =>
    obtain ⟨htame, hinside⟩ : Tame xs ∧ ∀ t ∈ xs, Nest.Throughout Tame t.inside := by
      cases h with
      | intro row inside => exact ⟨row, inside⟩
    have hkind : t.value.kind = .container := by
      by_contra hleaf
      rw [htame.leafy t ht hleaf] at hwithin
      cases hwithin with
      | refl => exact hne rfl
      | inside hmem => cases hmem
    have hcarried := carried_retargetRow htame opening []
    rcases hcarried.becomes_or_lost ht hkind newline with ⟨y, hy, hbecomes⟩ | hlost
    · obtain ⟨z, hz, hsub⟩ := mem_retarget_of_becomes hy hbecomes hkind newline
      rcases ih (hinside t ht) y.value.opening with ⟨opening', row, hrow, hout⟩ | ⟨w, hlost, hw⟩
      · obtain ⟨row', hsub', hrow'⟩ := hrow.mono hsub
        exact .inl ⟨opening', row', .inside hz hrow', List.Subset.trans hout hsub'⟩
      · refine .inr ⟨w, hlost.imp (.inside ht hlost.message) fun p hp => ?_, hw⟩
        obtain ⟨v, hv, hpv⟩ := mem_flatMap.mp hp
        refine (Nest.Within.inside hz .refl).listing_subset ?_
        exact mem_flatMap.mpr ⟨v, hsub hv, hpv⟩
    · rw [← retarget_eq] at hlost
      exact .inr ⟨t, hlost, hwithin⟩

end Macro10.Row
