import Macro10.Proofs.Conservation
import Macro10.Proofs.Row.Visited

/-!
# Documents before and after retargeting

Each item that the walk puts down stands in the target as a token, at the place that its label names
if it has one (`Retargeted.exists_token_of_label`). The walk comes to all rows but those in groups
that a message has swallowed (`Retargeted.found_or_swallowed`).
-/

namespace Macro10

open List

namespace Document

variable {marked : Bool} {d : Document} {parent : Option Id} {cs us : List Cell}

theorem Standing.within (h : Standing marked d parent cs) (hscope : d.Scope parent (Cell.ids cs))
    (hus : Nest.Within us cs) (hne : us ≠ []) :
    ∃ parent', Standing marked d parent' us ∧ d.Scope parent' (Cell.ids us) := by
  induction hus generalizing parent with
  | refl => exact ⟨parent, h, hscope⟩
  | @inside cs c hc hwithin ih =>
    obtain ⟨xs, ys, rfl⟩ := append_of_mem hc
    have hkind : (Cell.piece c).kind = .container := by
      by_contra hleaf
      rw [(h.nested c hc).leaf hleaf] at hwithin
      cases hwithin with
      | refl => exact hne rfl
      | inside hmem => cases hmem
    obtain ⟨t, ht, hshows⟩ := h.row.looks c hc
    have hchildren := hshows.children
    rw [if_pos hkind] at hchildren
    exact ih h.inside (.children hscope (mem_map_of_mem hc) ht hchildren)

/-- What a directive has before its body are arguments of it. -/
theorem Standing.mem_parts (h : Standing true d parent cs) {j i : Nat} {k c : Cell}
    (hk : cs[j]? = some k) (hc : cs[i]? = some c) (hlt : j < i)
    (hle : i ≤ j + Row.leading k.piece) :
    ∃ t parts, d.tokens[k.id]? = some t ∧ t.Shows k.piece (Cell.ids k.inside) ∧
      t.parts = some parts ∧ c.id ∈ parts := by
  obtain ⟨n, hparts, hn⟩ : ∃ n, k.piece.parts = some n ∧ Row.leading k.piece ≤ n := by
    have hleading := Row.leading_le k.piece
    cases hparts : k.piece.parts with
    | some n => exact ⟨n, rfl, by rwa [hparts] at hleading⟩
    | none =>
      rw [hparts, Option.getD_none] at hleading
      omega
  obtain ⟨xs, ys, rfl, rfl⟩ := exists_split_of_getElem? hk
  obtain ⟨t, ht, hfits⟩ := h.row.holds
  refine ⟨t, _, ht, hfits.looks, by rw [(hfits.marks rfl).parts, hparts]; rfl, ?_⟩
  have hys : ys[i - xs.length - 1]? = some c := by
    rw [getElem?_append_right (by omega)] at hc
    obtain ⟨l, hl⟩ := Nat.exists_eq_add_of_lt hlt
    have hindex : i - xs.length = i - xs.length - 1 + 1 := by omega
    rwa [hindex, getElem?_cons_succ] at hc
  refine mem_of_getElem? (i := i - xs.length - 1) ?_
  rw [getElem?_take_of_lt (by omega), append_nil, Cell.ids, getElem?_map, hys]
  rfl

end Document

namespace Cell

/-- The item is among those of the cells or inside one of them. -/
def Found (cs : List Cell) (z : Item) : Prop :=
  ∃ us, Nest.Within us cs ∧ ∃ c : Cell, c ∈ us ∧ c.item = z

theorem piece_eq_of_item {c : Cell} {x : Item} (h : c.item = x) : c.piece = x.value := by
  rw [← h, value_item]

theorem getElem?_items {us : List Cell} {i : Nat} {c : Cell} (h : us[i]? = some c) :
    (items us)[i]? = some c.item := by
  rw [items, getElem?_map, h]
  rfl

theorem exists_of_getElem?_items {us : List Cell} {i : Nat} {x : Item}
    (h : (items us)[i]? = some x) : ∃ c, us[i]? = some c ∧ c.item = x := by
  rw [items, getElem?_map] at h
  exact Option.map_eq_some_iff.mp h

end Cell

/-- A row of labelled cells that the walk comes to. What it puts down can be found in the target. -/
structure Visited (normal : Document) (cs out us : List Cell) (opening : Text) : Prop where
  within : Nest.Within (Cell.items us) (Cell.items (cs.map Cell.labelled))
  standing : ∃ parent, normal.Standing true parent us ∧ normal.Scope parent (Cell.ids us)
  labels : ∀ c ∈ us, c.piece.label = some c.id
  tame : Row.Tame (Cell.items us)
  found : ∀ z ∈ Row.retargetRow opening [] (Cell.items us),
    Cell.Found out (Row.descend normal.newline z)

theorem Visited.found_self {normal : Document} {cs out us : List Cell} {opening : Text}
    (h : Visited normal cs out us opening) {z : Item}
    (hz : z ∈ Row.retargetRow opening [] (Cell.items us)) (hne : z.value.kind ≠ .container) :
    Cell.Found out z :=
  Row.descend_of_kind_ne hne normal.newline ▸ h.found z hz

namespace Retargeted

variable {normal target : Document} {cs out us : List Cell} (h : Retargeted normal cs target out)
include h

theorem exists_token (hus : Nest.Within us out) {c : Cell} (hc : c ∈ us) :
    ∃ parent t, target.Scope parent (Cell.ids us) ∧ target.tokens[c.id]? = some t ∧
      t.Shows c.piece (Cell.ids c.inside) := by
  obtain ⟨parent, hstanding, hscope⟩ :=
    h.outStanding.within (h.outRoot ▸ .root) hus (ne_nil_of_mem hc)
  obtain ⟨t, ht, hshows⟩ := hstanding.row.looks c hc
  exact ⟨parent, t, hscope, ht, hshows⟩

/-- If it was there before, it is at its old place. -/
theorem label_eq (hus : Nest.Within us out) {c : Cell} (hc : c ∈ us) :
    c.id ∈ Cell.places out ∧
      c.piece.label = if c.id < normal.tokens.size then some c.id else none := by
  have hmem : (c.id, c.piece) ∈ Nest.listing out :=
    hus.listing_subset (mem_flatMap.mpr ⟨c, hc, c.value_mem_values⟩)
  exact ⟨mem_map_of_mem hmem, Cell.label_of_traced h.traced h.standing.lt_size hmem⟩

/-- A cell with a label is at the place that the label names. -/
theorem id_eq_of_label (hus : Nest.Within us out) {c : Cell} (hc : c ∈ us) {i : Id}
    (hi : c.piece.label = some i) : c.id = i := by
  obtain ⟨-, hlabel⟩ := h.label_eq hus hc
  rw [hi] at hlabel
  split at hlabel
  · exact (Option.some.inj hlabel).symm
  · cases hlabel

theorem exists_token_of_label {z : Item} (hz : Cell.Found out z) {i : Id}
    (hi : z.value.label = some i) :
    i ∈ Cell.places out ∧ ∃ t children, target.tokens[i]? = some t ∧ t.Shows z.value children := by
  obtain ⟨us, hus, c, hc, rfl⟩ := hz
  rw [Cell.value_item] at hi ⊢
  obtain rfl := h.id_eq_of_label hus hc hi
  obtain ⟨-, t, -, ht, hshows⟩ := h.exists_token hus hc
  exact ⟨(h.label_eq hus hc).1, t, _, ht, hshows⟩

/-- **What the walk along a row puts down can be found in the target,** or the row is in a group
that a message has swallowed. -/
theorem found_or_swallowed (hus : Nest.Within us cs) (hne : us ≠ []) :
    (∃ opening, Visited normal cs out (us.map Cell.labelled) opening) ∨
    ∀ i ∈ Cell.places us, ∃ j, normal.Swallowed target j ∧ normal.Encloses j i := by
  have hwithin : Nest.Within (Cell.items (us.map Cell.labelled))
      (Cell.items (cs.map Cell.labelled)) := (hus.map _).map _
  have hnonempty : Cell.items (us.map Cell.labelled) ≠ [] := by
    simpa [Cell.items] using hne
  rcases Row.visited_or_lost h.tame hwithin hnonempty normal.newline [] with
    ⟨opening, row, hrow, hsub⟩ | ⟨w, hlost, hw⟩
  · rw [← h.items] at hrow
    obtain ⟨vs, rfl, hvs⟩ := Nest.Within.of_map hrow
    obtain ⟨parent, hstanding, hscope⟩ := h.standing.within (h.root ▸ .root) hus hne
    refine .inl ⟨opening, hwithin, ⟨parent, hstanding.labelled, by rwa [Cell.ids_labelled]⟩, ?_,
      hwithin.row h.tame, fun z hz => ⟨vs, hvs, ?_⟩⟩
    · intro c hc
      obtain ⟨e, -, rfl⟩ := mem_map.mp hc
      rw [Cell.piece_labelled, Cell.id_labelled]
    · rw [Row.retarget_eq] at hsub
      exact mem_map.mp (hsub (mem_map_of_mem hz))
  · rw [← h.items] at hlost
    obtain ⟨j, -, hswallowed, henclosed⟩ :=
      Document.exists_swallowed h.standing h.root h.outStanding h.traced hlost
    refine .inr fun i hi => ⟨j, hswallowed, henclosed i ?_⟩
    -- The labels of the row are its places, and they are inside the group that is lost.
    rw [← Cell.labels_items_labelled] at hi
    obtain ⟨p, hp, hlabel⟩ := mem_filterMap.mp hi
    exact mem_filterMap.mpr ⟨p, hw.listing_subset hp, hlabel⟩

/-- A group in a row that the walk comes to is put down with what is inside it, or is swallowed. -/
theorem becomes_or_swallowed {opening : Text} (hvisited : Visited normal cs out us opening)
    {c : Cell}
    (hc : c ∈ us) (hkind : c.piece.kind = .container) :
    (∃ y ∈ Row.retargetRow opening [] (Cell.items us), Row.Becomes Eq c.item y) ∨
      normal.Swallowed target c.id := by
  have hcarried := Row.carried_retargetRow hvisited.tame opening []
  refine (hcarried.becomes_or_lost (mem_map_of_mem hc) (by rwa [Cell.value_item])
    normal.newline).imp_right fun hlost => ?_
  have hout : Row.Lost (Cell.items (cs.map Cell.labelled)) (Cell.items out) c.item := by
    refine hlost.imp (hlost.message.of_within hvisited.within) fun p hp => ?_
    obtain ⟨z', hz', hpz⟩ := mem_flatMap.mp hp
    obtain ⟨z, hz, rfl⟩ := mem_map.mp hz'
    obtain ⟨vs, hvs, e, he, heq⟩ := hvisited.found z hz
    have hitems : Nest.Within (Cell.items vs) (Cell.items out) := hvs.map _
    refine hitems.listing_subset (mem_flatMap.mpr ⟨e.item, mem_map_of_mem he, ?_⟩)
    rwa [heq]
  obtain ⟨j, hlabel, hswallowed, -⟩ :=
    Document.exists_swallowed h.standing h.root h.outStanding h.traced hout
  rw [Cell.value_item, hvisited.labels c hc] at hlabel
  rwa [Option.some.inj hlabel]

end Retargeted

end Macro10
