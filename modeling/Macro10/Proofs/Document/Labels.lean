import Macro10.Proofs.Document.Cursor
import Macro10.Proofs.Row.Conveyed

/-!
# Cells labelled with their places

To follow tokens through a pass, each piece gets the place of its cell as its label, which no pass
looks at (`Standing.labelled`). Afterwards the labels tell which cells were there before: those that
the pass has made have none (`labels_items_of_traced`).
-/

namespace Macro10

open List
open Nest (Throughout listing)
open Cell (items)

variable {cs : List Cell} {marked : Bool} {d : Document} {parent : Option Id}

namespace Cell

/-- The cell labelled with its place, and all that is inside labelled in the same way. -/
def labelled (c : Cell) : Cell := c.map fun v => (v.1, { v.2 with label := some v.1 })

/-- Only groups have cells inside. -/
def Leafy (cs : List Cell) : Prop := ∀ c ∈ cs, c.piece.kind ≠ .container → c.inside = []

section

variable (c : Cell) (cs : List Cell)

@[simp] theorem id_labelled : c.labelled.id = c.id := by simp [labelled, id]

@[simp]
theorem piece_labelled : c.labelled.piece = { c.piece with label := some c.id } := by
  simp [labelled, id, piece]

@[simp]
theorem inside_labelled : c.labelled.inside = c.inside.map labelled := by
  simp only [labelled, Nest.inside_map]
  rfl

@[simp] theorem ids_labelled : ids (cs.map labelled) = ids cs := by simp [ids]

theorem listing_labelled : listing (cs.map labelled) =
    (listing cs).map fun v => (v.1, { v.2 with label := some v.1 }) :=
  Nest.listing_map _ cs

@[simp]
theorem places_labelled : places (cs.map labelled) = places cs := by
  rw [places, listing_labelled, List.map_map]
  rfl

theorem tags_labelled : tags (cs.map labelled) = (places cs).map fun i => (i, some i) := by
  rw [tags, listing_labelled, places, List.map_map, List.map_map]
  rfl

theorem listing_items : listing (items cs) = (listing cs).map Prod.snd :=
  Nest.listing_map _ cs

theorem labels_items_labelled : Row.labels (items (cs.map labelled)) = places cs := by
  rw [Row.labels, listing_items, listing_labelled, List.map_map, filterMap_map, places,
    ← filterMap_eq_map]
  rfl

end

/-! ## Cells after a pass -/

section Traced

variable {n : Nat} {out : List Cell} (h : Traced n (cs.map labelled) out)
  (hcs : ∀ i ∈ places cs, i < n)
include h hcs

/-- The cells that were there before have their places as labels, and the others have none. -/
theorem label_of_traced {v : Id × Piece} (hv : v ∈ listing out) :
    v.2.label = if v.1 < n then some v.1 else none := by
  rcases h (v.1, v.2.label) (mem_map_of_mem hv) with hold | ⟨hnew, hnone⟩
  · rw [tags_labelled] at hold
    obtain ⟨i, hi, heq⟩ := mem_map.mp hold
    obtain ⟨hfst, hlabel⟩ := Prod.mk.inj heq
    rw [← hlabel, ← hfst, if_pos (hcs i hi)]
  · have hge : ¬v.1 < n := not_lt.mpr hnew
    rw [if_neg hge]
    exact hnone

theorem filterMap_label_of_traced {vs : List (Id × Piece)} (hvs : vs ⊆ listing out) :
    vs.filterMap (·.2.label) = (vs.map Prod.fst).filter (· < n) := by
  induction vs with
  | nil => rfl
  | cons v vs ih =>
    obtain ⟨hv, hvs⟩ := cons_subset.mp hvs
    rw [filterMap_cons, map_cons, filter_cons, label_of_traced h hcs hv, ih hvs]
    by_cases hlt : v.1 < n <;> simp [hlt]

theorem labels_items_of_traced : Row.labels (items out) = (places out).filter (· < n) := by
  rw [Row.labels, listing_items, places, filterMap_map]
  exact filterMap_label_of_traced h hcs (List.Subset.refl _)

/-- The labels of what is not white space, if `solid` tells so of places. -/
theorem solidLabels_items_of_traced {solid : Id → Bool}
    (hsolid : ∀ v ∈ listing out, solid v.1 = !v.2.isSpacing) :
    Row.solidLabels (items out) = (places out).filter fun i => i < n && solid i := by
  have hfilter : (listing out).filter (fun v => !v.2.isSpacing) =
      (listing out).filter fun v => solid v.1 :=
    filter_congr fun v hv => (hsolid v hv).symm
  rw [Row.solidLabels, listing_items, filter_map, filterMap_map]
  refine (filterMap_label_of_traced h hcs filter_sublist.subset).trans ?_
  show (((listing out).filter fun v => !v.2.isSpacing).map Prod.fst).filter _ = _
  rw [hfilter, places, ← filter_filter]
  exact congrArg (List.filter _) filter_map.symm

end Traced

end Cell

namespace Document

variable {before after : List Id} {c : Cell}

theorem Holds.labelled
    (h : d.Holds marked parent before c after) : d.Holds marked parent before c.labelled after := by
  obtain ⟨t, ht, hfits⟩ := h
  have hlooks := hfits.looks
  refine ⟨t, by rwa [Cell.id_labelled], ?_⟩
  rw [Cell.piece_labelled, Cell.inside_labelled, Cell.ids_labelled]
  exact hfits.of_shows ⟨hlooks.kind, hlooks.text, hlooks.opening, hlooks.closing, hlooks.children⟩
    rfl rfl

theorem Placed.labelled (h : d.Placed marked parent before cs after) :
    d.Placed marked parent before (cs.map Cell.labelled) after := by
  induction cs generalizing before with
  | nil => trivial
  | cons c cs ih =>
    obtain ⟨hc, hcs⟩ := h
    rw [map_cons]
    refine ⟨?_, ?_⟩
    · rw [Cell.ids_labelled]
      exact hc.labelled
    · rw [Cell.id_labelled]
      exact ih hcs

theorem Nested.labelled (h : d.Nested marked c) : d.Nested marked c.labelled := by
  induction h with
  | intro leaf row all ih =>
    refine ⟨fun hkind => ?_, ?_, fun x hx => ?_⟩
    · rw [Cell.piece_labelled] at hkind
      rw [Cell.inside_labelled, leaf hkind]
      rfl
    · rw [Cell.id_labelled, Cell.inside_labelled]
      exact row.labelled
    · rw [Cell.inside_labelled] at hx
      obtain ⟨y, hy, rfl⟩ := mem_map.mp hx
      exact ih y hy

theorem Standing.labelled (h : Standing marked d parent cs) :
    Standing marked d parent (cs.map Cell.labelled) where
  row := h.row.labelled
  nested := by
    intro c hc
    obtain ⟨x, hx, rfl⟩ := mem_map.mp hc
    exact (h.nested x hx).labelled
  distinct := by
    rw [Cell.places_labelled]
    exact h.distinct

/-- What holds of every row that stands in a document holds of a row and of all rows inside it. -/
theorem Standing.throughout {P : List Cell → Prop}
    (hP : ∀ {parent us}, Standing marked d parent us → P us)
    (h : Standing marked d parent cs) : Throughout P cs := by
  induction cs using Nest.inside_induction generalizing parent with
  | step cs ih =>
    refine ⟨hP h, fun c hc => ?_⟩
    obtain ⟨us, vs, rfl⟩ := append_of_mem hc
    exact ih c hc h.inside

theorem Standing.throughout_leafy (h : Standing marked d parent cs) :
    Throughout Cell.Leafy cs :=
  h.throughout fun hus c hc => (hus.nested c hc).leaf

end Document

/-! ## Rows of labelled cells -/

/-- The label of an item is none of its marks, and not a part of what it shows. -/
theorem Cell.forall₂_labelled (us : List Cell) :
    List.Forall₂ (fun x y => Row.marks y = Row.marks x ∧ y.value.head? = x.value.head? ∧
      y.value.kind = x.value.kind) (items us) (items (us.map Cell.labelled)) := by
  rw [items, items, List.map_map]
  refine forall₂_map_left_iff.mpr (forall₂_map_right_iff.mpr ?_)
  refine forall₂_same.mpr fun c _ => ?_
  simp only [Function.comp_apply, Row.marks, Cell.value_item, Cell.piece_labelled, true_and,
    and_true]
  rfl

theorem Cell.Leafy.tame {us : List Cell} (h : Cell.Leafy us) (hline : Row.InLine (items us))
    (hclear : Row.Clear (items us)) : Row.Tame (items (us.map Cell.labelled)) where
  leafy := by
    intro x hx hkind
    rw [items, List.map_map] at hx
    obtain ⟨c, hc, rfl⟩ := mem_map.mp hx
    have hinside : c.inside = [] := h c hc (by simpa using hkind)
    simp [hinside]
  inLine := by
    refine hline.congr ?_
    rw [items, items, List.map_map, List.map_map, List.map_map]
    refine map_congr_left fun c _ => ?_
    simp only [Function.comp_apply, Row.frame, Row.marks, Cell.value_item, Cell.piece_labelled]
    rfl
  clear := by
    exact hclear.congr (Cell.forall₂_labelled us) (fun hS => hS.1) (fun hS hhead => hS.2.1 ▸ hhead)
      fun hS hkind => hS.2.2 ▸ hkind

/-- The walk can take labelled cells if it can take the cells. -/
theorem Document.Standing.throughout_tame (h : Standing marked d parent cs)
    (hrows : Throughout (fun xs => Row.InLine xs ∧ Row.Clear xs) (items cs)) :
    Throughout Row.Tame (items (cs.map Cell.labelled)) := by
  have hcells := h.throughout_leafy.and hrows.of_map
  have hlabelled : Throughout (fun us => Row.Tame (items (us.map Cell.labelled))) cs :=
    hcells.mono fun us hus => hus.1.tame hus.2.1 hus.2.2
  exact hlabelled.map.map

end Macro10
