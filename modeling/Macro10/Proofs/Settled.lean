import Macro10.Proofs.Document.Labels
import Macro10.Proofs.Retarget.Lockstep
import Macro10.Proofs.Row.NormalLines
import Macro10.Proofs.Source.Spelling

/-!
# Documents and their normal forms

The tokens of a normal form stand at the places where they stood in the document that was read, and
what has become of each of them is what the normal form of rows says (`Normalized.settles`).
-/

namespace Macro10

open List

variable {d normal : Document} {f : Forest} {cs : List Cell}

section

variable (h : Normalized d f normal cs)
include h

theorem Normalized.settles_pieces :
    List.Forall₂ Row.Settles ((Nest.listing (f.cells 0)).map Prod.snd)
      ((Nest.listing cs).map Prod.snd) := by
  have hpieces := Row.settles_listing_normal f.items
  rwa [← h.items, ← f.items_cells 0, Cell.listing_items, Cell.listing_items] at hpieces

theorem Normalized.places_cells : Cell.places (f.cells 0) = Cell.places cs := by
  have hlength := h.settles_pieces.length_eq
  have hsize := congrArg List.length h.places
  simp only [length_map, Cell.places, length_range] at hlength hsize
  have hfirst := congrArg List.length (f.places_cells 0)
  simp only [Cell.places, length_map, length_range'] at hfirst
  rw [h.places, Forest.places_cells, range_eq_range', ← hsize, ← hlength, hfirst]

/-- **The tokens of a normal form, place by place.** -/
theorem Normalized.settles :
    List.Forall₂ (fun u v => u.1 = v.1 ∧ Row.Settles u.2 v.2) (Nest.listing (f.cells 0))
      (Nest.listing cs) := by
  have hpieces := h.settles_pieces
  have hplaces := h.places_cells
  rw [forall₂_map_left_iff, forall₂_map_right_iff] at hpieces
  clear h
  -- Two lists of cells with the same places, and with pieces that match.
  rw [Cell.places, Cell.places] at hplaces
  generalize Nest.listing (f.cells 0) = us at hplaces hpieces ⊢
  generalize Nest.listing cs = vs at hplaces hpieces ⊢
  induction hpieces with
  | nil => exact .nil
  | cons hp _ ih =>
    obtain ⟨hplace, hrest⟩ := List.cons.inj hplaces
    exact .cons ⟨hplace, hp⟩ (ih hrest)

theorem Normalized.exists_read {v : Id × Piece} (hv : v ∈ Nest.listing cs) :
    ∃ p, (v.1, p) ∈ Nest.listing (f.cells 0) ∧ Row.Settles p v.2 := by
  obtain ⟨u, hu, hplace, hsettles⟩ := Row.exists_mem_of_forall₂ h.settles hv
  exact ⟨u.2, hplace ▸ hu, hsettles⟩

theorem Normalized.exists_settled {q : Piece}
    (hq : q ∈ Nest.listing (Cell.items (cs.map Cell.labelled))) :
    ∃ l p, q.label = some l ∧ (l, p) ∈ Nest.listing (f.cells 0) ∧ p ∈ Nest.listing f.items ∧
      Row.Settles p q := by
  rw [Cell.listing_items, Cell.listing_labelled, List.map_map] at hq
  obtain ⟨v, hv, rfl⟩ := mem_map.mp hq
  obtain ⟨p, hp, hsettles⟩ := h.exists_read hv
  refine ⟨v.1, p, rfl, hp, ?_, hsettles.kind, hsettles.text, hsettles.brackets, hsettles.opening,
    hsettles.closing, hsettles.role⟩
  rw [← f.items_cells 0, Cell.listing_items]
  exact mem_map_of_mem hp

end

/-- A document that was read has a normal form, which holds the same forest. -/
theorem Record.exists_normalized {source : Text} {radix : Int} {w : List Visit}
    {positions : List Position} (h : Record source radix d f w positions)
    (hread : read source radix = .ok d) : ∃ normal cs, Normalized d f normal cs := by
  have hnewline : ∃ t : Terminator, d.newline = t.text := by
    obtain ⟨r, -, -, rfl⟩ := exists_forest_of_read hread
    exact Line.exists_newline_eq _
  have hnormal := h.plain.exists_normalized hnewline d.diagnostics
  rwa [← h.document] at hnormal

/-- The cells `cs` of the document `normal` have been retargeted to the cells `out` of `target`. -/
structure Retargeted (normal : Document) (cs : List Cell) (target : Document) (out : List Cell) :
    Prop where
  standing : normal.Standing true none cs
  root : normal.root = Cell.ids cs
  tame : Nest.Throughout Row.Tame (Cell.items (cs.map Cell.labelled))
  evolves : normal.Evolves true target
  outStanding : target.Standing false none out
  outRoot : target.root = Cell.ids out
  newline : target.newline = normal.newline
  traced : Cell.Traced normal.tokens.size (cs.map Cell.labelled) out
  houses : normal.Houses target out
  items : Cell.items out = Row.retarget normal.newline [] (Cell.items (cs.map Cell.labelled))

/-- **A normal form is retargeted row by row.** The cells of the target come from the labelled cells
of the normal form, and hold all tokens that were made. -/
theorem Normalized.exists_retargeted (h : Normalized d f normal cs) :
    ∃ target out, normal.edit Retarget.retarget = .ok target ∧ Retargeted normal cs target out := by
  have hroot : normal.root = Cell.ids (cs.map Cell.labelled) := by rw [Cell.ids_labelled, h.root]
  obtain ⟨target, htarget, out, hout, htargetRoot, hnewline, hitems, htraced, hhouses⟩ :=
    Document.edit_eq_ok (Retarget.yields_retarget h.standing.labelled.walking hroot)
  have hrows := Row.throughout_normal f.throughout_unmarked
  rw [← h.items] at hrows
  exact ⟨target, out, htarget, h.standing, h.root, h.standing.throughout_tame hrows,
    Retarget.evolves_retarget htarget, hout, htargetRoot, hnewline, htraced, hhouses, hitems⟩

theorem Normalized.converted_eq (h : Normalized d f normal cs) :
    d.converted = normal.edit Retarget.retarget := by
  rw [Document.converted, h.edit]
  rfl

end Macro10
