import Macro10.Conversion
import Macro10.Proofs.Document.Normal
import Macro10.Proofs.Document.OfForest
import Macro10.Proofs.Retarget.Group

/-!
# Converted documents

The document of a forest can always be converted, and its text is that of the converted row
(`converted_ofForest`).
-/

namespace Macro10

/-- The text of a forest for the target. -/
def Forest.converted (newline : Text) (f : Forest) : Text :=
  Item.textOf (Row.retarget newline [] (Row.normal f.items))

namespace Document

open Edit

variable {d : Document}

theorem edit_eq_ok {step : Edit Unit} {Q : Unit → Document → Prop} (h : Yields step d Q) :
    ∃ d', d.edit step = .ok d' ∧ Q () d' := by
  obtain ⟨a, d', hrun, hQ⟩ := h
  exact ⟨d', by rw [edit, hrun], hQ⟩

theorem Standing.walking {cs : List Cell} (h : Standing true d none cs) :
    Walking d ⟨none, [], []⟩ cs :=
  ⟨h.row, h.nested, h.distinct, fun _ hi => (nomatch hi), fun _ hi => (nomatch hi), fun _ => rfl⟩

theorem Standing.render_eq {marked : Bool} {parent : Option Id} {cs : List Cell}
    (h : Standing marked d parent cs) (hroot : d.root = Cell.ids cs) :
    d.render = .ok (Item.textOf (Cell.items cs)) := by
  rw [render, hroot]
  refine renderList_eq h.row.looks h.nested fun c hc => ?_
  have hlt := Cell.length_places_inside_lt hc
  have hle := h.length_places_le
  omega

/-- **Every document that comes from a forest can be converted.** -/
theorem converted_ofForest {f : Forest} (hplain : f.Plain) (newline : Text)
    (diagnostics : List Diagnostic) :
    ∃ d' out, (ofForest f newline diagnostics).converted = .ok d' ∧ Standing false d' none out ∧
      d'.root = Cell.ids out ∧ d'.newline = newline ∧
      Cell.items out = Row.retarget newline [] (Row.normal f.items) := by
  have hstanding := standing_ofForest hplain newline diagnostics
  obtain ⟨d₁, hd₁, cs, hstanding₁, hroot₁, hnewline₁, hitems₁, -⟩ :=
    edit_eq_ok (yields_normalize hstanding (f.ids_cells 0).symm)
  obtain ⟨d₂, hd₂, out, hstanding₂, hroot₂, hnewline₂, hitems₂, -⟩ :=
    edit_eq_ok (Retarget.yields_retarget hstanding₁.walking hroot₁)
  refine ⟨d₂, out, ?_, hstanding₂, hroot₂, hnewline₂.trans hnewline₁, ?_⟩
  · rw [converted, hd₁]
    exact hd₂
  · rw [hitems₂, hitems₁, hnewline₁, f.items_cells]
    rfl

end Document

end Macro10
