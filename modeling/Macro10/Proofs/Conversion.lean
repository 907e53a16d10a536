import Macro10.Proofs.Document.Converted
import Macro10.Proofs.Source.Lines

/-!
# Conversion of a source

Conversion can fail in reading only. If a source is read, its text for the target is that of the
forest that was read, below the lines that include the named files (`convert_eq_ok`).
-/

namespace Macro10

open Line (newline split)

variable {radix : Int} {d : Document}

variable {source : Text}

namespace Reader

/-- What was read, after the groups that are still open have ended. -/
def forest (r : Reader) : Forest := (r.endGroups r.frames).scope.reverse

theorem plain_forest {radix : Option Int} {r : Reader}
    (h : Reads radix source r) : r.forest.Plain := by
  have hsteps := steps_takeAll (readLines_split_eq_ok.mp h)
  obtain ⟨hscope, hframes⟩ := hsteps.plain ⟨trivial, fun _ h => (nomatch h)⟩
  exact (plain_endGroups hscope hframes).reverse

theorem radix_endGroups (r : Reader) (frames : List Frame) :
    (r.endGroups frames).radix = r.radix := by
  induction frames generalizing r with
  | nil => rfl
  | cons frame frames ih => exact ih _

/-- The answer after all lines of a source. -/
def finish (r : Reader) (newline : Text) : Reading :=
  { document := .ofForest r.forest newline (r.endGroups r.frames).diagnostics,
    radix := (r.endGroups r.frames).radix, changes := (r.endGroups r.frames).changes }

end Reader

theorem Reading.ofSource_eq_ok {radix : Option Int} {reading : Reading} :
    Reading.ofSource source radix = .ok reading ↔
      ∃ r, Reader.Reads radix source r ∧ r.finish (newline (split source)) = reading := by
  rw [ofSource, bind_eq_ok]
  constructor
  · rintro ⟨r, hr, h⟩
    exact ⟨r, hr, Except.ok.inj h⟩
  · rintro ⟨r, hr, rfl⟩
    exact ⟨r, hr, rfl⟩

theorem read_eq_ok :
    read source radix = .ok d ↔
      ∃ reading, Reading.ofSource source (some radix) = .ok reading ∧ reading.document = d := by
  rw [read]
  split <;> next heq => simp [heq]

theorem exists_forest_of_read (h : read source radix = .ok d) :
    ∃ r, Reader.Reads (some radix) source r ∧
      r.forest.Plain ∧ d = .ofForest r.forest (newline (split source))
        (r.endGroups r.frames).diagnostics := by
  obtain ⟨reading, hreading, rfl⟩ := read_eq_ok.mp h
  obtain ⟨r, hr, rfl⟩ := Reading.ofSource_eq_ok.mp hreading
  exact ⟨r, hr, Reader.plain_forest hr, rfl⟩

/-! ## Stages -/

/-- The document `d` that was read holds the forest `f`, and `normal` is its normal form, which
holds the cells `cs`. All tokens are among them. -/
structure Normalized (d : Document) (f : Forest) (normal : Document) (cs : List Cell) : Prop where
  read : d.Standing true none (f.cells 0)
  readRoot : d.root = Cell.ids (f.cells 0)
  edit : d.edit Edit.normalize = .ok normal
  standing : normal.Standing true none cs
  root : normal.root = Cell.ids cs
  newline : ∃ t : Terminator, normal.newline = t.text
  newline_eq : normal.newline = d.newline
  items : Cell.items cs = Row.normal f.items
  places : Cell.places cs = List.range normal.tokens.size

/-- Every document that holds a forest has a normal form. -/
theorem Forest.Plain.exists_normalized {f : Forest} (h : f.Plain) {newline : Text}
    (hnewline : ∃ t : Terminator, newline = t.text) (diagnostics : List Diagnostic) :
    ∃ normal cs, Normalized (.ofForest f newline diagnostics) f normal cs := by
  have hstanding := Document.standing_ofForest h newline diagnostics
  have hroot := (f.ids_cells 0).symm
  obtain ⟨normal, hnormal, cs, hcs, hnormalRoot, hsame, hitems, hplaces, hsize⟩ :=
    Document.edit_eq_ok (Edit.yields_normalize hstanding hroot)
  refine ⟨normal, cs, hstanding, hroot, hnormal, hcs, hnormalRoot, ?_, hsame, ?_, ?_⟩
  · rw [hsame]
    exact hnewline
  · rw [hitems, Forest.items_cells]
  · rw [hplaces, hsize, Forest.places_cells, Document.size_tokens_ofForest, List.range_eq_range']

theorem exists_normalized (h : read source radix = .ok d) :
    ∃ f normal cs, Normalized d f normal cs := by
  obtain ⟨r, -, hplain, rfl⟩ := exists_forest_of_read h
  exact ⟨r.forest, hplain.exists_normalized (Line.exists_newline_eq _) _⟩

/-! ## Texts -/

namespace Document

theorem renderWithIncludes_eq {d : Document} {marked : Bool} {cs : List Cell}
    (h : Standing marked d none cs) (hroot : d.root = Cell.ids cs) (names : List Text) :
    d.renderWithIncludes names =
      .ok (names.flatMap (fun name => includeDirective name ++ d.newline) ++
        Item.textOf (Cell.items cs)) := by
  rw [renderWithIncludes, h.render_eq hroot]
  rfl

end Document

/-- The text of a source that was read. -/
theorem convert_of_readLines {r : Reader} (h : Reader.Reads (some radix) source r)
    (includes : List Text) :
    convert source includes radix =
      .ok (includes.flatMap (fun name => Document.includeDirective name ++
          newline (split source)) ++
        r.forest.converted (newline (split source))) := by
  obtain ⟨d, cs, hconverted, hstanding, hroot, hnewline, hitems⟩ :=
    Document.converted_ofForest (Reader.plain_forest h)
      (newline (split source)) (r.endGroups r.frames).diagnostics
  have hread : read source radix = .ok (r.finish (newline (split source))).document :=
    read_eq_ok.mpr ⟨_, Reading.ofSource_eq_ok.mpr ⟨r, h, rfl⟩, rfl⟩
  have hdocument : convertDocument source radix = .ok d := by
    rw [convertDocument, hread]
    exact hconverted
  rw [convert, hdocument]
  exact (Document.renderWithIncludes_eq hstanding hroot includes).trans (by
    rw [hnewline, hitems]
    rfl)

theorem exists_readLines_of_convert {includes : List Text} {out : Text}
    (h : convert source includes radix = .ok out) :
    ∃ r, Reader.Reads (some radix) source r := by
  obtain ⟨d, hdocument, -⟩ := bind_eq_ok.mp h
  obtain ⟨d', hread, -⟩ := bind_eq_ok.mp hdocument
  obtain ⟨reading, hreading, -⟩ := read_eq_ok.mp hread
  obtain ⟨r, hr, -⟩ := Reading.ofSource_eq_ok.mp hreading
  exact ⟨r, hr⟩

end Macro10
