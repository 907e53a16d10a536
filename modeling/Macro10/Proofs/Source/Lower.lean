import Macro10.Proofs.Conversion

/-!
# Reading further down

Where in a source a line stands matters for positions only, as long as the groups before it are
closed. So a reader that has taken other lines before (`Reader.lower`) goes on like one that has
taken none, some lines further down (`Reader.readLines_lower`).
-/

namespace Macro10

/-! ## Positions further down -/

/-- The position `k` lines further down. -/
def Position.lower (k : Nat) (p : Position) : Position := { p with line := p.line + k }

/-- The diagnostic with its position `k` lines further down. -/
def Diagnostic.lower (k : Nat) (d : Diagnostic) : Diagnostic :=
  { d with position := d.position.lower k }

/-- The directive `k` lines further down. -/
def RadixChange.lower (k : Nat) (change : RadixChange) : RadixChange :=
  { change with line := change.line + k }

/-- The same cause, with the directives before it `k` lines further down. -/
def Interruption.lower (k : Nat) (interruption : Interruption) : Interruption :=
  { interruption with changes := interruption.changes.map (·.lower k) }

namespace Forest

/-- The forest with all positions `k` lines further down. -/
def lower (k : Nat) : Forest → Forest
  | nil => nil
  | leaf kind text position rest => leaf kind text (position.lower k) (rest.lower k)
  | group position closed children rest =>
    group (position.lower k) closed (children.lower k) (rest.lower k)

/-- The trees of two forests. -/
def append : Forest → Forest → Forest
  | nil, g => g
  | leaf kind text position rest, g => leaf kind text position (rest.append g)
  | group position closed children rest, g => group position closed children (rest.append g)

/-- Positions do not show in the items. -/
@[simp]
theorem items_lower (k : Nat) (f : Forest) : (f.lower k).items = f.items := by
  induction f with
  | nil => rfl
  | leaf kind text position rest ih => rw [lower, items, items, ih]
  | group position closed children rest ihc ih => rw [lower, items, items, ihc, ih]

@[simp]
theorem items_append (f g : Forest) : (f.append g).items = f.items ++ g.items := by
  induction f with
  | nil => rfl
  | leaf kind text position rest ih => rw [append, items, items, ih, List.cons_append]
  | group position closed children rest _ ih => rw [append, items, items, ih, List.cons_append]

theorem lower_reverseOnto (k : Nat) (f done : Forest) :
    (f.reverseOnto done).lower k = (f.lower k).reverseOnto (done.lower k) := by
  induction f generalizing done with
  | nil => rfl
  | leaf kind text position rest ih => exact ih _
  | group position closed children rest _ ih => exact ih _

@[simp]
theorem lower_reverse (k : Nat) (f : Forest) : f.reverse.lower k = (f.lower k).reverse :=
  lower_reverseOnto k f nil

theorem reverseOnto_append (f g done : Forest) :
    (f.append g).reverseOnto done = g.reverseOnto (f.reverseOnto done) := by
  induction f generalizing done with
  | nil => rfl
  | leaf kind text position rest ih => exact ih _
  | group position closed children rest _ ih => exact ih _

end Forest

/-! ## Readers further down -/

namespace Reader

/-- A row of pieces, last one first, `k` lines further down. The outermost row is on top of the
earlier pieces. -/
def lowerRow (k : Nat) (base : Forest) (outer : List Frame) (row : Forest) : Forest :=
  match outer with
  | [] => (row.lower k).append base
  | _ :: _ => row.lower k

/-- The open groups `k` lines further down. -/
def lowerFrames (k : Nat) (base : Forest) : List Frame → List Frame
  | [] => []
  | frame :: frames =>
    ⟨frame.position.lower k, lowerRow k base frames frame.before⟩ :: lowerFrames k base frames

/-- The reader `k` lines further down, on top of earlier pieces. -/
def lower (k : Nat) (base : Forest) (r : Reader) : Reader where
  radix := r.radix
  scope := lowerRow k base r.frames r.scope
  frames := lowerFrames k base r.frames
  diagnostics := r.diagnostics.map (·.lower k)
  changes := r.changes.map (·.lower k)

variable (k : Nat) (base : Forest)

section

variable (r : Reader)
include r

@[simp]
theorem lower_put (kind : Kind) (text : Text) (position : Position) :
    (r.put kind text position).lower k base =
      (r.lower k base).put kind text (position.lower k) := by
  simp only [lower, put]
  cases r.frames <;> rfl

@[simp]
theorem lower_report (problem : Problem) (position : Position) (length : Int)
    (severity : Severity) :
    (r.report problem position length severity).lower k base =
      (r.lower k base).report problem (position.lower k) length severity := by
  simp only [lower, report, List.map_append]
  rfl

@[simp]
theorem lower_closeGroup (position : Position) :
    (r.closeGroup position).lower k base = (r.lower k base).closeGroup (position.lower k) := by
  unfold closeGroup
  cases hframes : r.frames with
  | nil => simp [lower, hframes, lowerFrames, report, Diagnostic.lower]
  | cons frame frames =>
    simp only [lower, hframes, lowerFrames]
    congr 1
    cases frames <;> simp [lowerRow, Forest.lower, Forest.append]

theorem endGroups_with_frames (frames ended : List Frame) :
    ({ r with frames } : Reader).endGroups ended = r.endGroups ended := by
  induction ended generalizing r with
  | nil => rfl
  | cons frame ended ih =>
    rw [endGroups, endGroups]
    exact ih { r.report .neverClosed frame.position 1 .warning with
      scope := .group frame.position false r.scope.reverse frame.before }

theorem endGroups_lower (frames : List Frame) :
    (({ r with frames } : Reader).lower k base).endGroups (lowerFrames k base frames) =
      (r.endGroups frames).lower k base := by
  induction frames generalizing r with
  | nil => rfl
  | cons frame frames ih =>
    rw [endGroups, ← ih, lowerFrames, endGroups,
      ← endGroups_with_frames _ (lowerFrames k base frames)]
    congr 1
    cases frames <;>
      simp [lower, report, lowerRow, lowerFrames, Forest.lower, Forest.append, Diagnostic.lower]

/-- What is read moves down, after what was there. -/
theorem forest_lower : (r.lower k base).forest = base.reverseOnto (r.forest.lower k) := by
  have hframes : ∀ (r : Reader) (frames : List Frame), (r.endGroups frames).frames = [] := by
    intro r frames
    induction frames generalizing r with
    | nil => rfl
    | cons frame frames ih => exact ih _
  have hends := endGroups_lower k base r r.frames
  rw [forest, forest, show (r.lower k base).frames = lowerFrames k base r.frames from rfl, hends,
    lower, hframes, lowerRow, Forest.reverse, Forest.reverseOnto_append, Forest.lower_reverse]
  rfl

/-- What is reported moves down too. -/
theorem diagnostics_lower :
    ((r.lower k base).endGroups (r.lower k base).frames).diagnostics =
      (r.endGroups r.frames).diagnostics.map (·.lower k) :=
  congrArg diagnostics (endGroups_lower k base r r.frames)

end

/-! ## Numerals -/

variable {base}

/-- A mark is seen further down too. -/
theorem afterMark_lower (hbase : base.items.head?.any isMark = false) (r : Reader) :
    (r.lower k base).afterMark = r.afterMark := by
  rw [afterMark_eq, afterMark_eq, lower]
  cases r.frames with
  | cons frame frames => simp [lowerRow]
  | nil => cases hitems : r.scope.items <;> simp [lowerRow, hitems, hbase]

theorem lower_blankLast {r : Reader} (h : r.afterMark = true) :
    r.blankLast.lower k base = (r.lower k base).blankLast := by
  obtain ⟨position, rest, hscope⟩ := exists_of_afterMark h
  simp only [blankLast, hscope, lower]
  cases r.frames <;> rfl

/-! ## Stretches -/

/-- Reading further down goes the same way. -/
theorem parallel_lower (base : Forest) :
    Parallel (fun p p' => p' = p.lower k) fun r s => s = r.lower k base where
  lineStart hp := by rw [hp]; rfl
  put := by
    rintro r _ p _ rfl rfl kind - text
    exact (lower_put ..).symm
  report := by
    rintro r _ p _ rfl rfl problem length severity
    exact (lower_report ..).symm
  blankLast := by
    rintro r _ rfl hr -
    exact (lower_blankLast k hr).symm
  openGroup := by
    rintro r _ p _ rfl rfl
    rfl
  noteRadix := by
    rintro r _ line line' rfl hp radix
    obtain rfl : line' = line + k := Int.ofNat.inj (congrArg Position.line hp)
    simp [lower, RadixChange.lower]

/-- A stretch is read further down as above. -/
theorem take_lower (hbase : base.items.head?.any isMark = false) (r : Reader) (line column : Nat)
    (s : Stretch) :
    (r.lower k base).take (line + k) column s = (r.take line column s).map (lower k base) :=
  ((parallel_lower k base).take rfl rfl
    (fun l _ => verdictOn_congr (by rw [lower]) (afterMark_lower k hbase r) l)
    fun _ => (lower_closeGroup k base r ⟨line, column⟩).symm).eq_map

theorem takeAll_lower (hbase : base.items.head?.any isMark = false) (r : Reader)
    (line column : Nat) (stretches : List Stretch) :
    (r.lower k base).takeAll (line + k) column stretches =
      (r.takeAll line column stretches).map (lower k base) := by
  induction stretches generalizing r line column with
  | nil => rfl
  | cons s stretches ih =>
    have hline : s.lineAfter (line + k) = s.lineAfter line + k := by
      cases s with
      | terminator => exact Nat.add_right_comm ..
      | lexeme | remark | setRadix | opening | closing | unended => rfl
    rw [takeAll, takeAll, take_lower k hbase, hline]
    cases r.take line column s with
    | error cause => rfl
    | ok r => exact ih r _ _

/-! ## Lines -/

section

variable (hbase : base.items.head?.any isMark = false) (r : Reader) (number : Nat)
include hbase r number

theorem lower_putBlockLine (line : Line) :
    (r.putBlockLine number line).lower k base =
      (r.lower k base).putBlockLine (number + k) line := by
  have htake := takeAll_lower k hbase r number 1 line.blockStretches
  rw [takeAll_blockStretches, takeAll_blockStretches] at htake
  exact (Except.ok.inj htake).symm

/-- A line is read further down as above. -/
theorem readSegments_lower (line : Line) (later : List Line) :
    (r.lower k base).readSegments (number + k) line later (Segment.segments line.content) =
      (r.readSegments number line later (Segment.segments line.content)).map
        (Prod.map (lower k base) id) := by
  have hcover := Segment.cover_segments line.content
  rw [readSegments_eq _ _ line later hcover, readSegments_eq _ _ line later hcover,
    takeAll_lower k hbase]
  cases r.takeAll number 1 (line.stretches later (Segment.segments line.content)).1 <;> rfl

/-- **Reading further down:** the same pieces and reports, with positions further down. -/
theorem readLines_lower (marker : Option Text) (lines : List Line) :
    (r.lower k base).readLines (number + k) marker lines =
      ((r.readLines number marker lines).mapError (Interruption.lower k)).map (lower k base) := by
  induction lines generalizing r number marker with
  | nil => rfl
  | cons line later ih =>
    unfold readLines
    cases marker with
    | some m =>
      simp only [← lower_putBlockLine k hbase, Nat.add_right_comm number k 1]
      exact ih ..
    | none =>
      simp only [readSegments_lower k hbase]
      cases r.readSegments number line later (Segment.segments line.content) with
      | error cause => rfl
      | ok result =>
        simp only [Except.map, Prod.map, id, Nat.add_right_comm number k 1]
        exact ih ..

end

end Reader

end Macro10
