import Macro10.CommandLine.Run

/-!
# What a disk promises

A `Disk.View` says what stands at each place and where a path leads to. A disk is `Lawful` for a
view if only a write that succeeds changes anything, and that at the one place its path leads to. It
may refuse to read a file that is there. The files in memory are such a disk (`Files.lawful_disk`).
-/

namespace Macro10.CommandLine

open List

/-- What can be seen in the states of a disk. Two paths can lead to one place. -/
structure Disk.View (σ ι : Type) where
  place? : σ → Path → Option ι
  lookup? : σ → ι → Option Entry

namespace Disk.View

variable {σ ι : Type} (view : View σ ι)

/-- The bytes of the file at a path. -/
def bytes? (s : σ) (path : Path) : Option (List UInt8) :=
  match (view.place? s path).bind fun place => view.lookup? s place with
  | some (.file bytes) => some bytes
  | _ => none

/-- The configuration at a path; where there is no file it is empty. -/
def config (s : σ) (path : Path) : Except ConfigFault Toml.Table :=
  match view.bytes? s path with
  | some bytes => if path.holdsZero then .ok [] else readConfig bytes
  | none => .ok []

end Disk.View

/-- A disk that does what it says. -/
structure Disk.Lawful {σ ι : Type} (disk : Disk (StateM σ)) (view : View σ ι) : Prop where
  isFile_state : ∀ path s, ((disk.isFile path).run s).2 = s
  isFile_answer : ∀ path s answer, ((disk.isFile path).run s).1 = .ok answer →
    answer = (view.bytes? s path).isSome
  read_state : ∀ path s, ((disk.read path).run s).2 = s
  read_answer : ∀ path s bytes, ((disk.read path).run s).1 = .ok bytes →
    view.bytes? s path = some bytes
  write_fault : ∀ path bytes s fault s', (disk.write path bytes).run s = (some fault, s') → s' = s
  write_done : ∀ path bytes s s', (disk.write path bytes).run s = (none, s') →
    ∃ place, view.place? s path = some place ∧ view.lookup? s' place = some (.file bytes) ∧
      ∀ other, other ≠ place → view.lookup? s' other = view.lookup? s other

/-! ## The files in memory -/

namespace Files

theorem lookup_map_replace (files : Files) (place other : Place) (entry : Entry) :
    List.lookup other (files.map fun item => if item.1 = place then (place, entry) else item) =
      if other = place then (files.lookup place).map fun _ => entry else files.lookup other := by
  induction files with
  | nil => simp
  | cons item rest ih =>
    obtain ⟨here, old⟩ := item
    by_cases hhere : here = place
    · subst hhere
      by_cases hother : other = here
      · subst hother
        simp
      · have hne : (other == here) = false := by simpa using hother
        simp only [map_cons, if_true, lookup_cons, hne, ih, if_neg hother]
    · by_cases hother : other = here
      · subst hother
        simp [hhere]
      · have hne : (other == here) = false := by simpa using hother
        have hne' : (place == here) = false := by simpa using Ne.symm hhere
        simp only [map_cons, if_neg hhere, lookup_cons, hne, hne', ih]

/-- A write shows at its own place only. -/
theorem lookup_put (files : Files) (place other : Place) (bytes : List UInt8) :
    (files.put place bytes).lookup other =
      if other = place then some (.file bytes) else files.lookup other := by
  unfold put
  split
  · rename_i hsome
    obtain ⟨old, hold⟩ := Option.isSome_iff_exists.mp hsome
    rw [lookup_map_replace, hold, Option.map_some]
  · rename_i hnone
    rw [Bool.not_eq_true, Option.isSome_eq_false_iff, Option.isNone_iff_eq_none] at hnone
    rw [lookup_append]
    by_cases hother : other = place
    · rw [hother, hnone]
      simp
    · have hne : (other == place) = false := by simpa using hother
      simp [lookup_cons, hne, hother]

/-- How the files in memory are seen. -/
def view : Disk.View Files Place where
  place? files path := (files.place path).toOption
  lookup? := lookup?

theorem view_bytes? (files : Files) (path : Path) : view.bytes? files path = files.bytes? path := by
  simp only [Disk.View.bytes?, bytes?, view]
  cases files.place path <;> rfl

/-- A write puts the file at the place of its path, where no directory stands. -/
theorem write_eq_ok {files after : Files} {path : Path} {bytes : List UInt8}
    (h : files.write path bytes = .ok after) :
    ∃ place, files.place path = .ok place ∧ isAbove place = false ∧
      after = files.put place bytes := by
  unfold write at h
  cases hplace : files.place path with
  | error fault => rw [hplace] at h; cases h
  | ok place =>
    rw [hplace] at h
    simp only [bind, Except.bind] at h
    split at h
    · cases h
    · rename_i hentry
      refine ⟨place, rfl, ?_, by cases h; rfl⟩
      cases habove : isAbove place with
      | false => rfl
      | true => exact absurd (by simp [habove, lookup?]) hentry

theorem lookup?_put (files : Files) {place : Place} (hplace : isAbove place = false)
    (other : Place) (bytes : List UInt8) :
    lookup? (files.put place bytes) other =
      if other = place then some (.file bytes) else files.lookup? other := by
  unfold lookup?
  by_cases hother : other = place
  · subst hother
    simp [hplace, lookup_put]
  · simp [lookup_put, hother]

theorem run_write (locked : Place → Bool) (files : Files) (path : Path) (bytes : List UInt8) :
    ((lockedDisk locked).write path bytes).run files =
      match files.write path bytes with
      | .ok after => (none, after)
      | .error fault => (some fault, files) := by
  show StateT.run (match files.write path bytes with
    | .ok after => do set after; return none
    | .error fault => return some fault) files = _
  cases files.write path bytes <;> rfl

/-- A path is a file if there are bytes to read. -/
theorem isFile_eq_ok {files : Files} {path : Path} {answer : Bool}
    (h : files.isFile path = .ok answer) : answer = (files.bytes? path).isSome := by
  unfold isFile at h
  split at h
  · rename_i fault hfault
    have hnone : files.bytes? path = none := by simp [bytes?, hfault]
    rw [hnone]
    split at h <;> cases h
    rfl
  · cases h
    rfl

/-- What is read is what stands there. -/
theorem read_eq_ok {files : Files} {locked : Place → Bool} {path : Path} {bytes : List UInt8}
    (h : files.read locked path = .ok bytes) : files.bytes? path = some bytes := by
  unfold read at h
  cases hplace : files.place path with
  | error fault => rw [hplace] at h; cases h
  | ok place =>
    rw [hplace] at h
    simp only [bind, Except.bind] at h
    split at h
    · cases h
    · cases h
    · next hentry =>
      split at h
      · cases h
      · cases h
        simp [bytes?, hplace, hentry]

/-- **The files in memory are a lawful disk,** even if some are locked. -/
theorem lawful_disk (locked : Place → Bool) : (lockedDisk locked).Lawful Files.view where
  isFile_state _ _ := rfl
  isFile_answer path files answer h := by
    rw [view_bytes?]
    exact isFile_eq_ok h
  read_state _ _ := rfl
  read_answer path files bytes h := by
    rw [view_bytes?]
    exact read_eq_ok h
  write_fault path bytes files fault after h := by
    rw [run_write] at h
    split at h <;> cases h
    rfl
  write_done path bytes files after h := by
    rw [run_write] at h
    split at h <;> cases h
    rename_i hwrite
    obtain ⟨place, hplace, habove, rfl⟩ := write_eq_ok hwrite
    have hput (other : Place) := lookup?_put files habove other bytes
    refine ⟨place, by simp [view, hplace, Except.toOption], ?_, fun other hother => ?_⟩
    · exact (hput place).trans (if_pos rfl)
    · exact (hput other).trans (if_neg hother)

end Files

end Macro10.CommandLine
