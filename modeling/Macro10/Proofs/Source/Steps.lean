import Macro10.Proofs.Document.OfForest
import Macro10.Proofs.Source.Abreast
import Mathlib.Logic.Relation

/-!
# The steps of a reader

Whatever is read, the reader takes only a few kinds of steps (`Step`), and what every step keeps,
reading keeps. So the tokens of what is read are no groups in disguise (`Plain`), and no diagnostic
is taken back (`Steps.diagnostics`).
-/

namespace Macro10

open List

variable {f : Forest}

namespace Reader

variable {number column : Nat} {line : Line}

/-- One step of reading. -/
inductive Step : Reader → Reader → Prop
  | put (r : Reader) {kind : Kind} (hkind : kind ≠ .container) (text : Text)
      (position : Position) : Step r (r.put kind text position)
  | report (r : Reader) (problem : Problem) (position : Position) (length : Int)
      (severity : Severity) : Step r (r.report problem position length severity)
  | blankLast (r : Reader) : Step r r.blankLast
  | openGroup (r : Reader) (position : Position) : Step r (r.openGroup position)
  | closeGroup (r : Reader) (position : Position) : Step r (r.closeGroup position)
  | noteRadix (r : Reader) (radix : Option Int) (changes : List RadixChange) :
      Step r { r with radix, changes }

/-- Any number of steps. -/
abbrev Steps : Reader → Reader → Prop := Relation.ReflTransGen Step

/-! ## Reading takes steps -/

variable {r r' : Reader}

/-- Whatever a reader does next, it takes steps. -/
theorem parallel_steps (r₀ : Reader) : Parallel (fun _ _ => True) fun r _ => Steps r₀ r where
  lineStart := id
  put h _ _ hkind _ := h.tail (.put _ hkind ..)
  report h _ _ _ _ := h.tail (.report ..)
  blankLast h _ _ := h.tail (.blankLast _)
  openGroup h _ := h.tail (.openGroup ..)
  noteRadix h _ _ := h.tail (.noteRadix ..)

/-- A stretch is read in steps. -/
theorem steps_take {line : Nat} {s : Stretch} (h : r.take line column s = .ok r') : Steps r r' := by
  refine ((parallel_steps r).take .refl trivial (fun _ _ => rfl) fun _ => ?_).of_eq_ok h h
  exact .single (.closeGroup r _)

theorem steps_takeAll {line : Nat} {stretches : List Stretch}
    (h : r.takeAll line column stretches = .ok r') : Steps r r' := by
  induction stretches generalizing r line column with
  | nil =>
    cases h
    exact .refl
  | cons s rest ih =>
    obtain ⟨r₁, hfirst, hrest⟩ := bind_eq_ok.mp h
    exact (steps_take hfirst).trans (ih hrest)

/-- A line is read in steps. -/
theorem steps_readSegments {later : List Line} {text : Text}
    {segments : List Segment} {marker : Option Text} (hcover : Segment.Cover column text segments)
    (h : r.readSegments number line later segments = .ok (r', marker)) : Steps r r' := by
  rw [readSegments_eq r number line later hcover] at h
  obtain ⟨r₁, htake, h⟩ := bind_eq_ok.mp h
  obtain ⟨rfl, -⟩ := Prod.mk.inj (Except.ok.inj h)
  exact steps_takeAll htake

/-! ## What every step keeps -/

/-- Nothing that was read is a group in disguise. -/
def Plain (r : Reader) : Prop := r.scope.Plain ∧ ∀ frame ∈ r.frames, frame.before.Plain

end Reader

theorem Forest.plain_reverseOnto {done : Forest} (hf : f.Plain) (hdone : done.Plain) :
    (f.reverseOnto done).Plain := by
  induction f generalizing done with
  | nil => exact hdone
  | leaf kind text position rest ih => exact ih hf.2 ⟨hf.1, hdone⟩
  | group position closed children rest _ ih => exact ih hf.2 ⟨hf.1, hdone⟩

theorem Forest.Plain.reverse (h : f.Plain) : f.reverse.Plain :=
  plain_reverseOnto h trivial

namespace Reader

variable {r r' : Reader}

/-- A step keeps the pieces plain. -/
theorem Step.plain (h : Step r r') (hr : r.Plain) : r'.Plain := by
  cases h with
  | put hkind text position => exact ⟨⟨hkind, hr.1⟩, hr.2⟩
  | report => exact hr
  | blankLast =>
    obtain ⟨hscope, hframes⟩ := hr
    unfold Reader.blankLast
    split
    · next heq =>
      rw [heq] at hscope
      exact ⟨⟨by decide, hscope.2⟩, hframes⟩
    · exact ⟨hscope, hframes⟩
  | openGroup position => exact ⟨trivial, forall_mem_cons.mpr hr⟩
  | closeGroup position =>
    obtain ⟨hscope, hframes⟩ := hr
    unfold Reader.closeGroup
    split
    · exact ⟨hscope, hframes⟩
    · next frame frames heq =>
      rw [heq] at hframes
      obtain ⟨hframe, hframes⟩ := forall_mem_cons.mp hframes
      exact ⟨⟨hscope.reverse, hframe⟩, hframes⟩
  | noteRadix => exact hr

theorem Steps.plain (h : Steps r r') (hr : r.Plain) : r'.Plain := by
  induction h with
  | refl => exact hr
  | tail _ hstep ih => exact hstep.plain ih

theorem plain_endGroups {frames : List Frame} (hr : r.scope.Plain)
    (hframes : ∀ frame ∈ frames, frame.before.Plain) : (r.endGroups frames).scope.Plain := by
  induction frames generalizing r with
  | nil => exact hr
  | cons frame frames ih =>
    obtain ⟨hframe, hframes⟩ := forall_mem_cons.mp hframes
    exact ih ⟨hr.reverse, hframe⟩ hframes

/-- A step takes nothing back that was reported. -/
theorem Step.diagnostics (h : Step r r') : r.diagnostics <+: r'.diagnostics := by
  cases h with
  | put | openGroup | noteRadix => exact prefix_rfl
  | report => exact prefix_append _ _
  | blankLast =>
    unfold Reader.blankLast
    split <;> exact prefix_rfl
  | closeGroup =>
    unfold Reader.closeGroup
    split
    · exact prefix_append _ _
    · exact prefix_rfl

theorem Steps.diagnostics (h : Steps r r') : r.diagnostics <+: r'.diagnostics := by
  induction h with
  | refl => exact prefix_rfl
  | tail _ hstep ih => exact ih.trans hstep.diagnostics

theorem diagnostics_endGroups (r : Reader) (frames : List Frame) :
    r.diagnostics <+: (r.endGroups frames).diagnostics := by
  induction frames generalizing r with
  | nil => exact prefix_rfl
  | cons frame frames ih =>
    refine List.IsPrefix.trans ?_ (ih _)
    exact prefix_append _ _

end Reader

end Macro10
