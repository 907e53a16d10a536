import Macro10.Proofs.Source.Stretch

/-!
# Readers side by side

Two readers that take the same stretch, and come to the same verdict on it, do the same to what they
have read. So a relation that the single changes keep (`Parallel`) is kept by a stretch, and both
readers stop where one of them does (`Parallel.take`).
-/

namespace Macro10.Reader

variable {r s : Reader} {R : Reader → Reader → Prop} {P : Position → Position → Prop}

/-! ## Results -/

/-- Both readers stop, or what they have read is related. -/
inductive Abreast (R : Reader → Reader → Prop) :
    Except Failure Reader → Except Failure Reader → Prop
  | ok {r s : Reader} (h : R r s) : Abreast R (.ok r) (.ok s)
  | error (e : Failure) : Abreast R (.error e) (.error e)

namespace Abreast

variable {x y : Except Failure Reader} (h : Abreast R x y)
include h

theorem bind {f g : Reader → Except Failure Reader}
    (hfg : ∀ r s, R r s → Abreast R (f r) (g s)) : Abreast R (x >>= f) (y >>= g) := by
  cases h with
  | ok h => exact hfg _ _ h
  | error e => exact .error e

/-- If the second succeeds, so does the first. -/
theorem exists_left (hs : y = .ok s) : ∃ r, x = .ok r ∧ R r s := by
  cases h with
  | ok h => exact ⟨_, rfl, Except.ok.inj hs ▸ h⟩
  | error => cases hs

/-- If the first succeeds, so does the second. -/
theorem exists_right (hr : x = .ok r) : ∃ s, y = .ok s ∧ R r s := by
  cases h with
  | ok h => exact ⟨_, rfl, Except.ok.inj hr ▸ h⟩
  | error => cases hr

theorem of_eq_ok (hr : x = .ok r) (hs : y = .ok s) : R r s := by
  obtain ⟨s', hs', h⟩ := h.exists_right hr
  exact Except.ok.inj (hs'.symm.trans hs) ▸ h

omit h in
theorem eq_map {f : Reader → Reader} (h : Abreast (fun r s => s = f r) x y) : y = x.map f := by
  cases h with
  | ok h => exact congrArg Except.ok h
  | error => rfl

end Abreast

/-! ## Stretches -/

theorem afterMark_noting (r : Reader) (position : Position) (lexeme : Lexeme) :
    (r.noting position lexeme).afterMark = r.afterMark := by
  rcases noting_cases r position lexeme with hnoting | hnoting <;> rw [hnoting]
  rfl

/-- The relation `R` is kept by what two readers do at positions that `P` relates. -/
structure Parallel (P : Position → Position → Prop) (R : Reader → Reader → Prop) : Prop where
  lineStart {p p' : Position} (hp : P p p') : P { p with column := 1 } { p' with column := 1 }
  put {r s : Reader} {p p' : Position} (h : R r s) (hp : P p p') {kind : Kind}
    (hkind : kind ≠ .container) (text : Text) : R (r.put kind text p) (s.put kind text p')
  report {r s : Reader} {p p' : Position} (h : R r s) (hp : P p p') (problem : Problem)
    (length : Int) (severity : Severity) :
    R (r.report problem p length severity) (s.report problem p' length severity)
  blankLast {r s : Reader} (h : R r s) (hr : r.afterMark = true) (hs : s.afterMark = true) :
    R r.blankLast s.blankLast
  openGroup {r s : Reader} {p p' : Position} (h : R r s) (hp : P p p') :
    R (r.openGroup p) (s.openGroup p')
  noteRadix {r s : Reader} {line line' : Nat} (h : R r s) (hp : P ⟨line, 1⟩ ⟨line', 1⟩)
    (radix : Int) : R { r with radix := some radix, changes := r.changes ++ [⟨line, radix⟩] }
      { s with radix := some radix, changes := s.changes ++ [⟨line', radix⟩] }

namespace Parallel

variable (k : Parallel P R) (h : R r s)
include k h

section

variable {p p' : Position} (hp : P p p')
include hp

theorem settle {kind : Kind} (hkind : kind ≠ .container) (text : Text) {verdict : Numeral.Verdict}
    (hmark : ∀ new, verdict = .convertedMark new → r.afterMark = true ∧ s.afterMark = true) :
    R (r.settle kind text p verdict) (s.settle kind text p' verdict) := by
  cases verdict with
  | unconcerned => exact k.put h hp hkind text
  | refused problem => exact k.put (k.report h hp ..) hp (by decide) text
  | refusedMark problem => exact k.put (k.report h hp ..) hp hkind text
  | converted new => exact k.put h hp (by decide) new
  | convertedMark new =>
    obtain ⟨hr, hs⟩ := hmark new rfl
    exact k.put (k.blankLast h hr hs) hp (by decide) new

/-- The same verdict leads to readers that stay related. -/
theorem readLexeme {l : Lexeme} (hverdicts : s.verdictOn l = r.verdictOn l) :
    Abreast R (r.readLexeme p l) (s.readLexeme p' l) := by
  have hnoting : R (r.noting p l) (s.noting p' l) := by
    unfold noting
    split
    · exact k.report h hp ..
    · exact h
  rw [readLexeme_eq, readLexeme_eq, hverdicts]
  cases hverdict : r.verdictOn l with
  | error e => exact .error e
  | ok verdict =>
    refine .ok (k.settle hnoting hp (by cases l <;> simp [Lexeme.kind]) _ ?_)
    rintro new rfl
    rw [afterMark_noting, afterMark_noting]
    exact ⟨afterMark_of_verdictOn hverdict, afterMark_of_verdictOn (hverdicts.trans hverdict)⟩

end

/-- The same radix directive leads to readers that stay related. -/
theorem setRadix {number number' : Nat} (hp : P ⟨number, 1⟩ ⟨number', 1⟩) (line : Line)
    (operand : Text) :
    Abreast R (r.setRadix number line operand) (s.setRadix number' line operand) := by
  unfold Reader.setRadix
  cases Numeral.readRadix operand with
  | error e => exact .error e
  | ok radix =>
    cases Numeral.readDigits operand 10 with
    | error e => exact .error e
    | ok value =>
      refine .ok (k.noteRadix ?_ hp radix)
      split
      · exact h
      · exact k.report h hp ..

/-- **Two readers take a stretch side by side,** and stop together. -/
theorem take {line column line' column' : Nat} (hp : P ⟨line, column⟩ ⟨line', column'⟩)
    {x : Stretch} (hverdicts : ∀ l, x = .lexeme l → s.verdictOn l = r.verdictOn l)
    (hclosing : x = .closing → R (r.closeGroup ⟨line, column⟩) (s.closeGroup ⟨line', column'⟩)) :
    Abreast R (r.take line column x) (s.take line' column' x) := by
  cases x with
  | lexeme l => exact k.readLexeme h hp (hverdicts l rfl)
  | terminator | remark => exact .ok (k.put h hp (by decide) _)
  | setRadix content operand =>
    exact (k.setRadix h (k.lineStart hp) _ operand).bind fun _ _ h => .ok (k.put h hp (by decide) _)
  | opening => exact .ok (k.openGroup h hp)
  | closing => exact .ok (hclosing rfl)
  | unended => exact .ok (k.report h hp ..)

end Parallel

end Macro10.Reader
