import Macro10.Text.Basic
import Macro10.Text.Ranges

/-!
# White space

The characters that separate words. All but the two that end lines are *blanks*: they may stand
between the tokens of a line.
-/

namespace Macro10

namespace Text

/-- White space: the separators of Unicode and the ASCII controls that move the carriage. -/
def spaceRanges : List (Nat × Nat) :=
  [(0x0009, 0x000D), (0x001C, 0x0020), (0x0085, 0x0085), (0x00A0, 0x00A0), (0x1680, 0x1680),
   (0x2000, 0x200A), (0x2028, 0x2029), (0x202F, 0x202F), (0x205F, 0x205F), (0x3000, 0x3000)]

end Text

namespace Symbol

def isSpace : Symbol → Bool
  | .char c => Text.inRanges c.toNat Text.spaceRanges
  | .stray _ => false

/-- The symbol is a line feed or a carriage return. -/
def endsLine (s : Symbol) : Bool := s.is '\n' || s.is '\r'

def isBlank (s : Symbol) : Bool := s.isSpace && !s.endsLine

@[simp]
theorem isSpace_stray (b : UInt8) : (stray b).isSpace = false := rfl

theorem isSpace_of_isBlank {s : Symbol} (h : s.isBlank = true) : s.isSpace = true := by
  simp only [isBlank, Bool.and_eq_true] at h
  exact h.1

end Symbol

namespace Text

/-- The text without white space at its end. -/
def trimEnd (t : Text) : Text := (t.reverse.dropWhile Symbol.isSpace).reverse

/-- The text without white space at its two ends. -/
def trim (t : Text) : Text := trimEnd (t.dropWhile Symbol.isSpace)

/--
The words of a text: its maximal runs without white space.

The current word is built at the head of the result, so an empty head stands for "between two
words" and is dropped by `words`.
-/
def splitWords : Text → Text × List Text
  | [] => ([], [])
  | s :: t =>
    let (word, rest) := splitWords t
    if s.isSpace then ([], if word.isEmpty then rest else word :: rest)
    else (s :: word, rest)

/-- The words of a text, in order. -/
def words (t : Text) : List Text :=
  let (word, rest) := splitWords t
  if word.isEmpty then rest else word :: rest

@[simp]
theorem words_nil : words [] = [] := rfl

theorem ne_nil_of_mem_splitWords {t word : Text} (h : word ∈ (splitWords t).2) : word ≠ [] := by
  induction t with
  | nil => cases h
  | cons s t ih =>
    simp only [splitWords] at h
    split at h
    · split at h
      · exact ih h
      · next hne =>
        rcases List.mem_cons.mp h with rfl | h
        · simpa using hne
        · exact ih h
    · exact ih h

theorem ne_nil_of_mem_words {t word : Text} (h : word ∈ words t) : word ≠ [] := by
  simp only [words] at h
  split at h
  · exact ne_nil_of_mem_splitWords h
  · next hne =>
    rcases List.mem_cons.mp h with rfl | h
    · simpa using hne
    · exact ne_nil_of_mem_splitWords h

end Text

end Macro10
