import Macro10.Keyword
import Mathlib.Data.List.TakeWhile

/-!
# Texts that start like a literal

A text that starts like a literal is no keyword, no operator and no white space, whatever comes
after its first symbol. So two spellings of one literal look alike to a program that asks only
such questions.
-/

namespace Macro10

open List
open Macro10.Symbol (isSpace)

variable {t : Text}

namespace Text

/-- The symbols that literals start with: digits, the mark of a hexadecimal numeral, quotes. -/
def literalMarks : Text := "0123456789$\"'"

/-- The text starts like a literal. -/
def opensLiteral (t : Text) : Bool := t.head?.any literalMarks.elem

section

variable (h : t.opensLiteral = true)
include h

theorem mem_literalMarks_of_opensLiteral : ∃ s rest, t = s :: rest ∧ s ∈ literalMarks := by
  cases t with
  | nil => cases h
  | cons s rest => exact ⟨s, rest, rfl, elem_iff.mp h⟩

/-- A literal is no word. -/
theorem ne_of_opensLiteral {u : Text} (hu : u.opensLiteral = false) : t ≠ u := by
  rintro rfl
  rw [hu] at h
  cases h

theorem opensLiteral_upper : (upper t).opensLiteral = true := by
  obtain ⟨s, rest, rfl, hs⟩ := mem_literalMarks_of_opensLiteral h
  have hupper : ∀ s ∈ literalMarks, upperSymbol s = [s] := by decide
  rw [upper_cons, hupper s hs]
  exact elem_iff.mpr hs

theorem all_isSpace_of_opensLiteral : t.all isSpace = false := by
  obtain ⟨s, rest, rfl, hs⟩ := mem_literalMarks_of_opensLiteral h
  have hspace : ∀ s ∈ literalMarks, s.isSpace = false := by decide
  rw [all_cons, hspace s hs, Bool.false_and]

end

/-- What is left of a text without the white space around it is empty if there was nothing else. -/
theorem isEmpty_trim (t : Text) : (trim t).isEmpty = t.all isSpace := by
  rw [Bool.eq_iff_iff, List.isEmpty_iff, all_eq_true]
  constructor
  · intro h
    by_contra hspace
    -- the first symbol that is no white space is still there at the other end
    cases hrest : t.dropWhile isSpace with
    | nil => exact hspace (dropWhile_eq_nil_iff.mp hrest)
    | cons s rest =>
      have hs : s.isSpace = false := by
        have hhead := head?_dropWhile_not isSpace t
        rw [hrest] at hhead
        simpa using hhead
      rw [trim, trimEnd, hrest, reverse_eq_nil_iff, dropWhile_eq_nil_iff] at h
      rw [h s (mem_reverse.mpr mem_cons_self)] at hs
      cases hs
  · intro h
    rw [trim, dropWhile_eq_nil_iff.mpr h]
    rfl

/-- Of the two texts both or none is white space. -/
def SameSpacing (t u : Text) : Prop := u.all isSpace = t.all isSpace

theorem SameSpacing.of_opensLiteral {u : Text} (h : t.opensLiteral = true)
    (h' : u.opensLiteral = true) : SameSpacing t u := by
  rw [SameSpacing, all_isSpace_of_opensLiteral h, all_isSpace_of_opensLiteral h']

/-- Texts with the same spacing can be joined. -/
theorem SameSpacing.append {u t' u' : Text} (h : SameSpacing t u) (h' : SameSpacing t' u') :
    SameSpacing (t ++ t') (u ++ u') := by
  rw [SameSpacing] at h h' ⊢
  rw [all_append, all_append, h, h']

theorem SameSpacing.isEmpty_trim_eq {u : Text} (h : SameSpacing t u) :
    (trim u).isEmpty = (trim t).isEmpty := by
  rw [isEmpty_trim, isEmpty_trim, h]

end Text

theorem Head.ofWord?_of_opensLiteral (h : t.opensLiteral = true) : Head.ofWord? t = none := by
  have hkeyword : ∀ head ∈ Head.all, head.keyword.opensLiteral = false := by decide
  refine find?_eq_none.mpr fun head hhead heq => ?_
  exact Text.ne_of_opensLiteral h (hkeyword head hhead) (of_decide_eq_true heq).symm

end Macro10
