/-!
# Sets of code points

A property of characters is given by the ascending list of its closed ranges of code points. A
look-up stops at the first range that starts above the code point. Long lists are written down as
gaps and lengths (`ranges`).
-/

namespace Macro10.Text

/-- The ranges from `start` on that are given by the gap before each of them and by its length. -/
def ranges (start : Nat) : List Nat → List (Nat × Nat)
  | gap :: length :: rest =>
    (start + gap, start + gap + length - 1) :: ranges (start + gap + length) rest
  | _ => []

def inRanges (n : Nat) : List (Nat × Nat) → Bool
  | [] => false
  | (lo, hi) :: rest => if n < lo then false else n ≤ hi || inRanges n rest

/-- A member lies in one of the ranges. -/
theorem exists_of_inRanges {n : Nat} {ranges : List (Nat × Nat)} (h : inRanges n ranges = true) :
    ∃ r ∈ ranges, r.1 ≤ n ∧ n ≤ r.2 := by
  induction ranges with
  | nil => simp [inRanges] at h
  | cons r rest ih =>
    obtain ⟨lo, hi⟩ := r
    simp only [inRanges] at h
    split at h
    · cases h
    · next hlo =>
      simp only [Bool.or_eq_true, decide_eq_true_eq] at h
      rcases h with h | h
      · exact ⟨(lo, hi), by simp, by simpa using Nat.le_of_not_lt hlo, h⟩
      · obtain ⟨r, hr, hn⟩ := ih h
        exact ⟨r, by simp [hr], hn⟩

end Macro10.Text
