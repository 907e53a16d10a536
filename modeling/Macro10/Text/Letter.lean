import Macro10.Text.Basic
import Macro10.Text.Ranges

/-!
# Letters

Names start with a letter and go on with letters and ASCII digits. A letter is a character of
the general category L (upper case, lower case, title case, modifier or other letter).
-/

namespace Macro10

namespace Text

set_option maxRecDepth 4096 in
/-- The code points of the general category L. -/
def letterRanges : List (Nat × Nat) :=
  ranges 0 [65, 26, 6, 26, 47, 1, 10, 1, 4, 1, 5, 23, 1, 31, 1, 458, 4, 12, 14, 5, 7, 1, 1, 1, 129,
    5, 1, 2, 2, 4, 1, 1, 6, 1, 1, 3, 1, 1, 1, 20, 1, 83, 1, 139, 8, 166, 1, 38, 2, 1, 6, 41, 71, 27,
    4, 4, 45, 43, 35, 2, 1, 99, 1, 1, 15, 2, 7, 2, 10, 3, 2, 1, 16, 1, 1, 30, 29, 89, 11, 1, 24, 33,
    9, 2, 4, 1, 5, 22, 4, 1, 9, 1, 3, 1, 23, 25, 7, 11, 5, 24, 1, 6, 17, 42, 58, 54, 3, 1, 18, 1, 7,
    10, 15, 16, 4, 8, 2, 2, 2, 22, 1, 7, 1, 1, 3, 4, 3, 1, 16, 1, 13, 2, 1, 3, 14, 2, 10, 1, 8, 6,
    4, 2, 2, 22, 1, 7, 1, 2, 1, 2, 1, 2, 31, 4, 1, 1, 19, 3, 16, 9, 1, 3, 1, 22, 1, 7, 1, 2, 1, 5,
    3, 1, 18, 1, 15, 2, 23, 1, 11, 8, 2, 2, 2, 22, 1, 7, 1, 2, 1, 5, 3, 1, 30, 2, 1, 3, 15, 1, 17,
    1, 1, 6, 3, 3, 1, 4, 3, 2, 1, 1, 1, 2, 3, 2, 3, 3, 3, 12, 22, 1, 52, 8, 1, 3, 1, 23, 1, 16, 3,
    1, 26, 3, 2, 1, 2, 2, 30, 1, 4, 8, 1, 3, 1, 23, 1, 10, 1, 5, 3, 1, 31, 2, 1, 2, 15, 2, 17, 9, 1,
    3, 1, 41, 2, 1, 16, 1, 5, 3, 8, 3, 24, 6, 5, 18, 3, 24, 1, 9, 1, 1, 2, 7, 58, 48, 1, 2, 12, 7,
    58, 2, 1, 1, 1, 5, 1, 24, 1, 1, 1, 10, 1, 2, 9, 1, 2, 5, 1, 1, 21, 4, 32, 1, 63, 8, 1, 36, 27,
    5, 115, 43, 20, 1, 16, 6, 4, 4, 3, 1, 3, 2, 7, 3, 4, 13, 12, 1, 17, 38, 1, 1, 5, 1, 2, 43, 1,
    333, 1, 4, 2, 7, 1, 1, 1, 4, 2, 41, 1, 4, 2, 33, 1, 4, 2, 7, 1, 1, 1, 4, 2, 15, 1, 57, 1, 4, 2,
    67, 37, 16, 16, 86, 2, 6, 3, 620, 2, 17, 1, 26, 5, 75, 6, 8, 7, 18, 13, 19, 14, 18, 14, 13, 1,
    3, 15, 52, 35, 1, 4, 1, 67, 89, 7, 5, 2, 34, 1, 1, 5, 70, 10, 31, 49, 30, 2, 5, 11, 44, 4, 26,
    54, 23, 9, 53, 82, 1, 93, 47, 17, 8, 54, 30, 13, 2, 10, 44, 26, 36, 41, 3, 10, 36, 2, 9, 7, 43,
    2, 3, 41, 4, 1, 6, 1, 2, 3, 1, 5, 192, 64, 278, 2, 6, 2, 38, 2, 6, 2, 8, 1, 1, 1, 1, 1, 1, 1,
    31, 2, 53, 1, 7, 1, 1, 3, 3, 1, 7, 3, 4, 2, 6, 4, 13, 5, 3, 1, 7, 116, 1, 13, 1, 16, 13, 101, 1,
    4, 1, 2, 10, 1, 1, 3, 5, 6, 1, 1, 1, 1, 1, 1, 4, 1, 11, 2, 4, 5, 5, 4, 1, 52, 2, 2683, 229, 6,
    4, 3, 2, 12, 38, 1, 1, 5, 1, 2, 56, 7, 1, 16, 23, 9, 7, 1, 7, 1, 7, 1, 7, 1, 7, 1, 7, 1, 7, 1,
    7, 80, 1, 469, 2, 42, 5, 5, 2, 4, 86, 6, 3, 1, 90, 1, 4, 5, 43, 1, 94, 17, 32, 48, 16, 512,
    6592, 64, 22157, 67, 46, 2, 269, 3, 16, 10, 2, 20, 47, 16, 31, 2, 70, 49, 9, 2, 103, 2, 64, 5,
    2, 1, 1, 1, 5, 24, 16, 1, 3, 1, 4, 1, 23, 29, 52, 14, 50, 62, 6, 3, 1, 1, 2, 11, 28, 10, 23, 25,
    29, 7, 47, 28, 1, 16, 5, 1, 10, 10, 5, 1, 41, 23, 3, 1, 8, 20, 23, 3, 1, 3, 50, 1, 1, 3, 2, 2,
    5, 2, 1, 1, 1, 24, 3, 2, 11, 7, 3, 12, 6, 2, 6, 2, 6, 9, 7, 1, 7, 1, 43, 1, 14, 6, 115, 29,
    11172, 12, 23, 4, 49, 8452, 366, 2, 106, 38, 7, 12, 5, 5, 1, 1, 10, 1, 13, 1, 5, 1, 1, 1, 2, 1,
    2, 1, 108, 33, 363, 18, 64, 2, 54, 40, 12, 116, 5, 1, 135, 36, 26, 6, 26, 11, 89, 3, 6, 2, 6, 2,
    6, 2, 3, 35, 12, 1, 26, 1, 19, 1, 2, 1, 15, 2, 14, 34, 123, 389, 29, 3, 49, 47, 32, 13, 20, 1,
    8, 6, 38, 10, 30, 2, 36, 4, 8, 48, 158, 18, 36, 4, 36, 4, 40, 8, 52, 12, 11, 1, 15, 1, 7, 1, 2,
    1, 11, 1, 15, 1, 7, 1, 2, 67, 311, 9, 22, 10, 8, 24, 6, 1, 42, 1, 9, 69, 6, 2, 1, 1, 44, 1, 2,
    3, 1, 2, 23, 10, 23, 9, 31, 65, 19, 1, 2, 10, 22, 10, 26, 70, 56, 6, 2, 64, 1, 15, 4, 1, 3, 1,
    29, 42, 29, 3, 29, 35, 8, 1, 28, 27, 54, 10, 22, 10, 19, 13, 18, 110, 73, 55, 51, 13, 51, 13,
    36, 348, 42, 6, 2, 78, 29, 10, 1, 8, 22, 42, 18, 46, 21, 27, 23, 12, 53, 57, 2, 2, 1, 13, 45,
    32, 25, 26, 36, 29, 1, 2, 1, 8, 35, 3, 1, 12, 48, 14, 4, 21, 1, 1, 1, 35, 18, 1, 25, 84, 7, 1,
    1, 1, 4, 1, 15, 1, 10, 7, 47, 38, 8, 2, 2, 2, 22, 1, 7, 1, 2, 1, 5, 3, 1, 18, 1, 12, 5, 158, 53,
    18, 4, 20, 3, 30, 48, 20, 2, 1, 1, 184, 47, 41, 4, 36, 48, 20, 1, 59, 43, 13, 1, 71, 27, 37, 7,
    185, 44, 116, 64, 31, 8, 2, 1, 2, 8, 1, 2, 1, 24, 15, 1, 1, 1, 94, 8, 2, 39, 16, 1, 1, 1, 28, 1,
    10, 40, 7, 1, 21, 1, 11, 46, 19, 1, 18, 73, 263, 9, 1, 37, 17, 1, 49, 30, 112, 7, 1, 2, 1, 38,
    21, 1, 25, 6, 1, 2, 1, 32, 14, 1, 327, 19, 189, 1, 79, 922, 230, 196, 2636, 97, 15, 1071, 4049,
    583, 8633, 569, 7, 31, 17, 79, 17, 30, 18, 48, 16, 4, 31, 21, 5, 19, 688, 64, 128, 75, 5, 1, 66,
    13, 64, 2, 1, 1, 28, 6136, 8, 1238, 42, 9, 8935, 4, 1, 7, 1, 2, 1, 291, 45, 3, 17, 4, 8, 396,
    2308, 107, 5, 13, 3, 9, 7, 10, 5990, 85, 1, 71, 1, 2, 2, 1, 2, 2, 2, 4, 1, 12, 1, 1, 1, 7, 1,
    65, 1, 4, 2, 8, 1, 7, 1, 28, 1, 4, 1, 5, 1, 1, 3, 7, 1, 340, 2, 25, 1, 25, 1, 31, 1, 25, 1, 31,
    1, 25, 1, 31, 1, 25, 1, 31, 1, 25, 1, 8, 1844, 31, 481, 45, 10, 7, 16, 1, 321, 30, 18, 44, 1268,
    7, 1, 4, 1, 2, 1, 15, 1, 197, 59, 68, 7, 1, 1204, 4, 1, 27, 1, 2, 1, 1, 2, 1, 1, 10, 1, 4, 1, 1,
    1, 1, 6, 1, 4, 1, 1, 1, 1, 1, 1, 3, 1, 2, 1, 1, 2, 1, 1, 1, 1, 1, 1, 1, 1, 1, 1, 2, 1, 1, 2, 4,
    1, 7, 1, 4, 1, 4, 1, 1, 1, 10, 1, 17, 5, 3, 1, 5, 1, 17, 4420, 42720, 32, 4153, 7, 222, 2, 5762,
    14, 7473, 3103, 542, 1506, 4939]

end Text

namespace Symbol

def isLetter : Symbol → Bool
  | .char c => Text.inRanges c.toNat Text.letterRanges
  | .stray _ => false

/-- The symbol can go on a name. -/
def isNameSymbol (s : Symbol) : Bool := s.isLetter || s.isDigit

@[simp]
theorem isLetter_stray (b : UInt8) : (stray b).isLetter = false := rfl

theorem isNameSymbol_of_isLetter {s : Symbol} (h : s.isLetter = true) : s.isNameSymbol = true := by
  simp [isNameSymbol, h]

end Symbol

end Macro10
