import Macro10.Text.Basic

/-!
# Decimal digits of all scripts

Each script's ten decimal digits stand together, from zero to nine, so the table lists the
zeros only. Command-line numbers may be written with the digits of any script.
-/

namespace Macro10.Text

/-- The code points of the digit zero, one for each script, ascending. -/
def zeros : List Nat :=
  [48, 1632, 1776, 1984, 2406, 2534, 2662, 2790, 2918, 3046, 3174, 3302, 3430, 3558, 3664, 3792,
   3872, 4160, 4240, 6112, 6160, 6470, 6608, 6784, 6800, 6992, 7088, 7232, 7248, 42528, 43216,
   43264, 43472, 43504, 43600, 44016, 65296, 66720, 68912, 69734, 69872, 69942, 70096, 70384, 70736,
   70864, 71248, 71360, 71472, 71904, 72016, 72784, 73040, 73120, 92768, 92864, 93008, 120782,
   120792, 120802, 120812, 120822, 123200, 123632, 125264, 130032]

/-- The value of the digit with code point `n`, if it is one. -/
def digitOf (n : Nat) : List Nat → Option Nat
  | [] => none
  | first :: rest =>
    if n < first then none else if n < first + 10 then some (n - first) else digitOf n rest

def decimalValue? : Symbol → Option Nat
  | .char c => digitOf c.toNat zeros
  | .stray _ => none

end Macro10.Text
