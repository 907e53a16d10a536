import Macro10.Text.Blank
import Macro10.Text.DecimalDigit

/-!
# Decimal integers as people type them

An integer may stand between white space, may have one sign, may group its digits with single
underscores, and may use the decimal digits of any script. A numeral with too many digits is
refused.
-/

namespace Macro10.Text

/-- The longest numeral that is converted between text and number. -/
def digitLimit : Nat := 4300

/-- White space around a number: all but the four information separators of ASCII. -/
def isPadding (s : Symbol) : Bool :=
  s.isSpace && !(s.is '\x1c' || s.is '\x1d' || s.is '\x1e' || s.is '\x1f')

/-- The values of digits with single underscores between them. -/
def groupedDigits? : Text → Option (List Nat)
  | [] => none
  | [s] => (decimalValue? s).map ([·])
  | s :: sep :: rest =>
    match decimalValue? s with
    | none => none
    | some v =>
      if sep.is '_' then (groupedDigits? rest).map (v :: ·)
      else (groupedDigits? (sep :: rest)).map (v :: ·)

/-- The number that the digits spell in base ten. -/
def decimalOf (digits : List Nat) : Nat := digits.foldl (fun n d => 10 * n + d) 0

def integer? (t : Text) : Option Int :=
  let body := ((t.dropWhile isPadding).reverse.dropWhile isPadding).reverse
  let (negative, digits) : Bool × Text :=
    match body with
    | .char '-' :: rest => (true, rest)
    | .char '+' :: rest => (false, rest)
    | rest => (false, rest)
  match groupedDigits? digits with
  | none => none
  | some values =>
    if digitLimit < values.length then none
    else
      let n : Int := decimalOf values
      some (if negative then -n else n)

end Macro10.Text
