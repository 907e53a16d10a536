import Macro10.Decimal.Double
import Macro10.Text.Basic

/-!
# The shortest decimal notation of a number

A number of double precision is written with the fewest digits that read back as the same number,
the nearer one of two such notations, and the even one of two equally near. Decimal exponents from
-4 to 15 are written out.
-/

namespace Macro10.Decimal

/-- The decimal number `digits * 10 ^ power`. -/
structure Scientific where
  digits : Nat
  power : Int
deriving DecidableEq, Repr

def digitChars (n : Nat) : List Char := (toString n).toList

/-- The place of the first digit of `num / den`, which is not zero: the value lies between
`10 ^ (place - 1)` and `10 ^ place`. -/
def leadingPlace (num den : Nat) : Int :=
  if den ≤ num then (digitChars (num / den)).length
  else
    match (List.range 400).find? fun shift => den ≤ num * Nat.pow 10 shift with
    | some shift => 1 - shift
    | none => 0

/-- The number reads back from `digits * 10 ^ power`. -/
def readsBack (x : Double) (digits : Nat) (power : Int) : Bool :=
  Double.ofDecimal? digits (digitChars digits).length power = some x

/-- The notation with `count` digits that reads back, if there is one; of two, the nearer. -/
def withDigits? (x : Double) (count : Nat) : Option Scientific :=
  let (num, den) := x.fraction
  let power := leadingPlace num den - count
  let (n, d) := Double.scaleTen num den (-power)
  let below := n / d
  let above := below + 1
  match readsBack x below power, readsBack x above power with
  | true, true => some ⟨Double.roundDiv n d, power⟩
  | true, false => some ⟨below, power⟩
  | false, true => some ⟨above, power⟩
  | false, false => none

/-- The shortest notation of a number that is not zero; seventeen digits always suffice. -/
def shortest (x : Double) : Scientific :=
  ((List.range 17).findSome? fun n => withDigits? x (n + 1)).getD ⟨0, 0⟩

def trimZeros (digits : List Char) : List Char := (digits.reverse.dropWhile (· = '0')).reverse

/-- At least two digits of an exponent. -/
def exponentDigits (n : Nat) : List Char := if n < 10 then '0' :: digitChars n else digitChars n

def exponentForm (digits : List Char) (exponent : Int) : List Char :=
  let fraction : List Char := if digits.length ≤ 1 then [] else '.' :: digits.drop 1
  digits.take 1 ++ fraction ++ 'e' :: (if exponent < 0 then '-' else '+') ::
    exponentDigits exponent.natAbs

/-- A number written out; `place` digits stand before the point. -/
def positionalForm (digits : List Char) (place : Int) : List Char :=
  if place ≤ 0 then '0' :: '.' :: List.replicate (-place).toNat '0' ++ digits
  else
    let whole := digits.take place.toNat
    let fraction := digits.drop place.toNat
    whole ++ List.replicate (place.toNat - digits.length) '0' ++
      '.' :: (if fraction.isEmpty then ['0'] else fraction)

def notate (x : Double) : Text :=
  let chars : List Char :=
    if x.mantissa = 0 then ['0', '.', '0']
    else
      let s := shortest x
      let all := digitChars s.digits
      let place := all.length + s.power
      let digits := trimZeros all
      if -4 < place && place ≤ 16 then positionalForm digits place
      else exponentForm digits (place - 1)
  chars.map .char

end Macro10.Decimal
