/-!
# Double-precision numbers

A finite number of double precision is a whole mantissa of at most 53 bits times a power of two
between `2 ^ -1074` and `2 ^ 971`. Here such numbers are read from decimal notation, exactly: the
nearest one is found with whole numbers only, and a tie goes to the even mantissa.
-/

namespace Macro10.Decimal

/-- The number `mantissa * 2 ^ exponent`. -/
structure Double where
  mantissa : Nat
  exponent : Int
deriving DecidableEq, Repr

namespace Double

def minExponent : Int := -1074

def maxExponent : Int := 971

/-- The quotient rounded to the nearest whole number; a half goes to the even neighbour. -/
def roundDiv (num den : Nat) : Nat :=
  let quotient := num / den
  let twice := 2 * (num % den)
  if twice < den || (twice = den && quotient % 2 = 0) then quotient else quotient + 1

/-- Numerator and denominator of `num / den * 10 ^ power`. -/
def scaleTen (num den : Nat) (power : Int) : Nat × Nat :=
  if 0 ≤ power then (num * Nat.pow 10 power.toNat, den)
  else (num, den * Nat.pow 10 (-power).toNat)

/-- Numerator and denominator of `num / den / 2 ^ exponent`. -/
def unscaleTwo (num den : Nat) (exponent : Int) : Nat × Nat :=
  if 0 ≤ exponent then (num, den * Nat.pow 2 exponent.toNat)
  else (num * Nat.pow 2 (-exponent).toNat, den)

/-- The number nearest to `num / den`, unless that is beyond the largest number. -/
def nearest? (num den : Nat) : Option Double :=
  if num = 0 then some ⟨0, minExponent⟩
  else
    let low : Int := num.log2 - den.log2 - 53
    let (n, d) := unscaleTwo num den low
    let exponent := max minExponent (if Nat.pow 2 53 ≤ n / d then low + 1 else low)
    let (n, d) := unscaleTwo num den exponent
    let mantissa := roundDiv n d
    let rounded : Double :=
      if mantissa = Nat.pow 2 53 then ⟨Nat.pow 2 52, exponent + 1⟩ else ⟨mantissa, exponent⟩
    if maxExponent < rounded.exponent then none else some rounded

/-- The number nearest to `digits * 10 ^ power`, unless that is beyond the largest number.
`count` is the number of decimal digits of `digits`; it tells at once what is far too large, and
what is far too small. -/
def ofDecimal? (digits count : Nat) (power : Int) : Option Double :=
  if digits = 0 then some ⟨0, minExponent⟩
  else if 400 < count + power then none
  else if count + power < -400 then some ⟨0, minExponent⟩
  else
    let (num, den) := scaleTen digits 1 power
    nearest? num den

def fraction (x : Double) : Nat × Nat :=
  if 0 ≤ x.exponent then (x.mantissa * Nat.pow 2 x.exponent.toNat, 1)
  else (x.mantissa, Nat.pow 2 (-x.exponent).toNat)

end Double

end Macro10.Decimal
