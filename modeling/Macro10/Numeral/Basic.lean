import Macro10.Failure
import Macro10.Text.UpperCase

/-!
# Numerals

The source dialect reads a bare digit string in the radix in force, and a digit string with one
of the marks `^D`, `^O`, `^H`, `^B` in base 10, 8, 16 or 2. The target dialect has decimal
numerals and hexadecimal ones, which start with `$`.

* `readDigits` is strict: it takes neither signs, nor separators, nor blanks.
* `render` writes a value for the target.
* `targetText` does both for a whole source numeral, and leaves a text that is none as it is.

Radixes and bases are integers, because a caller may ask for any; only 2 to 36 have digits.
-/

namespace Macro10.Numeral

/-! ## Digits and values -/

/-- The radix of a source that sets none. -/
def defaultRadix : Int := 8

/-- The largest radix: ten digits and the letters of the alphabet. -/
def maxRadix : Nat := 36

/-- The value of an ASCII digit or letter; letters of both cases are the digits from ten on. -/
def charValue? (c : Char) : Option Nat :=
  let n := c.toNat
  if 0x30 ≤ n && n ≤ 0x39 then some (n - 0x30)
  else if 0x41 ≤ n && n ≤ 0x5A then some (n - 0x41 + 10)
  else if 0x61 ≤ n && n ≤ 0x7A then some (n - 0x61 + 10)
  else none

def digitValue? : Symbol → Option Nat
  | .char c => charValue? c
  | .stray _ => none

/-- The digit of a value below 36; letters are capitals. -/
def digitChar (d : Nat) : Char := Char.ofNat (if d < 10 then 0x30 + d else 0x37 + d)

/-- The value of a digit that was written is the value that it was written for. -/
theorem digitValue_digitChar {d : Nat} (h : d < maxRadix) :
    digitValue? (.char (digitChar d)) = some d := by
  have hall : ∀ e ∈ List.range maxRadix, digitValue? (.char (digitChar e)) = some e := by decide
  exact hall d (List.mem_range.mpr h)

def valueOf (base : Nat) (digits : List Nat) : Nat := digits.foldl (fun n d => n * base + d) 0

/-- The digits of `n` in `base` in front of `rest`; `fuel` bounds their number. -/
def digitsOnto (base : Nat) : Nat → Nat → List Nat → List Nat
  | 0, _, rest => rest
  | fuel + 1, n, rest =>
    if n < base then n :: rest else digitsOnto base fuel (n / base) (n % base :: rest)

def digits (base n : Nat) : List Nat := digitsOnto base (n + 1) n []

/-! ## Reading -/

/-- The symbol passes for a digit below `base`: its upper-case form is a single such digit. -/
def admits (base : Nat) (s : Symbol) : Bool :=
  match Text.upperSymbol s with
  | [u] =>
    match digitValue? u with
    | some v => v < base
    | none => false
  | _ => false

/-- In a base that is not a power of two, the length of a numeral is limited. -/
def isLimited (base : Nat) : Bool := !([2, 4, 8, 16, 32].elem base)

/--
The value of `digits` in `base`, or `none` if they are no numeral of that base.

A letter whose capital is a digit passes for a digit and has no value, so a text that holds
one fails. So does a text that is too long, and that is found first if the excess comes first.
-/
def readDigits (digits : Text) (base : Int) : Except Failure (Option Nat) :=
  if digits.isEmpty || base < 2 || (maxRadix : Int) < base then .ok none
  else if !digits.all (admits base.toNat) then .ok none
  else
    let values := (digits.takeWhile fun s => (digitValue? s).isSome).filterMap digitValue?
    if isLimited base.toNat && Text.digitLimit < values.length then
      .error (.tooManyDigits values.length)
    else if values.length < digits.length then .error (.foreignDigit digits base)
    else .ok (some (valueOf base.toNat values))

/-- The operand of a radix directive is decimal; what is no radix counts as ten. -/
def readRadix (operand : Text) : Except Failure Int := do
  match ← readDigits operand 10 with
  | some value => return if 2 ≤ value && value ≤ maxRadix then value else 10
  | none => return 10

/-! ## Writing -/

def digitText (base n : Nat) : Text := (digits base n).map fun d => .char (digitChar d)

def signText (value : Int) : Text := if value < 0 then [.char '-'] else []

/-- A number in decimal notation, which has no more than the permitted number of digits. -/
def decimalText (value : Int) : Except Failure Text :=
  let shown := digitText 10 value.natAbs
  if Text.digitLimit < shown.length then .error .numberTooLong
  else .ok (signText value ++ shown)

/-- A number in hexadecimal notation, filled with zeros after the sign to `width` places. -/
def hexText (width : Nat) (value : Int) : Text :=
  let sign := signText value
  let shown := digitText 16 value.natAbs
  sign ++ List.replicate (width - (sign.length + shown.length)) (.char '0') ++ shown

/-- A value that was read in `base`, for the target: decimal if it was written so or is a
single digit in both notations, otherwise hexadecimal with two places or at least four. -/
def render (value base : Int) : Except Failure Text :=
  if base = 10 || (value < 10 && value < base) then decimalText value
  else .ok (.char '$' :: hexText (if value < 0x100 then 2 else 4) value)

/-! ## Whole numerals -/

def markBase? (letter : Text) : Option Int :=
  let capital := Text.upper letter
  if capital = "D" then some 10
  else if capital = "O" then some 8
  else if capital = "H" then some 16
  else if capital = "B" then some 2
  else none

/-- The base and the digits of a source numeral; there are none after an unknown mark. -/
def split? (text : Text) (radix : Int) : Option (Int × Text) :=
  match text with
  | .char '^' :: rest => (markBase? (rest.take 1)).map (·, rest.drop 1)
  | _ => some (radix, text)

/-- A source numeral for the target; a text that is no numeral stays as it is. -/
def targetText (text : Text) (radix : Int) : Except Failure Text :=
  match split? text radix with
  | none => .ok text
  | some (base, digits) => do
    match ← readDigits digits base with
    | some value => render value base
    | none => return text

end Macro10.Numeral
