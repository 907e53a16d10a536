import Macro10.Text.Basic

/-!
# UTF-8 with stray bytes

`decode` reads the bytes of a file as characters. Where no well-formed character starts, one
byte is taken as a stray byte and reading goes on after it. `encode` writes characters in UTF-8
and stray bytes as they are.
-/

namespace Macro10.Text

/-- The byte goes on a character of several bytes. -/
def isContinuation (b : UInt8) : Bool := 0x80 ≤ b && b < 0xC0

/-- The six bits that a continuation byte carries. -/
def payload (b : UInt8) : Nat := b.toNat % 0x40

/-- The character with code point `n`, if `n` lies between the bounds and is one. -/
def charBetween? (lo hi n : Nat) : Option Char :=
  if lo ≤ n && n ≤ hi && !(0xD800 ≤ n && n ≤ 0xDFFF) then some (Char.ofNat n) else none

/-- The character at the start of the bytes and how many bytes it takes. -/
def firstChar? : List UInt8 → Option (Char × Nat)
  | [] => none
  | a :: rest =>
    if a < 0x80 then some (Char.ofNat a.toNat, 1)
    else if a < 0xC0 then none
    else if a < 0xE0 then
      match rest with
      | b :: _ =>
        if isContinuation b then
          (charBetween? 0x80 0x7FF (a.toNat % 0x20 * 0x40 + payload b)).map (·, 2)
        else none
      | _ => none
    else if a < 0xF0 then
      match rest with
      | b :: c :: _ =>
        if isContinuation b && isContinuation c then
          (charBetween? 0x800 0xFFFF (a.toNat % 0x10 * 0x1000 + payload b * 0x40 + payload c)).map
            (·, 3)
        else none
      | _ => none
    else if a < 0xF8 then
      match rest with
      | b :: c :: d :: _ =>
        if isContinuation b && isContinuation c && isContinuation d then
          (charBetween? 0x10000 0x10FFFF
            (a.toNat % 0x08 * 0x40000 + payload b * 0x1000 + payload c * 0x40 + payload d)).map
            (·, 4)
        else none
      | _ => none
    else none

/-- Reads the bytes after the first `taken`, which belong to a character already read. -/
def decodeAfter : Nat → List UInt8 → Text
  | _, [] => []
  | taken + 1, _ :: rest => decodeAfter taken rest
  | 0, b :: rest =>
    match firstChar? (b :: rest) with
    | some (c, size) => .char c :: decodeAfter (size - 1) rest
    | none => .stray b :: decodeAfter 0 rest

def decode (bytes : List UInt8) : Text := decodeAfter 0 bytes

def encodeSymbol : Symbol → List UInt8
  | .char c => String.utf8EncodeChar c
  | .stray b => [b]

def encode (t : Text) : List UInt8 := t.flatMap encodeSymbol

@[simp]
theorem encode_nil : encode [] = [] := rfl

@[simp]
theorem encode_append (t u : Text) : encode (t ++ u) = encode t ++ encode u := by
  simp [encode]

end Macro10.Text
