import Macro10.Text.Basic
import Macro10.Text.Printable

/-!
# Texts on display

Two ways to show a text to a reader:

* `quoted` puts it between quotes and escapes what could be misread: the quote itself, the
  backslash, and every character that is not printable. The quote is `'`, unless the text holds
  a `'` and no `"`.
* `shown` leaves it as it is, stray bytes apart, which have no characters of their own.

A stray byte is written as the code point that stands for it in texts elsewhere, which is
U+DC00 plus the byte.
-/

namespace Macro10.Text

/-- The lower-case hexadecimal digit of a value below sixteen. -/
def hexDigit (n : Nat) : Char := Char.ofNat (if n < 10 then 0x30 + n else 0x57 + n)

/-- The last `width` hexadecimal digits of `n`. -/
def hexField : Nat → Nat → Text
  | 0, _ => []
  | width + 1, n => hexField width (n / 16) ++ [.char (hexDigit (n % 16))]

/-- The escape of a code point: two, four or eight hexadecimal digits. -/
def escapePoint (n : Nat) : Text :=
  if n < 0x100 then "\\x" ++ hexField 2 n
  else if n < 0x10000 then "\\u" ++ hexField 4 n
  else "\\U" ++ hexField 8 n

def escapeStray (b : UInt8) : Text := escapePoint (0xDC00 + b.toNat)

/-- A character within quotes of the kind `mark`. -/
def escapeChar (mark c : Char) : Text :=
  if c = mark || c = '\\' then ("\\" : Text) ++ [.char c]
  else if c = '\t' then "\\t"
  else if c = '\n' then "\\n"
  else if c = '\r' then "\\r"
  else if isPrintable c then [.char c]
  else escapePoint c.toNat

/-- A symbol within quotes of the kind `mark`. -/
def escapeSymbol (mark : Char) : Symbol → Text
  | .char c => escapeChar mark c
  | .stray b => escapeStray b

/-- The quote that a text is displayed with. -/
def quoteMark (t : Text) : Char :=
  if t.elem (.char '\'') && !t.elem (.char '"') then '"' else '\''

def quoted (t : Text) : Text :=
  .char (quoteMark t) :: t.flatMap (escapeSymbol (quoteMark t)) ++ [.char (quoteMark t)]

/-- The text as it is, with the stray bytes escaped. -/
def shown (t : Text) : String :=
  String.ofList <| t.flatMap fun
    | .char c => [c]
    | .stray b => (escapeStray b).filterMap fun
      | .char c => some c
      | .stray _ => none

end Macro10.Text
