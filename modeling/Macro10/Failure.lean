import Macro10.Text.Quoted
import Macro10.Text.Integer

/-!
# Failures

Malformed source text never stops a conversion: it is reported and kept as it is. What can stop
an operation is listed here. Only `tooManyDigits` can come out of converting a text in a given
radix; the other causes need a document that no text has, or a number given by the caller.
-/

namespace Macro10

inductive Failure where
  | noSuchToken
  /-- A numeral has `count` digits, more than are read in a base that is not a power of two. -/
  | tooManyDigits (count : Nat)
  /-- A number has more decimal digits than are written. -/
  | numberTooLong
  /-- `digits` holds a letter that has a digit for its capital and is no digit itself. -/
  | foreignDigit (digits : Text) (base : Int)
  /-- A directive names a body that is not among its arguments. -/
  | bodyNotListed (body : Nat)
  | noChildren
  /-- A token was to be put into one that holds none. -/
  | notContainer
  | noRadix
  | endless
deriving DecidableEq, Repr

/-- A number in decimal notation. -/
def Text.ofInt (n : Int) : Text := Text.ofString (toString n)

/-- A natural number in decimal notation. -/
def Text.ofNat (n : Nat) : Text := Text.ofString (toString n)

namespace Failure

def message : Failure → Text
  | noSuchToken => "list index out of range"
  | tooManyDigits count =>
    "Exceeds the limit (" ++ Text.ofNat Text.digitLimit ++
      " digits) for integer string conversion: value has " ++ Text.ofNat count ++
      " digits; use sys.set_int_max_str_digits() to increase the limit"
  | numberTooLong =>
    "Exceeds the limit (" ++ Text.ofNat Text.digitLimit ++
      " digits) for integer string conversion; " ++
      "use sys.set_int_max_str_digits() to increase the limit"
  | foreignDigit digits base =>
    "invalid literal for int() with base " ++ Text.ofInt base ++
      ": " ++ (Text.quoted digits).take 200
  | bodyNotListed body => Text.ofNat body ++ " is not in list"
  | noChildren => "'NoneType' object is not iterable"
  | notContainer => "'NoneType' object has no attribute 'append'"
  | noRadix => "'<=' not supported between instances of 'int' and 'list'"
  | endless => "maximum recursion depth exceeded"

end Failure

end Macro10
