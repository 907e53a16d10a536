import Macro10.Decimal.Shortest
import Macro10.Numeral.Basic

/-!
# Configuration values

The values that a configuration file in TOML can give to a key, and their text where a value
that is no string is used as a name. A string is its own text; within a list it stands between
quotes.
-/

namespace Macro10.Toml

inductive Real where
  | finite (negative : Bool) (magnitude : Decimal.Double)
  | infinite (negative : Bool)
  | notANumber
deriving DecidableEq, Repr

structure Date where
  year : Nat
  month : Nat
  day : Nat
deriving DecidableEq, Repr

structure Time where
  hour : Nat
  minute : Nat
  second : Nat
  microsecond : Nat
deriving DecidableEq, Repr

inductive Value where
  | string (text : Text)
  | integer (n : Int)
  | real (x : Real)
  | boolean (b : Bool)
  | date (d : Date)
  | time (t : Time)
  /-- A day and a time, with the offset from universal time in minutes if it is given. -/
  | dateTime (d : Date) (t : Time) (offset : Option Int)
  | array (items : List Value)
  | table (entries : List (Text × Value))
deriving Repr

/-- The entries of a table in the order in which they were given. -/
abbrev Table := List (Text × Value)

def Table.get? (t : Table) (key : Text) : Option Value := t.lookup key

/-! ## Texts of values -/

/-- A number with at least `width` digits. -/
def padded (width n : Nat) : Text :=
  let digits := Text.ofNat n
  List.replicate (width - digits.length) (.char '0') ++ digits

/-- Numbers one after another with commas between them. -/
def commaList (numbers : List Nat) : Text :=
  Text.join ", " (numbers.map Text.ofNat)

def Real.text : Real → Text
  | finite negative magnitude =>
    (if negative then ("-" : Text) else []) ++ Decimal.notate magnitude
  | infinite negative => if negative then "-inf" else "inf"
  | notANumber => "nan"

def Date.text (d : Date) : Text :=
  padded 4 d.year ++ "-" ++ padded 2 d.month ++ "-" ++ padded 2 d.day

def Time.text (t : Time) : Text :=
  padded 2 t.hour ++ (":" : Text) ++ padded 2 t.minute ++ (":" : Text) ++
    padded 2 t.second ++
    if t.microsecond = 0 then [] else ("." : Text) ++ padded 6 t.microsecond

def offsetText : Option Int → Text
  | none => []
  | some minutes =>
    (if minutes < 0 then Text.ofString "-" else Text.ofString "+") ++
      padded 2 (minutes.natAbs / 60) ++ ":" ++ padded 2 (minutes.natAbs % 60)

/-- The numbers of a time without the zeros at its end. -/
def Time.numbers (t : Time) : List Nat :=
  if t.microsecond ≠ 0 then [t.hour, t.minute, t.second, t.microsecond]
  else if t.second ≠ 0 then [t.hour, t.minute, t.second]
  else [t.hour, t.minute]

def Date.numbers (d : Date) : List Nat := [d.year, d.month, d.day]

/-- An offset within a list. -/
def offsetTerm : Option Int → Text
  | none => []
  | some minutes =>
    let term : Text :=
      if minutes = 0 then "datetime.timezone.utc"
      else
        let delta : Text :=
          if minutes < 0 then
            "days=-1, seconds=" ++ Text.ofInt (86400 + 60 * minutes)
          else "seconds=" ++ Text.ofInt (60 * minutes)
        "datetime.timezone(datetime.timedelta(" ++ delta ++ "))"
    ", tzinfo=" ++ term

def Date.term (d : Date) : Text :=
  "datetime.date(" ++ commaList d.numbers ++ ")"

def Time.term (t : Time) : Text :=
  "datetime.time(" ++ commaList t.numbers ++ ")"

namespace Value

mutual

/-- The text of a value within a list. -/
def term : Value → Except Failure Text
  | string text => .ok (Text.quoted text)
  | integer n => Numeral.decimalText n
  | real x => .ok x.text
  | boolean b => .ok (if b then "True" else "False")
  | date d => .ok d.term
  | time t => .ok t.term
  | dateTime d t offset =>
    .ok ("datetime.datetime(" ++ commaList (d.numbers ++ t.numbers) ++
      offsetTerm offset ++ ")")
  | array items => do
    let terms ← itemTerms items
    return "[" ++ Text.join ", " terms ++ "]"
  | table entries => do
    let terms ← entryTerms entries
    return "\x7b" ++ Text.join ", " terms ++ "\x7d"

/-- The texts of the values of a list. -/
def itemTerms : List Value → Except Failure (List Text)
  | [] => .ok []
  | item :: rest => do
    let first ← term item
    return first :: (← itemTerms rest)

/-- The texts of the entries of a table. -/
def entryTerms : List (Text × Value) → Except Failure (List Text)
  | [] => .ok []
  | (key, value) :: rest => do
    let first ← term value
    return (Text.quoted key ++ ": " ++ first) :: (← entryTerms rest)

end

/-- The text of a value that is used as a name. -/
def text : Value → Except Failure Text
  | string text => .ok text
  | date d => .ok d.text
  | time t => .ok t.text
  | dateTime d t offset => .ok (d.text ++ " " ++ t.text ++ offsetText offset)
  | value => value.term

end Value

end Macro10.Toml
