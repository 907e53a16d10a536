import Macro10.Numeral.Basic
import Macro10.Token

/-!
# Numerals among tokens

A freshly read token may be a numeral: a digit string always is meant as one, and a name is one
if a `^` stands directly before it and its first letter is a radix mark. `Numeral.judge` decides
what becomes of such a token, and knows nothing of where the token stands.
-/

namespace Macro10.Numeral

inductive Verdict where
  /-- It is no numeral and was not meant as one. -/
  | unconcerned
  /-- It is a digit string that is no numeral in its radix, and keeps its text. -/
  | refused (problem : Problem)
  /-- It is a digit string and becomes `text`. -/
  | converted (text : Text)
  /-- It looks like a marked numeral and is none; it stays a name. -/
  | refusedMark (problem : Problem)
  /-- It is a marked numeral and becomes `text`; its `^` is no longer needed. -/
  | convertedMark (text : Text)
deriving DecidableEq, Repr

namespace Verdict

/-- The number that the token with the given text becomes, or is meant as. -/
@[simp]
def number? (text : Text) : Verdict → Option Text
  | converted new | convertedMark new => some new
  | refused _ => some text
  | unconcerned | refusedMark _ => none

/-- What is to be reported. -/
@[simp]
def problem? : Verdict → Option Problem
  | refused problem | refusedMark problem => some problem
  | unconcerned | converted _ | convertedMark _ => none

/-- The `^` before the token is blanked out. -/
@[simp]
def takesMark : Verdict → Bool
  | convertedMark _ => true
  | _ => false

end Verdict

/-- A digit string read in `radix`. A hexadecimal numeral of the target is left alone. -/
def judgeNumber (text : Text) (radix : Int) : Except Failure Verdict :=
  match text with
  | .char '$' :: _ => .ok .unconcerned
  | _ => do
    let new ← targetText text radix
    if new = text && (← readDigits text radix).isNone then
      return .refused (.badNumeral text radix)
    return .converted new

/-- A name that stands directly after a `^`. -/
def judgeMarked (text : Text) (radix : Int) : Except Failure Verdict :=
  match text with
  | letter :: digit :: rest =>
    match markBase? [letter] with
    | none => .ok .unconcerned
    | some base => do
      if (← readDigits (digit :: rest) base).isNone then
        return .refusedMark (.badMarkedNumeral text base)
      return .convertedMark (← targetText (.char '^' :: text) radix)
  | _ => .ok .unconcerned

/-- What becomes of a token of the given kind and text; `afterMark` says that a `^` stands
directly before it. -/
def judge (kind : Kind) (text : Text) (afterMark : Bool) (radix : Int) : Except Failure Verdict :=
  match kind with
  | .number => judgeNumber text radix
  | .identifier => if afterMark then judgeMarked text radix else .ok .unconcerned
  | _ => .ok .unconcerned

end Macro10.Numeral
