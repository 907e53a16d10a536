import Macro10.Toml.Value

/-!
# Scalars of a configuration file

Strings, numbers, days and times. Each reader takes the characters that are left and gives the
value and the characters after it.
-/

namespace Macro10.Toml

inductive Fault where
  | malformed
  | tooManyDigits (count : Nat)
deriving DecidableEq, Repr

def textOf (chars : List Char) : Text := chars.map .char

def isGap (c : Char) : Bool := c = ' ' || c = '\t'

/-- The characters without the blanks that they start with. -/
def skipGaps (chars : List Char) : List Char := chars.dropWhile isGap

/-- The character is a control that may stand neither in a string nor in a comment. -/
def isForbidden (c : Char) : Bool := (c.toNat < 0x20 && c ≠ '\t') || c.toNat = 0x7F

def isDecimal (c : Char) : Bool := '0' ≤ c && c ≤ '9'

def isHex (c : Char) : Bool := isDecimal c || ('a' ≤ c && c ≤ 'f') || ('A' ≤ c && c ≤ 'F')

/-- The number that some digits spell. -/
def spelled (base : Nat) (digits : List Char) : Nat :=
  Numeral.valueOf base (digits.filterMap Numeral.charValue?)

/-! ## Strings -/

/-- The rest of a string in single quotes on one line. -/
def literalString (chars : List Char) : Except Fault (Text × List Char) :=
  let body := chars.takeWhile (· ≠ '\'')
  match chars.dropWhile (· ≠ '\'') with
  | [] => .error .malformed
  | _ :: rest => if body.any isForbidden then .error .malformed else .ok (textOf body, rest)

/-- The characters before three quotes in a row, and those after them. -/
def splitTriple (quote : Char) : List Char → Option (List Char × List Char)
  | [] => none
  | c :: rest =>
    match rest with
    | b :: a :: after =>
      if c = quote && b = quote && a = quote then some ([], after)
      else (splitTriple quote rest).map fun (body, after) => (c :: body, after)
    | _ => none

/-- One or two quotes directly after three quotes belong to the string. -/
def takeQuotes (quote : Char) (body : Text) : List Char → Text × List Char
  | a :: b :: rest =>
    if a = quote then
      if b = quote then (body ++ [.char quote, .char quote], rest)
      else (body ++ [.char quote], b :: rest)
    else (body, a :: b :: rest)
  | [a] => if a = quote then (body ++ [.char quote], []) else (body, [a])
  | [] => (body, [])

/-- A line feed directly after three quotes does not belong to the string. -/
def dropFirstNewline : List Char → List Char
  | '\n' :: rest => rest
  | chars => chars

def multilineLiteral (chars : List Char) : Except Fault (Text × List Char) :=
  match splitTriple '\'' (dropFirstNewline chars) with
  | none => .error .malformed
  | some (body, rest) =>
    if body.any fun c => isForbidden c && c ≠ '\n' then .error .malformed
    else .ok (takeQuotes '\'' (textOf body) rest)

/-- What is being left out after a backslash at the end of a line. -/
inductive Trim where
  | nothing
  /-- Blanks up to the end of the line. -/
  | line
  /-- Blanks and line ends. -/
  | all
deriving DecidableEq, Repr

/-- The character that an escape of one letter stands for. -/
def escape? : Char → Option Char
  | 'b' => some '\x08'
  | 't' => some '\t'
  | 'n' => some '\n'
  | 'f' => some '\x0c'
  | 'r' => some '\r'
  | '"' => some '"'
  | '\\' => some '\\'
  | _ => none

/-- The character with the code point that the hexadecimal digits spell. -/
def scalar? (digits : List Char) : Option Char :=
  let n := spelled 16 digits
  if digits.all isHex && n ≤ 0x10FFFF && !(0xD800 ≤ n && n ≤ 0xDFFF) then some (Char.ofNat n)
  else none

/-- Puts a character in front of a text that was read. -/
def prepend (c : Char) (scan : Except Fault (Text × List Char)) :
    Except Fault (Text × List Char) :=
  scan.map fun (text, rest) => (.char c :: text, rest)

/-- The rest of a string in double quotes; `triple` if it ends with three of them. -/
def basicString (triple : Bool) (trim : Trim) : List Char → Except Fault (Text × List Char)
  | [] => .error .malformed
  | c :: rest =>
    if trim = .line && isGap c then basicString triple .line rest
    else if trim = .line && c = '\n' then basicString triple .all rest
    else if trim = .line then .error .malformed
    else if trim = .all && (isGap c || c = '\n') then basicString triple .all rest
    else if c = '"' then
      if triple then
        match rest with
        | '"' :: '"' :: after => .ok ([], after)
        | _ => prepend c (basicString triple .nothing rest)
      else .ok ([], rest)
    else if c = '\\' then
      match rest with
      | 'u' :: a :: b :: c :: d :: after =>
        match scalar? [a, b, c, d] with
        | some s => prepend s (basicString triple .nothing after)
        | none => .error .malformed
      | 'U' :: a :: b :: c :: d :: e :: f :: g :: h :: after =>
        match scalar? [a, b, c, d, e, f, g, h] with
        | some s => prepend s (basicString triple .nothing after)
        | none => .error .malformed
      | e :: after =>
        if triple && isGap e then basicString triple .line after
        else if triple && e = '\n' then basicString triple .all after
        else
          match escape? e with
          | some s => prepend s (basicString triple .nothing after)
          | none => .error .malformed
      | [] => .error .malformed
    else if isForbidden c && !(triple && c = '\n') then .error .malformed
    else prepend c (basicString triple .nothing rest)

def multilineBasic (chars : List Char) : Except Fault (Text × List Char) := do
  let (body, rest) ← basicString true .nothing (dropFirstNewline chars)
  return takeQuotes '"' body rest

/-! ## Numbers -/

/-- The digits that follow a digit, with single underscores between them left out, and the
characters after them. -/
def moreDigits (isDigit : Char → Bool) : List Char → List Char × List Char
  | [] => ([], [])
  | c :: rest =>
    if isDigit c then
      let (digits, after) := moreDigits isDigit rest
      (c :: digits, after)
    else
      match rest with
      | d :: after =>
        if c = '_' && isDigit d then
          let (digits, after) := moreDigits isDigit after
          (d :: digits, after)
        else ([], c :: rest)
      | [] => ([], [c])

/-- Digits that start with a digit. -/
def digitRun? (isDigit : Char → Bool) : List Char → Option (List Char × List Char)
  | c :: rest =>
    if isDigit c then
      let (digits, after) := moreDigits isDigit rest
      some (c :: digits, after)
    else none
  | [] => none

/-- A whole number with a mark for its base. -/
def markedInteger? : List Char → Option (Nat × List Char)
  | '0' :: 'x' :: rest => (digitRun? isHex rest).map fun (ds, after) => (spelled 16 ds, after)
  | '0' :: 'b' :: rest =>
    (digitRun? (fun c => c = '0' || c = '1') rest).map fun (ds, after) => (spelled 2 ds, after)
  | '0' :: 'o' :: rest =>
    (digitRun? (fun c => '0' ≤ c && c ≤ '7') rest).map fun (ds, after) => (spelled 8 ds, after)
  | _ => none

/-- A sign, if there is one: whether it is negative, and the characters after it. -/
def splitSign : List Char → Bool × List Char
  | '-' :: rest => (true, rest)
  | '+' :: rest => (false, rest)
  | chars => (false, chars)

/-- The digits of a whole number, which start with zero only if there are no others. -/
def wholeDigits? : List Char → Option (List Char × List Char)
  | '0' :: rest => some (['0'], rest)
  | chars => digitRun? isDecimal chars

def fractionDigits : List Char → List Char × List Char
  | '.' :: rest => (digitRun? isDecimal rest).getD ([], '.' :: rest)
  | chars => ([], chars)

def exponentPart : List Char → Option Int × List Char
  | c :: rest =>
    if c = 'e' || c = 'E' then
      let (negative, digits) := splitSign rest
      match digitRun? isDecimal digits with
      | some (ds, after) =>
        let n : Int := spelled 10 ds
        (some (if negative then -n else n), after)
      | none => (none, c :: rest)
    else (none, c :: rest)
  | [] => (none, [])

/-- The number of double precision that is spelled by digits before and after the point and by
an exponent. -/
def realOf (negative : Bool) (whole fraction : List Char) (exponent : Int) : Real :=
  let digits := (whole ++ fraction).dropWhile (· = '0')
  let power := exponent - fraction.length
  match Decimal.Double.ofDecimal? (spelled 10 digits) digits.length power with
  | some magnitude => .finite negative magnitude
  | none => .infinite negative

def decimal? (chars : List Char) : Option (Except Fault (Value × List Char)) :=
  let (negative, unsigned) := splitSign chars
  (wholeDigits? unsigned).map fun (whole, rest) =>
    let (fraction, rest) := fractionDigits rest
    let (exponent, rest) := exponentPart rest
    if fraction.isEmpty && exponent.isNone then
      if Text.digitLimit < whole.length then .error (.tooManyDigits whole.length)
      else
        let n : Int := spelled 10 whole
        .ok (.integer (if negative then -n else n), rest)
    else .ok (.real (realOf negative whole fraction (exponent.getD 0)), rest)

/-- A number that is spelled in letters. -/
def specialReal? (chars : List Char) : Option (Value × List Char) :=
  let (negative, unsigned) := splitSign chars
  match unsigned with
  | 'i' :: 'n' :: 'f' :: rest => some (.real (.infinite negative), rest)
  | 'n' :: 'a' :: 'n' :: rest => some (.real .notANumber, rest)
  | _ => none

/-! ## Days and times -/

/-- Two decimal digits that spell a number between the bounds. -/
def twoDigits? (lo hi : Nat) (a b : Char) : Option Nat :=
  let n := spelled 10 [a, b]
  if isDecimal a && isDecimal b && lo ≤ n && n ≤ hi then some n else none

/-- A day, if there is one in form; it need not be one of the calendar. -/
def date? : List Char → Option (Date × List Char)
  | y1 :: y2 :: y3 :: y4 :: '-' :: m1 :: m2 :: '-' :: d1 :: d2 :: rest => do
    if !([y1, y2, y3, y4].all isDecimal) then none
    let month ← twoDigits? 1 12 m1 m2
    let day ← twoDigits? 1 31 d1 d2
    return (⟨spelled 10 [y1, y2, y3, y4], month, day⟩, rest)
  | _ => none

def daysIn (year month : Nat) : Nat :=
  if month = 2 then
    if year % 4 = 0 && (year % 100 ≠ 0 || year % 400 = 0) then 29 else 28
  else if [4, 6, 9, 11].elem month then 30 else 31

def Date.isValid (d : Date) : Bool := 1 ≤ d.year && d.day ≤ daysIn d.year d.month

/-- The fraction of a second in microseconds; further digits are left out. -/
def microseconds : List Char → Nat × List Char
  | '.' :: rest =>
    let digits := rest.takeWhile isDecimal
    if digits.isEmpty then (0, '.' :: rest)
    else (spelled 10 ((digits ++ List.replicate 6 '0').take 6), rest.dropWhile isDecimal)
  | chars => (0, chars)

def time? : List Char → Option (Time × List Char)
  | h1 :: h2 :: ':' :: m1 :: m2 :: ':' :: s1 :: s2 :: rest => do
    let hour ← twoDigits? 0 23 h1 h2
    let minute ← twoDigits? 0 59 m1 m2
    let second ← twoDigits? 0 59 s1 s2
    let (microsecond, rest) := microseconds rest
    return (⟨hour, minute, second, microsecond⟩, rest)
  | _ => none

/-- An offset from universal time, if there is one. -/
def offset : List Char → Option Int × List Char
  | 'Z' :: rest | 'z' :: rest => (some 0, rest)
  | sign :: h1 :: h2 :: ':' :: m1 :: m2 :: rest =>
    match twoDigits? 0 23 h1 h2, twoDigits? 0 59 m1 m2 with
    | some hours, some minutes =>
      let total : Int := 60 * hours + minutes
      if sign = '+' then (some total, rest)
      else if sign = '-' then (some (-total), rest)
      else (none, sign :: h1 :: h2 :: ':' :: m1 :: m2 :: rest)
    | _, _ => (none, sign :: h1 :: h2 :: ':' :: m1 :: m2 :: rest)
  | chars => (none, chars)

/-- A time that may follow a day. -/
def timeAfterDate? : List Char → Option (Time × Option Int × List Char)
  | c :: rest =>
    if c = 'T' || c = 't' || c = ' ' then
      (time? rest).map fun (t, rest) =>
        let (zone, rest) := offset rest
        (t, zone, rest)
    else none
  | [] => none

/-- A day, or a day and a time. -/
def moment? (chars : List Char) : Option (Except Fault (Value × List Char)) :=
  (date? chars).map fun (d, rest) =>
    if !d.isValid then .error .malformed
    else
      match timeAfterDate? rest with
      | some (t, zone, rest) => .ok (.dateTime d t zone, rest)
      | none => .ok (.date d, rest)

/-! ## Scalars -/

/-- A value that is neither a list nor a table. -/
def scalar (chars : List Char) : Except Fault (Value × List Char) :=
  match chars with
  | '"' :: '"' :: '"' :: rest => (multilineBasic rest).map fun (t, rest) => (.string t, rest)
  | '"' :: rest => (basicString false .nothing rest).map fun (t, rest) => (.string t, rest)
  | '\'' :: '\'' :: '\'' :: rest => (multilineLiteral rest).map fun (t, rest) => (.string t, rest)
  | '\'' :: rest => (literalString rest).map fun (t, rest) => (.string t, rest)
  | 't' :: 'r' :: 'u' :: 'e' :: rest => .ok (.boolean true, rest)
  | 'f' :: 'a' :: 'l' :: 's' :: 'e' :: rest => .ok (.boolean false, rest)
  | _ =>
    match moment? chars with
    | some scan => scan
    | none =>
      match time? chars with
      | some (t, rest) => .ok (.time t, rest)
      | none =>
        match markedInteger? chars with
        | some (n, rest) => .ok (.integer n, rest)
        | none =>
          match decimal? chars with
          | some scan => scan
          | none =>
            match specialReal? chars with
            | some found => .ok found
            | none => .error .malformed

end Macro10.Toml
