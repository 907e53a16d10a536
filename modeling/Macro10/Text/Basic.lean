/-!
# Texts

A text is a list of symbols: Unicode characters and *stray* bytes, which are bytes of a file that
belong to no character. They are carried along so that any file can be read, edited and written back
without loss. A stray byte is neither a letter, nor a digit, nor a blank, and takes one column.
-/

namespace Macro10

/-- One position of a text: a character, or a byte that is part of no character. -/
inductive Symbol where
  | char (c : Char)
  | stray (b : UInt8)
deriving DecidableEq, Repr, Inhabited

/-- A text is a list of symbols; lengths and columns count symbols. -/
abbrev Text := List Symbol

instance : Coe Char Symbol := ⟨Symbol.char⟩

namespace Symbol

def is (s : Symbol) (c : Char) : Bool := s == .char c

@[simp]
theorem is_iff {s : Symbol} {c : Char} : s.is c = true ↔ s = .char c := by
  simp [is]

def isDigit : Symbol → Bool
  | .char c => '0' ≤ c && c ≤ '9'
  | .stray _ => false

@[simp]
theorem isDigit_stray (b : UInt8) : (stray b).isDigit = false := rfl

end Symbol

namespace Text

/-- The text of the characters of a string. -/
def ofString (s : String) : Text := s.toList.map .char

instance : Coe String Text := ⟨ofString⟩

def toString? : Text → Option String := fun t =>
  let chars := t.filterMap fun
    | .char c => some c
    | .stray _ => none
  if chars.length = t.length then some (String.ofList chars) else none

/-- Every `old` of the text is replaced by `new`. -/
def replaceSymbol (old new : Symbol) (t : Text) : Text :=
  t.map fun s => if s = old then new else s

/-- `part` occurs somewhere in the text. -/
def contains (part : Text) : Text → Bool
  | [] => part.isEmpty
  | s :: t => part.isPrefixOf (s :: t) || contains part t

/-- Texts joined with a separator between neighbours. -/
def join (separator : Text) (parts : List Text) : Text := (parts.intersperse separator).flatten

def endsWith (t : Text) (s : Symbol) : Bool := t.getLast? == some s

end Text

end Macro10
