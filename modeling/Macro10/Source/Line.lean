import Macro10.Text.Basic

/-!
# Lines

A text falls into lines. A line ends with a line feed, a carriage return or the two together,
and the last line has no terminator. No other character ends a line.

Main statement: the lines of a text, written one after another, are the text (`flatten_split`).
-/

namespace Macro10

inductive Terminator where
  | lineFeed
  | carriageReturn
  | both
deriving DecidableEq, Repr

namespace Terminator

def text : Terminator → Text
  | lineFeed => [.char '\n']
  | carriageReturn => [.char '\r']
  | both => [.char '\r', .char '\n']

end Terminator

/-- A line: its content and the terminator that follows, which only the last line lacks. -/
structure Line where
  content : Text
  terminator : Option Terminator
deriving DecidableEq, Repr

namespace Line

/-- The terminator's characters, none for the last line. -/
def ending (line : Line) : Text := (line.terminator.map Terminator.text).getD []

def text (line : Line) : Text := line.content ++ line.ending

/-- Puts a symbol in front of the first of some lines. -/
def consFirst (s : Symbol) : List Line → List Line
  | [] => [⟨[s], none⟩]
  | line :: rest => { line with content := s :: line.content } :: rest

/-- The lines of a text. There is at least one, and exactly the last has no terminator. -/
def split : Text → List Line
  | [] => [⟨[], none⟩]
  | .char '\r' :: .char '\n' :: rest => ⟨[], some .both⟩ :: split rest
  | .char '\r' :: rest => ⟨[], some .carriageReturn⟩ :: split rest
  | .char '\n' :: rest => ⟨[], some .lineFeed⟩ :: split rest
  | s :: rest => consFirst s (split rest)

def flatten (lines : List Line) : Text := lines.flatMap text

theorem flatten_consFirst (s : Symbol) (lines : List Line) :
    flatten (consFirst s lines) = s :: flatten lines := by
  cases lines with
  | nil => rfl
  | cons line rest => simp [consFirst, flatten, text, ending]

/-- **The lines of a text, written one after another, are the text.** -/
theorem flatten_split (t : Text) : flatten (split t) = t := by
  fun_induction split t with
  | case1 => rfl
  | case2 rest ih => simpa [flatten, text, ending, Terminator.text] using ih
  | case3 rest _ ih => simpa [flatten, text, ending, Terminator.text] using ih
  | case4 rest ih => simpa [flatten, text, ending, Terminator.text] using ih
  | case5 s rest _ _ _ ih => rw [flatten_consFirst, ih]

/-- The terminator that a text's own lines use: that of the first line that a line feed ends,
with or without a carriage return, and a plain line feed if there is none. -/
def newline (lines : List Line) : Text :=
  match lines.find? fun line =>
    line.terminator = some .both || line.terminator = some .lineFeed with
  | some line => line.ending
  | none => Terminator.lineFeed.text

end Line

end Macro10
