import Macro10.Document.Basic
import Macro10.Numeral.Reading
import Macro10.Source.Lexeme
import Macro10.Source.Segment

/-!
# Reading a source

The source is read line by line. From one line to the next the reader keeps the radix in force, the
groups that are open, and, within a comment block, the marker that ends it. The pieces of the group
that is being read are kept last one first.
-/

namespace Macro10

/-- A group that is open: where it starts, and the pieces before it, last one first. -/
structure Frame where
  position : Position
  before : Forest
deriving DecidableEq, Repr

/-- A radix directive that took effect. -/
structure RadixChange where
  line : Nat
  radix : Int
deriving DecidableEq, Repr

/-- What is known after some lines of a source. -/
structure Reader where
  /-- The radix in force; there may be none until a directive sets one. -/
  radix : Option Int
  /-- The pieces of the innermost open group, last one first. -/
  scope : Forest := .nil
  /-- The open groups, innermost first. -/
  frames : List Frame := []
  diagnostics : List Diagnostic := []
  changes : List RadixChange := []
deriving DecidableEq, Repr

/-- Why reading stopped, and the radix directives that took effect before. -/
structure Interruption where
  cause : Failure
  changes : List RadixChange
deriving DecidableEq, Repr

namespace Reader

/-! ## Pieces -/

def put (r : Reader) (kind : Kind) (text : Text) (position : Position) : Reader :=
  { r with scope := .leaf kind text position r.scope }

def report (r : Reader) (problem : Problem) (position : Position) (length : Int)
    (severity : Severity) : Reader :=
  { r with diagnostics := r.diagnostics ++ [⟨problem, position, severity, length⟩] }

def afterMark (r : Reader) : Bool :=
  match r.scope with
  | .leaf .operator [.char '^'] _ _ => true
  | _ => false

def blankLast (r : Reader) : Reader :=
  match r.scope with
  | .leaf _ _ position rest => { r with scope := .leaf .whitespace [] position rest }
  | _ => r

/-- Adds a token that may be a numeral. -/
def settle (r : Reader) (kind : Kind) (text : Text) (position : Position)
    (verdict : Numeral.Verdict) : Reader :=
  let r := if verdict.takesMark then r.blankLast else r
  let r :=
    match verdict.problem? with
    | some problem => r.report problem position text.length .warning
    | none => r
  match verdict.number? text with
  | some new => r.put .number new position
  | none => r.put kind text position

/-- The radix of a digit string; a point after it makes it decimal. -/
def radixOf (r : Reader) (point : Bool) : Except Failure Int :=
  if point then .ok 10
  else
    match r.radix with
    | some radix => .ok radix
    | none => .error .noRadix

/-- The verdict on a name. Only its own mark tells its base. -/
def judgeName (r : Reader) (text : Text) : Except Failure Numeral.Verdict :=
  Numeral.judge .identifier text r.afterMark (r.radix.getD Numeral.defaultRadix)

def readLexeme (r : Reader) (position : Position) : Lexeme → Except Failure Reader
  | .comment text => .ok (r.put .comment text position)
  | .string text true => .ok (r.put .string text position)
  | .string text false =>
    .ok ((r.report .unterminatedString position 1 .warning).put .string text position)
  | .blank text => .ok (r.put .whitespace text position)
  | .operator text => .ok (r.put .operator text position)
  | .digits text point => do
    let verdict ← Numeral.judge .number text r.afterMark (← r.radixOf point)
    return r.settle .number text position verdict
  | .name text => do
    let verdict ← r.judgeName text
    return r.settle .identifier text position verdict

/-- Adds lexemes that stand one after another. -/
def readLexemes (r : Reader) (line column : Nat) : List Lexeme → Except Failure Reader
  | [] => .ok r
  | lexeme :: rest => do
    let r ← r.readLexeme ⟨line, column⟩ lexeme
    r.readLexemes line (column + lexeme.source.length) rest

/-- Adds a stretch of a line without brackets. -/
def readCode (r : Reader) (line column : Nat) (text : Text) : Except Failure Reader :=
  r.readLexemes line column (Lexeme.lexemes text)

/-! ## Groups -/

def openGroup (r : Reader) (position : Position) : Reader :=
  { r with scope := .nil, frames := ⟨position, r.scope⟩ :: r.frames }

/-- Closes the innermost group; a closing bracket outside all groups is reported. -/
def closeGroup (r : Reader) (position : Position) : Reader :=
  match r.frames with
  | [] => r.report .unmatchedClose position 1 .warning
  | frame :: frames =>
    { r with scope := .group frame.position true r.scope.reverse frame.before, frames }

/-- Ends the groups that are still open, innermost first. -/
def endGroups (r : Reader) : List Frame → Reader
  | [] => { r with frames := [] }
  | frame :: frames =>
    let r := r.report .neverClosed frame.position 1 .warning
    { r with scope := .group frame.position false r.scope.reverse frame.before }.endGroups frames

/-! ## Lines -/

/-- Adds the terminator of a line, which stands in the given column. -/
def putTerminator (r : Reader) (number column : Nat) : Option Terminator → Reader
  | none => r
  | some terminator => r.put .whitespace terminator.text ⟨number, column⟩

def putCommentLine (r : Reader) (number : Nat) (line : Line) : Reader :=
  (r.put .comment (.char ';' :: line.content) ⟨number, 1⟩).putTerminator number
    (line.content.length + 1) line.terminator

/-- Adds a line of a comment block. What follows the last terminator of the source is a line
only if it is not empty. -/
def putBlockLine (r : Reader) (number : Nat) (line : Line) : Reader :=
  if line.content.isEmpty && line.terminator.isNone then r else r.putCommentLine number line

/-- The start of the line after the given one; after the last line, its end. -/
def positionAfter (number : Nat) (line : Line) : Position :=
  if line.terminator.isSome then ⟨number + 1, 1⟩ else ⟨number, line.content.length + 1⟩

def setRadix (r : Reader) (number : Nat) (line : Line) (operand : Text) :
    Except Failure Reader := do
  let radix ← Numeral.readRadix operand
  let value? ← Numeral.readDigits operand 10
  let r :=
    if value?.map Int.ofNat = some radix then r
    else r.report (.badRadix operand radix) ⟨number, 1⟩ (Text.trimEnd line.content).length .info
  return { r with radix := some radix, changes := r.changes ++ [⟨number, radix⟩] }

/-- Ends a line with its last segment. The answer says which marker ends the comment block that
the line opens, if it opens one; `later` are the lines to come. -/
def endLine (r : Reader) (number : Nat) (line : Line) (later : List Line) (segment : Segment) :
    Except Failure (Reader × Option Text) :=
  match LineClass.ofSegment segment with
  | .commentBlock marker =>
    let r := r.putCommentLine number line
    let r :=
      if later.any fun l => Text.contains marker l.content then r
      else r.report (.blockNeverClosed marker) (positionAfter number line) 1 .warning
    .ok (r, some marker)
  | .setRadix operand => do
    let r ← r.setRadix number line operand
    return (r.putCommentLine number line, none)
  | .suppressed => .ok (r.putCommentLine number line, none)
  | .code => do
    let r ← r.readCode number segment.column segment.text
    return (r.putTerminator number segment.stopColumn line.terminator, none)

def readSegments (r : Reader) (number : Nat) (line : Line) (later : List Line) :
    List Segment → Except Failure (Reader × Option Text)
  | [] => .ok (r, none)
  | segment :: rest =>
    match segment.stop with
    | .opening => do
      let r ← r.readCode number segment.column segment.text
      (r.openGroup ⟨number, segment.stopColumn⟩).readSegments number line later rest
    | .closing => do
      let r ← r.readCode number segment.column segment.text
      (r.closeGroup ⟨number, segment.stopColumn⟩).readSegments number line later rest
    | .lineEnd => r.endLine number line later segment

/-- Reads lines, the first of which has the given number; within a comment block, `marker` ends
it. A line that cannot be read changes no radix. -/
def readLines (r : Reader) (number : Nat) (marker : Option Text) :
    List Line → Except Interruption Reader
  | [] => .ok r
  | line :: later =>
    match marker with
    | some m =>
      (r.putBlockLine number line).readLines (number + 1)
        (if Text.contains m line.content then none else some m) later
    | none =>
      match r.readSegments number line later (Segment.segments line.content) with
      | .ok (r, marker) => r.readLines (number + 1) marker later
      | .error cause => .error ⟨cause, r.changes⟩

end Reader

/-! ## Sources -/

/-- A source that was read: its document, and what became of the radix. -/
structure Reading where
  document : Document
  radix : Option Int
  /-- The radix directives that took effect, in order. -/
  changes : List RadixChange
deriving DecidableEq, Repr

/-- Reads a source whose numerals are in the given radix until a directive sets another. Without
a radix, reading stops at the first numeral that needs one. -/
def Reading.ofSource (source : Text) (radix : Option Int) : Except Interruption Reading := do
  let lines := Line.split source
  let r ← ({ radix } : Reader).readLines 1 none lines
  let r := r.endGroups r.frames
  return { document := .ofForest r.scope.reverse (Line.newline lines) r.diagnostics,
           radix := r.radix, changes := r.changes }

end Macro10
