import Macro10.Failure
import Macro10.Source.Line

/-!
# Diagnostics

Conversion never gives up on bad input. Each place where it had to keep something as it is
becomes a diagnostic: a problem, a position in the source, a severity and the number of columns
concerned.

`Diagnostic.report` shows a diagnostic below its source line.
-/

namespace Macro10

/-- A place in the source; lines and columns count from one. -/
structure Position where
  line : Int
  column : Int
deriving DecidableEq, Repr

inductive Severity where
  | warning
  | info
deriving DecidableEq, Repr

def Severity.word : Severity → Text
  | warning => "warning"
  | info => "info"

def Severity.ofWord? (word : Text) : Option Severity :=
  [warning, info].find? fun severity => severity.word = word

inductive Problem where
  | unmatchedClose
  | neverClosed
  | unterminatedString
  /-- A comment block whose marker does not come again. -/
  | blockNeverClosed (marker : Text)
  /-- A digit string that is no numeral in the radix in force. -/
  | badNumeral (text : Text) (radix : Int)
  /-- A marked numeral that is none in the base of its mark. -/
  | badMarkedNumeral (text : Text) (base : Int)
  /-- The operand of a radix directive is no radix. -/
  | badRadix (operand : Text) (used : Int)
  | noOperand (mnemonic : Text)
  | noMessage
  /-- A problem that the caller put into words. -/
  | other (words : Text)
deriving DecidableEq, Repr

namespace Problem

def message : Problem → Text
  | unmatchedClose => "unmatched '>' ignored"
  | neverClosed => "'<' is never closed"
  | unterminatedString => "unterminated string"
  | blockNeverClosed marker =>
    Text.ofString "COMMENT block is never closed by '" ++ marker ++ Text.ofString "'"
  | badNumeral text radix =>
    Text.ofString "'" ++ text ++ Text.ofString "' is not a valid base-" ++ Text.ofInt radix ++
      Text.ofString " numeral; left unconverted"
  | badMarkedNumeral text base =>
    Text.ofString "'^" ++ text ++ Text.ofString "' is not a valid base-" ++ Text.ofInt base ++
      Text.ofString " numeral; left unconverted"
  | badRadix operand used =>
    Text.ofString "RADIX operand '" ++ operand ++ Text.ofString "' is not a radix; using " ++
      Text.ofInt used
  | noOperand mnemonic => mnemonic ++ Text.ofString " has no operand"
  | noMessage => "PRINTX has no message"
  | other words => words

end Problem

structure Diagnostic where
  problem : Problem
  position : Position
  severity : Severity
  length : Int
deriving DecidableEq, Repr

namespace Diagnostic

def message (d : Diagnostic) : Text := d.problem.message

/-- `n` times the character `c`, none if `n` is negative. -/
def repeated (c : Char) (n : Int) : Text := List.replicate n.toNat (.char c)

/-- The content of a line of the source; a line that is not there is empty. -/
def sourceLine (lines : List Line) (number : Int) : Text :=
  if 1 ≤ number then ((lines[(number - 1).toNat]?).map Line.content).getD [] else []

/-- The number of carets below the source line: at least one, and within the line if the
diagnostic starts there. -/
def underlineLength (d : Diagnostic) (content : Text) : Int :=
  max 1 (min d.length (content.length - d.position.column + 1))

/-- The diagnostic with its source line and a row of carets below the columns concerned. -/
def report (d : Diagnostic) (source fileName : Text) : Text :=
  let content := sourceLine (Line.split source) d.position.line
  let number := Text.ofInt d.position.line
  let gutter := repeated ' ' (number.length + 1)
  let bar := Text.ofString "|"
  let newline := Text.ofString "\n"
  d.severity.word ++ Text.ofString ": " ++ d.message ++ newline ++
    gutter ++ Text.ofString "--> " ++ fileName ++ Text.ofString ":" ++ number ++
      Text.ofString ":" ++ Text.ofInt d.position.column ++ newline ++
    gutter ++ bar ++ newline ++
    number ++ Text.ofString " | " ++ content ++ newline ++
    gutter ++ bar ++ Text.ofString " " ++ repeated ' ' (d.position.column - 1) ++
      repeated '^' (d.underlineLength content)

end Diagnostic

end Macro10
