import Macro10.Conversion

/-!
# Diagnostics for an editor

An editor shows the diagnostics of a text while it is being written. It counts lines and columns
from zero, gives ranges by their two ends, and has numbers for severities.
-/

namespace Macro10.Editor

/-- A place in a text; lines and characters count from zero. -/
structure Place where
  line : Int
  character : Int
deriving DecidableEq, Repr

structure Notice where
  start : Place
  stop : Place
  message : Text
  severity : Nat
  source : Text
deriving DecidableEq, Repr

def severityCode : Severity → Nat
  | .warning => 2
  | .info => 3

def Notice.ofDiagnostic (d : Diagnostic) : Notice :=
  let line := d.position.line - 1
  let character := d.position.column - 1
  { start := ⟨line, character⟩
    stop := ⟨line, character + d.length⟩
    message := d.message
    severity := severityCode d.severity
    source := "macroconv" }

/-- The notices for a text, whose numerals are in the default radix. -/
def notices (text : Text) : Except Failure (List Notice) :=
  return (← convertDocument text Numeral.defaultRadix).diagnostics.map Notice.ofDiagnostic

end Macro10.Editor
