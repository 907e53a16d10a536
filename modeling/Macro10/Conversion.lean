import Macro10.Document.Normalize
import Macro10.Retarget.Scope
import Macro10.Source.Reader

/-!
# Conversion

From the text of a source to the text for the target assembler: read, bring into normal form,
retarget, render.
-/

namespace Macro10

namespace Document

def edit (d : Document) (step : Edit Unit) : Except Failure Document :=
  match step d with
  | .ok () d => .ok d
  | .error e _ => .error e

/-- The converted form of a document that was read. -/
def converted (d : Document) : Except Failure Document := do
  (← d.edit Edit.normalize).edit Retarget.retarget

end Document

def read (source : Text) (radix : Int) : Except Failure Document :=
  match Reading.ofSource source (some radix) with
  | .ok reading => .ok reading.document
  | .error interruption => .error interruption.cause

def convertDocument (source : Text) (radix : Int) : Except Failure Document := do
  (← read source radix).converted

/-- The text of a source for the target, below lines that include the named files. -/
def convert (source : Text) (includes : List Text) (radix : Int) : Except Failure Text := do
  (← convertDocument source radix).renderWithIncludes includes

end Macro10
