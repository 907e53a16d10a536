import Macro10.Document.Edit

/-!
# Operators for the target

| source          | target              |
|-----------------|---------------------|
| `=`, `==`       | ` .SET `            |
| `!=`            | `<>`                |
| `.`             | `*` before `+`, `-` |
| `%` before name | nothing             |
| `,` at line end | nothing             |

A colon directly after an assignment goes away with it.
-/

namespace Macro10.Retarget

open Edit

/-- An assignment at `i`. -/
def retargetAssignment (i : Id) : Edit Unit := do
  let t ← token i
  match t.next with
  | none => pure ()
  | some j => if ← ask (·.isOperator ":" (some j)) then blank j
  setText i " .SET "

def retargetPoint (i : Id) : Edit Unit := do
  let following ← ask (·.nextNonBlank i)
  let plus ← ask (·.isOperator "+" following)
  let minus ← ask (·.isOperator "-" following)
  if plus || minus then setText i "*"

def retargetPercent (i : Id) : Edit Unit := do
  match (← token i).next with
  | none => pure ()
  | some j => if (← token j).kind = .identifier then blank i

/-- The end of a list of siblings is the end of a line: at the top level, and in a container
without brackets. -/
def endsLine (parent : Option Id) : Edit Bool := do
  match parent with
  | none => return true
  | some i => return (← token i).opening.isEmpty

/-- A comma at `i`, which goes away if nothing follows it on its line. -/
def retargetComma (i : Id) : Edit Unit := do
  let dangling ← match ← ask (·.nextNonBlank i) with
    | none => do endsLine (← token i).parent
    | some j => do
      let t ← token j
      pure (t.isNewline || t.kind = .comment)
  if dangling then blank i

def retargetOperator (i : Id) : Edit Unit := do
  match (← token i).text with
  | some text =>
    if text = "=" || text = "==" then retargetAssignment i
    else if text = "!=" then setText i "<>"
    else if text = "." then retargetPoint i
    else if text = "%" then retargetPercent i
    else if text = "," then retargetComma i
  | none => pure ()

end Macro10.Retarget
