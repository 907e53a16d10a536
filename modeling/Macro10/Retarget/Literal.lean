import Macro10.Document.Edit

/-!
# Literals for the target

* A string of one character becomes a character literal, with `'` for quotes.
* The string operand of an immediate instruction becomes a character literal, however long.
* A number or string at the start of a statement is data, which the target wants announced by
  a directive of its own.
-/

namespace Macro10.Retarget

open Edit

/-- The text between the quotes of a character literal. -/
def characterLiteral (inner : Text) : Text := .char '\'' :: inner ++ [.char '\'']

/-- A string of one character as a character literal; any other text as it is. -/
def quoteSingle (text : Text) : Text :=
  match text with
  | [.char '"', s, .char '"'] => characterLiteral [s]
  | _ => text

/-- A string as a character literal, whether its closing quote is there or not. -/
def requote (text : Text) : Text :=
  characterLiteral
    (if 2 ≤ text.length && Text.endsWith text (.char '"') then text.tail.dropLast else text.tail)

def retargetString (i : Id) : Edit Unit := do
  let t ← token i
  if quoteSingle t.words ≠ t.words then setText i (quoteSingle t.words)

def dataDirective : Text := ".BYTE"

/-- The token at `i` starts a statement: it is the first of its line, or follows a label. -/
def startsStatement (i : Id) : Edit Bool := do
  let first ← ask fun d => do d.solidFrom (← d.lineStart i)
  let before ← ask fun d => d.prevSolid i
  let afterLabel ← ask (·.isOperator ":" before)
  return first = some i || afterLabel

def inParentheses (i : Id) : Edit Bool := do
  match (← token i).parent with
  | none => return false
  | some parent => return (← token parent).opening = "("

/-- New tokens to announce the literal at `i` as data, if it is a statement of its own. -/
def announceData (i : Id) : Edit (List Id) := do
  if !(← startsStatement i) then return []
  if ← inParentheses i then return []
  let directive ← synthesize .identifier dataDirective
  let space ← synthesize .whitespace [.char ' ']
  return [directive, space]

end Macro10.Retarget
