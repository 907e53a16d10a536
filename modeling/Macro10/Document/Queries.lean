import Macro10.Document.Rendering
import Macro10.Text.Blank

/-!
# Questions about a token's neighbourhood

What stands around a token: the next token that is not white space, the first token of the line, a
comma further on. A walk is cut off after as many steps as there are tokens; in a document whose
links fit together no walk is cut off.
-/

namespace Macro10.Document

variable (d : Document)

/-! ## Kinds -/

def isNewline : Option Id → Except Failure Bool
  | none => .ok false
  | some i => return (← d.token i).isNewline

def isBlank : Option Id → Except Failure Bool
  | none => .ok false
  | some i => return (← d.token i).isBlank

def isOperator (text : Text) : Option Id → Except Failure Bool
  | none => .ok false
  | some i => return (← d.token i).isOperator text

/-! ## Siblings -/

/-- The first token from `start` on, going by `step`, that `skip` does not hold of. -/
def seek (step : Token → Option Id) (skip : Token → Bool) :
    Nat → Option Id → Except Failure (Option Id)
  | _, none => .ok none
  | 0, some _ => .error .endless
  | fuel + 1, some i => do
    let t ← d.token i
    if skip t then seek step skip fuel (step t) else return some i

def isSpacing (t : Token) : Bool := t.kind = .whitespace

/-- The nearest token before `i` that is not white space. -/
def prevSolid (i : Id) : Except Failure (Option Id) := do
  d.seek Token.prev isSpacing d.walkLimit (← d.token i).prev

/-- The nearest token after `i` that is not white space. -/
def nextSolid (i : Id) : Except Failure (Option Id) := do
  d.seek Token.next isSpacing d.walkLimit (← d.token i).next

/-- The nearest token from `i` on that is not white space. -/
def solidFrom (i : Id) : Except Failure (Option Id) := do
  if isSpacing (← d.token i) then d.nextSolid i else return some i

/-- The nearest token after `i` that is not a blank; it may be a line terminator. -/
def nextNonBlank (i : Id) : Except Failure (Option Id) := do
  d.seek Token.next Token.isBlank d.walkLimit (← d.token i).next

/-! ## Lines -/

/-- The first token of the line of `current`, whose predecessor is given. -/
def lineStartFrom : Nat → Id → Option Id → Except Failure Id
  | _, current, none => .ok current
  | 0, _, some _ => .error .endless
  | fuel + 1, current, some before => do
    let t ← d.token before
    if t.isNewline then return current else lineStartFrom fuel before t.prev

def lineStart (i : Id) : Except Failure Id := do
  d.lineStartFrom d.walkLimit i (← d.token i).prev

/-- The text from a token on up to the next character that ends a line. -/
def restOfLineWithin : Nat → Option Id → Except Failure Text
  | _, none => .ok []
  | 0, some _ => .error .endless
  | fuel + 1, some i => do
    let t ← d.token i
    if t.isNewline then return []
    let text ← d.renderToken i
    if text.any Symbol.endsLine then return text.takeWhile fun s => !s.endsLine
    return text ++ (← restOfLineWithin fuel t.next)

def restOfLine (i : Id) : Except Failure Text := d.restOfLineWithin d.walkLimit (some i)

def lineText (i : Id) : Except Failure Text := do
  d.restOfLine (← d.lineStart i)

/-- The first token from `start` on that `found` holds of, unless `stop` holds of one that is
not later. -/
def findBefore (stop found : Token → Bool) : Nat → Option Id → Except Failure (Option Id)
  | _, none => .ok none
  | 0, some _ => .error .endless
  | fuel + 1, some i => do
    let t ← d.token i
    if stop t then return none
    if found t then return some i
    findBefore stop found fuel t.next

/-- The next token on the line of `i` with the given kind and text. -/
def findOnLine (i : Id) (kind : Kind) (text : Option Text) : Except Failure (Option Id) := do
  d.findBefore Token.isNewline (fun t => t.kind = kind && t.text = text) d.walkLimit
    (← d.token i).next

/-- The next token on the line of `i`, and with the same owner up to there, that has the given
kind and text. -/
def findInArguments (i : Id) (kind : Kind) (text : Option Text) :
    Except Failure (Option Id) := do
  let start ← d.token i
  d.findBefore (fun t => t.isNewline || t.owner ≠ start.owner)
    (fun t => t.kind = kind && t.text = text) d.walkLimit start.next

end Macro10.Document
