import Macro10.Document.Queries
import Macro10.Numeral.Reading

/-!
# Editing a document

An edit is a step that may change the document and may fail. Changes made before a failure
stay.

The steps here are the smallest ones: look at a token, change it, make a new one, link a list
of siblings. Everything that changes a document is put together from them.
-/

namespace Macro10

/-- A step that reads and changes the document and may fail. -/
abbrev Edit (α : Type) := EStateM Failure Document α

namespace Edit

/-! ## Looking -/

/-- The answer to a question about the document. -/
def ask {α : Type} (question : Document → Except Failure α) : Edit α := fun d =>
  match question d with
  | .ok a => .ok a d
  | .error e => .error e d

def token (i : Id) : Edit Token := ask fun d => d.token i

/-! ## Changing tokens -/

def update (i : Id) (change : Token → Token) : Edit Unit := fun d =>
  if i < d.tokens.size then .ok () { d with tokens := d.tokens.modify i change }
  else .error .noSuchToken d

def setText (i : Id) (text : Text) : Edit Unit := update i fun t => { t with text := some text }

def blank (i : Id) : Edit Unit := update i Token.blanked

def blankAll : List Id → Edit Unit
  | [] => pure ()
  | i :: rest => do
    blank i
    blankAll rest

/-! ## New tokens -/

/-- Puts a new token into the document, without links. A container has no children yet. -/
def create (kind : Kind) (text : Option Text) (position : Option Position) : Edit Id := fun d =>
  let children := if kind = .container then some [] else none
  .ok d.tokens.size { d with tokens := d.tokens.push { kind, text, position, children } }

/-- Puts a new token without a position into the document. -/
def synthesize (kind : Kind) (text : Text) : Edit Id := create kind (some text) none

/-- The list that a new token goes to: the top level, or the children of a container. -/
def siblings? : Option Id → Edit (Option (List Id))
  | none => ask fun d => .ok (some d.root)
  | some i => return (← token i).children

/-- Gives the top level, or a container, another list of tokens. -/
def setSiblings (ids : List Id) : Option Id → Edit Unit
  | none => modify fun d => { d with root := ids }
  | some i => update i fun t => { t with children := some ids }

/-- Puts a new token at the end of the top level, or of a container. If there is no list for it,
it stays in the document without siblings. -/
def append (scope : Option Id) (kind : Kind) (text : Option Text) (position : Option Position) :
    Edit Id := do
  let before? ← siblings? scope
  let i ← create kind text position
  update i fun t => { t with parent := scope }
  match before? with
  | none => throw .notContainer
  | some before =>
    match before.getLast? with
    | none => pure ()
    | some last =>
      update last fun t => { t with next := some i }
      update i fun t => { t with prev := some last }
    setSiblings (before ++ [i]) scope
    return i

/-! ## Links -/

/-- Links tokens after `previous`, in the given order. -/
def linkAfter (parent : Option Id) (previous : Option Id) : List Id → Edit Unit
  | [] => pure ()
  | i :: rest => do
    update i fun t => { t with parent, prev := previous, next := none }
    match previous with
    | none => pure ()
    | some before => update before fun t => { t with next := some i }
    linkAfter parent (some i) rest

def link (ids : List Id) (parent : Option Id) : Edit Unit := linkAfter parent none ids

/-! ## Diagnostics -/

/-- Adds a diagnostic; without a position it stands at the start of the source. -/
def report (problem : Problem) (position : Option Position) (length : Int)
    (severity : Severity) : Edit Unit :=
  modify fun d =>
    let position := position.getD ⟨1, 1⟩
    { d with diagnostics := d.diagnostics ++ [⟨problem, position, severity, length⟩] }

/-! ## Numerals -/

/-- Converts the token at a place if it is a numeral in `radix`. -/
def convertNumeral (i : Id) (radix : Int) : Edit Unit := do
  let t ← token i
  let afterMark ← ask fun d =>
    if t.kind = .identifier && 2 ≤ t.words.length then d.isOperator "^" t.prev else .ok false
  let verdict ← ask fun _ => Numeral.judge t.kind t.words afterMark radix
  verdict.problem?.forM fun problem => report problem t.position t.words.length .warning
  (verdict.number? t.words).forM fun text =>
    update i fun t => { t with kind := .number, text := some text }
  if verdict.takesMark then t.prev.forM blank

end Edit

end Macro10
