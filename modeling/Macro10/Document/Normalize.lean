import Macro10.Document.Edit
import Macro10.Keyword

/-!
# Normal form

Before a document is retargeted, three things are settled in place:

* each directive with arguments knows them (`parts`), and knows which of them is its `body`;
  each argument knows its directive (`owner`). Arguments end with their line, with the body, or
  where the next directive starts;
* `!` becomes the operator "or", and `!` with `=` directly after it the operator "not equal";
* the brackets of groups become parentheses.
-/

namespace Macro10

namespace Edit

/-- The directive that is collecting its arguments, and whether a comma was among them. -/
structure Collector where
  head : Id
  seenComma : Bool
deriving DecidableEq, Repr

/-- Puts the token at `i` at the end of the arguments of the directive at `head`. -/
def addPart (head i : Id) : Edit Unit := do
  match (← token head).parts with
  | some parts => update head fun t => { t with parts := some (parts ++ [i]) }
  | none => throw .notContainer

/-- Adds the token at `i` to the arguments of the collecting directive. The answer is the
collector for the tokens after it. -/
def collect (c : Collector) (i : Id) : Edit (Option Collector) := do
  let t ← token i
  if t.isNewline then return none
  update i fun t => { t with owner := some c.head }
  addPart c.head i
  if t.isOperator "," then return some { c with seenComma := true }
  if t.kind = .container then
    let head ← token c.head
    let needsComma := ((Head.ofWord? head.upper).map Head.bodyAfterComma).getD false
    if c.seenComma || !needsComma then
      update c.head fun h => { h with body := some i }
      return none
  return some c

/-- Offers the token at `i` to the collecting directive, if there is one. -/
def offer (collector : Option Collector) (i : Id) : Edit (Option Collector) :=
  match collector with
  | some c => collect c i
  | none => pure none

def settleExclamation (i : Id) : Edit Unit := do
  let t ← token i
  match t.next with
  | some j =>
    if ← ask (·.isOperator "=" (some j)) then
      setText i "!="
      blank j
    else setText i "|"
  | none => setText i "|"

def parenthesize (i : Id) : Edit Unit :=
  update i fun t =>
    { t with
      opening := if t.opening.isEmpty then [] else [.char '(']
      closing := if t.closing.isEmpty then [] else [.char ')'] }

/-- A directive at `i` starts to collect, with no argument yet; an exclamation mark is settled.
The answer is the collector for the tokens after it. -/
def settle (collector : Option Collector) (i : Id) : Edit (Option Collector) := do
  let t ← token i
  if t.kind = .identifier && (Head.ofWord? t.upper).isSome then
    update i fun t => { t with parts := some [], body := none }
    return some ⟨i, false⟩
  if t.isOperator "!" then settleExclamation i
  return collector

/-- Settles the brackets of a group at `i`, and with `group` its children. -/
def settleGroup (group : List Id → Edit Unit) (i : Id) : Edit Unit := do
  let t ← token i
  if t.kind = .container then
    parenthesize i
    match t.children with
    | some children => group children
    | none => throw .noChildren

/-- Settles the token at `i`. The answer is the collector for the tokens after it. -/
def normalizeToken (group : List Id → Edit Unit) (collector : Option Collector) (i : Id) :
    Edit (Option Collector) := do
  let collecting ← offer collector i
  let next ← settle collecting i
  settleGroup group i
  return next

/-- Settles the tokens at the given places, one after another; `group` does the same for the
children of a container. -/
def normalizeList (group : List Id → Edit Unit) (collector : Option Collector) :
    List Id → Edit Unit
  | [] => pure ()
  | i :: rest => do
    let next ← normalizeToken group collector i
    normalizeList group next rest

/-- Settles the tokens at the given places, with groups nested less deeply than `fuel`. -/
def normalizeWithin : Nat → List Id → Edit Unit
  | 0, _ => throw .endless
  | fuel + 1, ids => normalizeList (normalizeWithin fuel) none ids

def normalize : Edit Unit := do
  let d ← get
  normalizeWithin d.walkLimit d.root

end Edit

end Macro10
