import Macro10.Retarget.Directive

/-!
# Retargeting a document

Each list of siblings is walked once, and the tokens that the rules put in go where the walk is.
Meanwhile its links still tell what stood around each token before; when the walk is done the new
list is linked. The body of a directive gets lines of its own, and a line that closes the block.
-/

namespace Macro10.Retarget

open Edit

def retargetWord (group : Id → Edit Unit) (i : Id) (ahead : List Id) : Edit Continuation := do
  let t ← token i
  let word := t.upper
  if word = Keyword.repetition then
    retargetRepetition i
    return .none
  else if word = Keyword.halfWords then
    setText i dataDirective
    return .none
  else if Keyword.immediates.elem word then retargetImmediate group i ahead
  else if word = Keyword.message then retargetMessage i ahead
  else
    match t.parts, Head.ofWord? word with
    | some _, some .ifNotZero => retargetCondition group " <> " i ahead
    | some _, some .ifZero => retargetCondition group " = " i ahead
    | some _, some .ifFirstPass => retargetPass " 1 " i
    | some _, some .ifSecondPass => retargetPass " 2 " i
    | some _, some .define =>
      retargetDefinition i
      return .none
    | _, _ => return .none

/-- Retargets the tokens after the first `taken`, which a rule has dealt with already. The answer
is the new list. -/
def retargetList (group : Id → Edit Unit) : Nat → List Id → Edit (List Id)
  | _, [] => pure []
  | taken + 1, _ :: rest => retargetList group taken rest
  | 0, i :: rest => do
    match (← token i).kind with
    | .string =>
      retargetString i
      let announcement ← announceData i
      return announcement ++ i :: (← retargetList group 0 rest)
    | .number =>
      let announcement ← announceData i
      return announcement ++ i :: (← retargetList group 0 rest)
    | .operator =>
      retargetOperator i
      return i :: (← retargetList group 0 rest)
    | .identifier =>
      let continuation ← retargetWord group i rest
      return i :: continuation.tokens ++ (← retargetList group continuation.taken rest)
    | .container =>
      group i
      return i :: (← retargetList group 0 rest)
    | .whitespace | .comment => return i :: (← retargetList group 0 rest)

/-- Retargets a list of siblings and links the new one. -/
def retargetScope (group : Id → Edit Unit) (ids : List Id) (parent : Option Id) :
    Edit (List Id) := do
  let new ← retargetList group 0 ids
  link new parent
  return new

/-- The tokens that close the body of the directive at `owner`. -/
def closingTokens (owner : Id) : Edit (List Id) := do
  match closingKeyword? (← token owner).upper with
  | none => return []
  | some word => return [← synthesize .identifier word]

/-- The directive that the group `t` at `i` is the body of. -/
def bodyOwner? (i : Id) (t : Token) : Edit (Option Id) := do
  match t.owner with
  | none => return none
  | some owner => return if (← token owner).body = some i then some owner else none

/-- Retargets the group at `i`, with groups nested less deeply than `fuel`. -/
def retargetGroup : Nat → Id → Edit Unit
  | 0, _ => throw .endless
  | fuel + 1, i => do
    let t ← token i
    match ← bodyOwner? i t with
    | none =>
      let children ← retargetScope (retargetGroup fuel) (t.children.getD []) (some i)
      update i fun t => { t with children := some children }
    | some owner =>
      update i fun t => { t with opening := [], closing := [] }
      let children ← retargetScope (retargetGroup fuel) (t.children.getD []) (some i)
      let newline := (← get).newline
      let first ← synthesize .whitespace newline
      let last ← synthesize .whitespace newline
      let closing ← closingTokens owner
      let lines := first :: children ++ last :: closing
      update i fun t => { t with children := some lines }
      link lines (some i)

def retarget : Edit Unit := do
  let d ← get
  let root ← retargetScope (retargetGroup d.walkLimit) d.root none
  modify fun d => { d with root }

end Macro10.Retarget
