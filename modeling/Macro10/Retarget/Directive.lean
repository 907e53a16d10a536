import Macro10.Retarget.Statement

/-!
# Directives for the target

The directives that own their arguments:

| source            | target                          |
|-------------------|---------------------------------|
| `IFE x,<body>`    | `.IF x = 0`, body, `.ENDIF`     |
| `IFN x,<body>`    | `.IF x <> 0`, body, `.ENDIF`    |
| `IF1,<body>`      | `.IF 1`, body, `.ENDIF`         |
| `IF2,<body>`      | `.IF 2`, body, `.ENDIF`         |
| `DEFINE N(A)<b>`  | `.MACRO N A`, body, `.ENDMACRO` |

The rules here retarget the head line; the body is retargeted with the group that it is.
-/

namespace Macro10.Retarget

open Edit

def conditional : Text := ".IF"

def macroDefinition : Text := ".MACRO"

/-- The keyword that closes the block that a retargeted directive starts. -/
def closingKeyword? (word : Text) : Option Text :=
  if word = conditional then some ".ENDIF"
  else if word = macroDefinition then some ".ENDMACRO"
  else none

/-! ## Conditions -/

/-- Retargets the expression of a condition up to its comma, which becomes a comparison with
zero. The expression ends early at the body, at a comment or at the end of the line. -/
def retargetExpression (group : Id → Edit Unit) (body : Option Id) (comparison : Text) :
    List Id → Edit Continuation
  | [] => pure .none
  | i :: rest => do
    if body = some i then return .none
    let t ← token i
    if t.isNewline || t.kind = .comment then return .none
    if t.isOperator "," then
      blank i
      let operator ← synthesize .operator comparison
      let nought ← synthesize .number [.char '0']
      return ⟨[i, operator, nought], 1⟩
    match t.kind with
    | .string => retargetString i
    | .container => group i
    | .operator => retargetOperator i
    | _ => pure ()
    let later ← retargetExpression group body comparison rest
    return ⟨i :: later.tokens, later.taken + 1⟩

/-- The condition at `i`, with the tokens to come. -/
def retargetCondition (group : Id → Edit Unit) (comparison : Text) (i : Id) (ahead : List Id) :
    Edit Continuation := do
  let t ← token i
  setText i conditional
  retargetExpression group t.body comparison ahead

/-! ## Arguments before the body -/

/-- The elements before the first `x`. -/
def before? (x : Id) : List Id → Option (List Id)
  | [] => none
  | y :: rest => if y = x then some [] else (before? x rest).map (y :: ·)

/-- The arguments of the directive at `i` that come before its body. -/
def leadingParts (i : Id) : Edit (List Id) := do
  let t ← token i
  let parts := t.parts.getD []
  match t.body with
  | none => return parts
  | some body =>
    match before? body parts with
    | some leading => return leading
    | none => throw (.bodyNotListed body)

/-- The condition on the pass of the assembler at `i`; `condition` is what it becomes. -/
def retargetPass (condition : Text) (i : Id) : Edit Continuation := do
  setText i conditional
  match ← leadingParts i with
  | [] => return ⟨[← synthesize .whitespace condition], 0⟩
  | first :: rest =>
    blankAll (first :: rest)
    setText first condition
    return .none

/-! ## Macro definitions -/

/-- The tokens at the given places that are the operator `text`. -/
def operatorsAmong (text : Text) (ids : List Id) : Edit (List Id) :=
  match ids with
  | [] => pure []
  | i :: rest => do
    let found ← ask (·.isOperator text (some i))
    let others ← operatorsAmong text rest
    return if found then i :: others else others

/-- Replaces tokens by single blanks. -/
def spaceAll : List Id → Edit Unit
  | [] => pure ()
  | i :: rest => do
    blank i
    setText i [.char ' ']
    spaceAll rest

/-- The macro definition at `i`: its parameters are set off by blanks, not by parentheses and
commas, and no blank is left in front of the body. -/
def retargetDefinition (i : Id) : Edit Unit := do
  setText i macroDefinition
  let leading ← leadingParts i
  let opens ← operatorsAmong "(" leading
  let closes ← operatorsAmong ")" leading
  let commas ← operatorsAmong "," leading
  spaceAll (opens.take 1)
  blankAll closes.getLast?.toList
  spaceAll commas
  if (← token i).body.isSome then blankLeading leading.reverse

end Macro10.Retarget
