import Macro10.Keyword
import Macro10.Retarget.Literal
import Macro10.Retarget.Operator

/-!
# Statements for the target

The rules for words that start a statement. Some of them take the tokens that follow the word;
such a rule is given the tokens still to come, and answers with the tokens to put after the
word and with how many of those to come it took.

* An immediate instruction loses its final `I`, and its operand gets the mark `#`.
* A message directive gets its message as one string.
* A repetition gets braces around its body.
-/

namespace Macro10.Retarget

open Edit

/-- The tokens that come after a word in its place, and how many tokens of those to come they
replace. -/
structure Continuation where
  tokens : List Id
  taken : Nat
deriving DecidableEq, Repr

/-- Nothing is put after the word, and nothing is taken. -/
def Continuation.none : Continuation := ⟨[], 0⟩

/-- The tokens up to the end of the statement, which is a comment or the end of the line. -/
def statementRest : List Id → Edit (List Id)
  | [] => pure []
  | i :: rest => do
    let t ← token i
    if t.isNewline || t.kind = .comment then return []
    return i :: (← statementRest rest)

/-! ## Immediate instructions -/

def allBlank : List Id → Edit Bool
  | [] => pure true
  | i :: rest => do
    if (← token i).isBlank then allBlank rest else return false

def blankLeading : List Id → Edit Unit
  | [] => pure ()
  | i :: rest => do
    if (← token i).isBlank then
      blank i
      blankLeading rest

/-- Retargets the operand of an immediate instruction. -/
def retargetOperand (group : Id → Edit Unit) : List Id → Edit Unit
  | [] => pure ()
  | i :: rest => do
    let t ← token i
    match t.kind with
    | .string => setText i (requote t.words)
    | .container => group i
    | .operator => retargetOperator i
    | _ => pure ()
    retargetOperand group rest

/-- The immediate instruction at `i`, with the tokens to come. -/
def retargetImmediate (group : Id → Edit Unit) (i : Id) (ahead : List Id) :
    Edit Continuation := do
  let t ← token i
  setText i t.words.dropLast
  let operand ← statementRest ahead
  if ← allBlank operand then
    report (.noOperand t.words) t.position t.words.length .warning
    return ⟨operand, operand.length⟩
  blankLeading operand
  retargetOperand group operand
  let space ← synthesize .whitespace [.char ' ']
  let mark ← synthesize .operator [.char '#']
  return ⟨space :: mark :: operand, operand.length⟩

/-! ## Messages -/

/-- The token at `i` is a blank with a text. -/
def isGap (i : Id) : Edit Bool := do
  let t ← token i
  return t.isBlank && !t.words.isEmpty

/-- Splits off the blank that separates a directive from its message. -/
def splitSeparator : List Id → Edit (Option Id × List Id)
  | [] => pure (none, [])
  | i :: rest => return if ← isGap i then (some i, rest) else (none, i :: rest)

/-- Splits off the blank that separates a message from the comment that comes after it. -/
def splitTrailing (taken : List Id) (following : Option Id) : Edit (List Id × Option Id) := do
  match following, taken.getLast? with
  | some j, some last =>
    if (← token j).kind = .comment && (← isGap last) then return (taken.dropLast, some last)
    return (taken, none)
  | some j, none =>
    let _ ← token j
    return (taken, none)
  | none, _ => return (taken, none)

/-- The message directive at `i`, with the tokens to come. -/
def retargetMessage (i : Id) (ahead : List Id) : Edit Continuation := do
  let t ← token i
  setText i ".OUT"
  let statement ← statementRest ahead
  let (separator, rest) ← splitSeparator statement
  let (content, trailing) ← splitTrailing rest (ahead.drop statement.length).head?
  let message := Text.trim (← ask (·.renderList content))
  blankAll content
  if message.isEmpty then
    report .noMessage t.position Keyword.message.length .warning
    let kept := separator.toList ++ trailing.toList
    return ⟨kept.take 1 ++ content ++ kept.drop 1, statement.length⟩
  let separator ← match separator with
    | some s => pure s
    | none => synthesize .whitespace [.char ' ']
  let quoted := .char '"' :: Text.replaceSymbol (.char '"') (.char '\'') message ++ [.char '"']
  let string ← synthesize .string quoted
  return ⟨separator :: content ++ string :: trailing.toList, statement.length⟩

/-! ## Repetitions -/

def brace (i : Id) : Edit Unit := do
  let t ← token i
  if t.kind = .container && t.opening = "(" && t.closing = ")" then
    update i fun t => { t with opening := [.char '\x7b'], closing := [.char '\x7d'] }

/-- The repetition at `i`, whose body is the group after the next comma. -/
def retargetRepetition (i : Id) : Edit Unit := do
  match ← ask (·.findInArguments i .operator (some ",")) with
  | none => pure ()
  | some comma =>
    match ← ask (·.nextNonBlank comma) with
    | none => pure ()
    | some group => brace group

end Macro10.Retarget
