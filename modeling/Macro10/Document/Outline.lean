import Macro10.Document.Basic

/-!
# Outlines

An outline shows the tokens of a document one to a line, the children of a group indented below
it, for someone who wants to see what the program made of a source.
-/

namespace Macro10

def Kind.name : Kind → Text
  | identifier => "Identifier"
  | number => "Number"
  | string => "String"
  | whitespace => "Whitespace"
  | comment => "Comment"
  | operator => "Operator"
  | container => "Container"

namespace Document

def outlineIds (ids : List Id) : Text :=
  Text.ofString "[" ++ Text.join (Text.ofString ", ") (ids.map Text.ofNat) ++ Text.ofString "]"

def outlinePosition : Option Position → Text
  | none => "synthesized"
  | some position =>
    Text.ofInt position.line ++ Text.ofString ":" ++ Text.ofInt position.column

/-- What makes a token a directive, or the argument of one. -/
def outlineMarks (t : Token) : Text :=
  let head : Text :=
    match t.parts with
    | none => []
    | some parts =>
      Text.ofString " head parts=" ++ outlineIds parts ++
        match t.body with
        | none => []
        | some body => Text.ofString " body=" ++ Text.ofNat body
  let owner : Text :=
    match t.owner with
    | none => []
    | some owner => Text.ofString " owner=" ++ Text.ofNat owner
  head ++ owner

def outlineContent (t : Token) : Text :=
  match t.kind with
  | .container =>
    t.kind.name ++ Text.ofString " " ++ Text.quoted t.opening ++ Text.ofString ".." ++
      Text.quoted t.closing
  | kind =>
    let text : Text :=
      match t.text with
      | none => "None"
      | some text => Text.quoted text
    kind.name ++ Text.ofString "(" ++ text ++ Text.ofString ")"

def outlineLine (depth : Nat) (i : Id) (t : Token) : Text :=
  List.replicate (2 * depth) (.char ' ') ++ Text.ofString "#" ++ Text.ofNat i ++
    Text.ofString " " ++ outlineContent t ++ Text.ofString " @" ++ outlinePosition t.position ++
    outlineMarks t ++ Text.ofString "\n"

/-- The lines of a token and of its children, if groups are nested less deeply than `fuel`. -/
def outlineWithin (d : Document) : Nat → Nat → Id → Except Failure Text
  | 0, _, _ => .error .endless
  | fuel + 1, depth, i => do
    let t ← d.token i
    let children := if t.kind = .container then t.children.getD [] else []
    let below ← children.mapM (d.outlineWithin fuel (depth + 1))
    return outlineLine depth i t ++ below.flatten

def outline (d : Document) : Except Failure Text := do
  let lines ← d.root.mapM (d.outlineWithin d.walkLimit 1)
  return Text.ofString "TokenTree (" ++ Text.ofNat d.tokens.size ++ Text.ofString " tokens)\n" ++
    lines.flatten

end Document

end Macro10
