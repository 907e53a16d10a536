import Macro10.Document.Basic

/-!
# Rendering

The text of a document: the texts of its tokens in order, with the brackets of a group around
its children. In front of a converted document stands one line for each file to include.
-/

namespace Macro10.Document

/-- The text of the token at `i`, if groups are nested less deeply than `fuel`. -/
def renderWithin (d : Document) : Nat → Id → Except Failure Text
  | 0, _ => .error .endless
  | fuel + 1, i => do
    let t ← d.token i
    match t.kind with
    | .container =>
      let inner ← (t.children.getD []).mapM (d.renderWithin fuel)
      return t.opening ++ inner.flatten ++ t.closing
    | _ => return t.words

def renderToken (d : Document) (i : Id) : Except Failure Text := d.renderWithin d.walkLimit i

def renderList (d : Document) (ids : List Id) : Except Failure Text :=
  return (← ids.mapM d.renderToken).flatten

def render (d : Document) : Except Failure Text := d.renderList d.root

/-- The directive that includes a file. -/
def includeDirective (name : Text) : Text :=
  ".INCLUDE \"" ++ name ++ "\""

/-- The text of the document below the lines that include the named files. -/
def renderWithIncludes (d : Document) (names : List Text) : Except Failure Text :=
  return names.flatMap (fun name => includeDirective name ++ d.newline) ++ (← d.render)

end Macro10.Document
