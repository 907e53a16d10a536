import Macro10.Source.Forest

/-!
# Documents

A document holds the tokens of one conversion, the list of its top-level tokens, the line terminator
for lines that are added, and the diagnostics so far. A token's place never changes. Nothing forces
the links of a document to fit together; those of a document that comes from a source (`ofForest`)
do.
-/

namespace Macro10

/-- The tokens of a conversion with their top-level list. -/
structure Document where
  tokens : Array Token := #[]
  root : List Id := []
  newline : Text := [.char '\n']
  diagnostics : List Diagnostic := []
deriving DecidableEq, Repr

namespace Document

def token (d : Document) (i : Id) : Except Failure Token :=
  match d.tokens[i]? with
  | some t => .ok t
  | none => .error .noSuchToken

theorem token_eq_ok_iff {d : Document} {i : Id} {t : Token} :
    d.token i = .ok t ↔ d.tokens[i]? = some t := by
  unfold token
  split <;> simp_all

/-- A walk along the links that takes more steps than this runs in a circle. -/
def walkLimit (d : Document) : Nat := d.tokens.size + 1

def ofForest (forest : Forest) (newline : Text) (diagnostics : List Diagnostic) : Document :=
  { tokens := (forest.tokens none 0 none).toArray, root := forest.ids 0, newline, diagnostics }

@[simp]
theorem size_tokens_ofForest (forest : Forest) (newline : Text) (diagnostics : List Diagnostic) :
    (ofForest forest newline diagnostics).tokens.size = forest.size := by
  simp [ofForest]

end Document

end Macro10
