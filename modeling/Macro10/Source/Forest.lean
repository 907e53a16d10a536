import Macro10.Token

/-!
# Forests

What a source text is, before its tokens get their places in a document: a sequence of pieces,
some of which are bracketed groups of pieces. A forest is a list of trees, given by its first
tree and the rest, so that one induction goes through all pieces in the order of the source.
-/

namespace Macro10

inductive Forest where
  | nil
  /-- A token that is no group, and what follows it. -/
  | leaf (kind : Kind) (text : Text) (position : Position) (rest : Forest)
  /-- A group, and what follows it; a group at the end of the source may not be closed. -/
  | group (position : Position) (closed : Bool) (children rest : Forest)
deriving DecidableEq, Repr

namespace Forest

def size : Forest → Nat
  | nil => 0
  | leaf _ _ _ rest => rest.size + 1
  | group _ _ children rest => children.size + rest.size + 1

/-- The trees of the first forest, last one first, in front of the second. -/
def reverseOnto : Forest → Forest → Forest
  | nil, done => done
  | leaf kind text position rest, done => rest.reverseOnto (leaf kind text position done)
  | group position closed children rest, done =>
    rest.reverseOnto (group position closed children done)

/-- The trees in the opposite order; the groups keep the order of their children. -/
def reverse (f : Forest) : Forest := f.reverseOnto nil

/-! ## Places

Tokens are numbered in the order of the source, a group before its children.
-/

/-- The places of the trees if the first one is at `first`. -/
def ids (first : Id) : Forest → List Id
  | nil => []
  | leaf _ _ _ rest => first :: rest.ids (first + 1)
  | group _ _ children rest => first :: rest.ids (first + children.size + 1)

/-- The place of the first tree if it is at `first`; there is none in an empty forest. -/
def head? (first : Id) : Forest → Option Id
  | nil => none
  | leaf .. | group .. => some first

/-- The tokens of the forest if the first one is at `first`, under the given parent and after
the given sibling. -/
def tokens (parent : Option Id) (first : Id) (prev : Option Id) : Forest → List Token
  | nil => []
  | leaf kind text position rest =>
    { kind, text := some text, position := some position, prev, next := rest.head? (first + 1),
      parent } ::
    rest.tokens parent (first + 1) (some first)
  | group position closed children rest =>
    let after := first + children.size + 1
    { kind := .container, position := some position, children := some (children.ids (first + 1)),
      opening := [.char '<'], closing := if closed then [.char '>'] else [], prev,
      next := rest.head? after, parent } ::
    (children.tokens (some first) (first + 1) none ++ rest.tokens parent after (some first))

@[simp]
theorem length_tokens (f : Forest) (parent : Option Id) (first : Id) (prev : Option Id) :
    (f.tokens parent first prev).length = f.size := by
  induction f generalizing parent first prev with
  | nil => rfl
  | leaf kind text position rest ih => simp [tokens, size, ih]
  | group position closed children rest ihc ihr => simp [tokens, size, ihc, ihr]

theorem head?_ids (f : Forest) (first : Id) : (f.ids first).head? = f.head? first := by
  cases f <;> rfl

end Forest

end Macro10
