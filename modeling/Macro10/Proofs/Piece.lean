import Macro10.Keyword
import Macro10.Proofs.Nest
import Macro10.Source.Forest

/-!
# Tokens without places

What the passes do to a list of siblings depends on the tokens and their order, and not on their
places. A *piece* is a token in which distances stand for places: the owner is so many tokens back,
the arguments are so many tokens ahead, and the body is the last of them. An *item* is a piece with
the items inside it, and a *row* is a list of items.
-/

namespace Macro10

variable {p : Piece}

/-- How a group is written. -/
inductive Role where
  /-- In its line, with its brackets. -/
  | inline
  /-- On lines of its own as the body of a directive, up to a keyword if there is one. -/
  | body (closing : Option Text)
deriving DecidableEq

/-- A token without its place and its links. -/
structure Piece where
  kind : Kind
  /-- The text; a container has none. -/
  text : Text := []
  opening : Text := []
  closing : Text := []
  /-- The number of tokens between the owner and this token. -/
  owner : Option Nat := none
  /-- The number of arguments, which follow directly. -/
  parts : Option Nat := none
  /-- The last argument is the body. -/
  body : Bool := false
  role : Role := .inline
  /-- A label that goes with the piece. No pass looks at it; a piece that a pass puts in has none.
  -/
  label : Option Nat := none
deriving DecidableEq

namespace Piece

/-- The piece as a token that nothing is linked to. -/
def token (p : Piece) : Token :=
  { kind := p.kind, text := if p.kind = .container then none else some p.text,
    opening := p.opening, closing := p.closing }

/-- The text in upper case. -/
def upper (p : Piece) : Text := p.token.upper

/-- The piece ends a line. -/
def isNewline (p : Piece) : Bool := p.token.isNewline

/-- The piece is white space within a line. -/
def isBlank (p : Piece) : Bool := p.token.isBlank

/-- The piece is white space. -/
def isSpacing (p : Piece) : Bool := p.kind = .whitespace

/-- The piece is the operator `text`. -/
def isOperator (p : Piece) (text : Text) : Bool := p.token.isOperator text

/-- The directive that the piece is the keyword of. -/
def head? (p : Piece) : Option Head :=
  if p.kind = .identifier then Head.ofWord? p.upper else none

/-- A directive is a word, namely its keyword. -/
theorem head?_eq_some_iff {head : Head} :
    p.head? = some head ↔ p.kind = .identifier ∧ Head.ofWord? p.upper = some head := by
  unfold head?
  split <;> simp [*]

/-- A directive is found by its word. -/
theorem ofWord?_of_head? {head : Head} (h : p.head? = some head) :
    Head.ofWord? p.upper = some head := (head?_eq_some_iff.mp h).2

/-- Directives are names. -/
theorem kind_of_head? {head : Head} (h : p.head? = some head) : p.kind = .identifier :=
  (head?_eq_some_iff.mp h).1

/-- The piece as empty white space. -/
def blanked (p : Piece) : Piece :=
  { p with kind := .whitespace, text := [], opening := [], closing := [] }

/-- The piece with another text. -/
def setText (text : Text) (p : Piece) : Piece := { p with text }

/-- A piece that the program puts in. -/
def made (kind : Kind) (text : Text) : Piece := { kind, text }

@[simp]
theorem kind_blanked (p : Piece) : p.blanked.kind = .whitespace := rfl

@[simp]
theorem text_blanked (p : Piece) : p.blanked.text = [] := rfl

@[simp]
theorem kind_setText (text : Text) (p : Piece) : (p.setText text).kind = p.kind := rfl

@[simp]
theorem text_setText (text : Text) (p : Piece) : (p.setText text).text = text := rfl

@[simp]
theorem kind_made (kind : Kind) (text : Text) : (made kind text).kind = kind := rfl

@[simp]
theorem text_made (kind : Kind) (text : Text) : (made kind text).text = text := rfl

/-- A token that is blanked out ends no line. -/
@[simp]
theorem isNewline_blanked (p : Piece) : p.blanked.isNewline = false := by
  simp [isNewline, token, blanked, Token.isNewline, Terminator.text]

/-- What is blanked out is blank. -/
@[simp]
theorem isBlank_blanked (p : Piece) : p.blanked.isBlank = true := by
  have hline : p.blanked.token.isNewline = false := isNewline_blanked p
  simp only [isBlank, Token.isBlank, hline]
  rfl

/-- What ends a line is white space. -/
theorem isSpacing_of_isNewline (h : p.isNewline = true) : p.isSpacing = true := by
  simp only [isNewline, Token.isNewline, Bool.and_eq_true] at h
  exact h.1

/-- So is a blank. -/
theorem isSpacing_of_isBlank (h : p.isBlank = true) : p.isSpacing = true := by
  simp only [isBlank, Token.isBlank, Bool.and_eq_true] at h
  exact h.1

/-- Blanks are white space. -/
theorem kind_of_isBlank (h : p.isBlank = true) : p.kind = .whitespace := by
  simpa [isSpacing] using isSpacing_of_isBlank h

theorem kind_of_isNewline (h : p.isNewline = true) : p.kind = .whitespace := by
  simpa [isSpacing] using isSpacing_of_isNewline h

/-- A blank ends no line. -/
theorem isNewline_of_isBlank (h : p.isBlank = true) : p.isNewline = false := by
  simp only [isBlank, Token.isBlank, Bool.and_eq_true, Bool.not_eq_true'] at h
  exact h.2

/-- Only white space ends a line. -/
theorem isNewline_eq_false (h : p.kind ≠ .whitespace) : p.isNewline = false :=
  Bool.eq_false_iff.mpr (mt kind_of_isNewline h)

/-- Only white space is blank. -/
theorem isBlank_of_kind_ne (h : p.kind ≠ .whitespace) : p.isBlank = false :=
  Bool.eq_false_iff.mpr (mt kind_of_isBlank h)

/-- Only an operator reads like one. -/
theorem kind_of_isOperator {text : Text} (h : p.isOperator text = true) : p.kind = .operator := by
  simp only [isOperator, Token.isOperator, Bool.and_eq_true, decide_eq_true_eq] at h
  exact h.1

/-- A piece is one operator at most. -/
theorem isOperator_of_ne {text text' : Text} (h : p.isOperator text = true) (hne : text ≠ text') :
    p.isOperator text' = false := by
  simp only [isOperator, Token.isOperator, Bool.and_eq_true, decide_eq_true_eq] at h
  simp [isOperator, Token.isOperator, h.2, hne]

/-- No other token is an operator. -/
theorem isOperator_of_kind_ne (h : p.kind ≠ .operator) (text : Text) : p.isOperator text = false :=
  Bool.eq_false_iff.mpr (mt kind_of_isOperator h)

/-- A piece that is no group has its text in upper case. -/
theorem upper_of_kind_ne (h : p.kind ≠ .container) : p.upper = Text.upper p.text := by
  simp [upper, Token.upper, Token.words, token, h]

end Piece

/-! ## Items -/

/-- A piece with what is inside it. -/
abbrev Item := Nest Piece

namespace Item

/-- The item as empty white space; nothing is left inside. -/
def blanked (x : Item) : Item := .node x.value.blanked []

/-- The item with another text. -/
def setText (text : Text) (x : Item) : Item := Nest.setValue (x.value.setText text) x

/-- An item that the program puts in. -/
def made (kind : Kind) (text : Text) : Item := .node (.made kind text) []

/-- Blanking out an item blanks out its piece. -/
@[simp]
theorem value_blanked (x : Item) : (blanked x).value = x.value.blanked := rfl

@[simp]
theorem inside_blanked (x : Item) : (blanked x).inside = [] := rfl

@[simp]
theorem value_setText (text : Text) (x : Item) :
    (setText text x).value = x.value.setText text := rfl

@[simp]
theorem inside_setText (text : Text) (x : Item) : (setText text x).inside = x.inside := rfl

@[simp]
theorem value_made (kind : Kind) (text : Text) : (made kind text).value = .made kind text := rfl

@[simp]
theorem inside_made (kind : Kind) (text : Text) : (made kind text).inside = [] := rfl

/-- The text of an item: its own, or its brackets around the texts of what is inside. -/
def text : Item → Text
  | .node p cs =>
    if p.kind = .container then p.opening ++ cs.flatMap text ++ p.closing else p.text

/-- The text of an item, without a look at the constructor. -/
theorem text_eq (x : Item) :
    text x = if x.value.kind = .container then
        x.value.opening ++ x.inside.flatMap text ++ x.value.closing
      else x.value.text := by
  cases x
  rw [text]
  rfl

/-- The text of several items. -/
def textOf (xs : List Item) : Text := xs.flatMap text

@[simp]
theorem textOf_nil : textOf [] = [] := rfl

/-- The texts of two rows are joined. -/
@[simp]
theorem textOf_append (xs ys : List Item) : textOf (xs ++ ys) = textOf xs ++ textOf ys := by
  simp [textOf]

@[simp]
theorem textOf_cons (x : Item) (xs : List Item) : textOf (x :: xs) = text x ++ textOf xs := by
  simp [textOf]

end Item

/-! ## The items of a forest -/

/-- The items of a forest, with no marks yet. -/
def Forest.items : Forest → List Item
  | nil => []
  | leaf kind text _ rest => .node { kind, text } [] :: rest.items
  | group _ closed children rest =>
    .node { kind := .container, opening := [.char '<'],
            closing := if closed then [.char '>'] else [] } children.items :: rest.items

end Macro10
