import Macro10.Diagnostic
import Macro10.Text.UpperCase

/-!
# Tokens

A token is a piece of the document: a word, a number, white space, or a bracketed group of
tokens. Tokens refer to one another by their places in the document, so a token can be changed
without touching the others.
-/

namespace Macro10

inductive Kind where
  | identifier
  | number
  | string
  /-- Blanks, a line terminator, or what is left of a token that was blanked out. -/
  | whitespace
  | comment
  | operator
  | container
deriving DecidableEq, Repr

/-- The place of a token in its document. -/
abbrev Id := Nat

/-- A token with its links. A container has `children` and brackets, any other token a text. -/
structure Token where
  kind : Kind
  text : Option Text := none
  /-- Where the token stands in the source; a token that the program made has no position. -/
  position : Option Position := none
  children : Option (List Id) := none
  opening : Text := []
  closing : Text := []
  prev : Option Id := none
  next : Option Id := none
  parent : Option Id := none
  owner : Option Id := none
  parts : Option (List Id) := none
  body : Option Id := none
deriving DecidableEq, Repr

namespace Token

/-- The text of the token, empty for a container. -/
def words (t : Token) : Text := t.text.getD []

/-- The text in upper case, by which keywords are recognised. -/
def upper (t : Token) : Text := Text.upper t.words

def isNewline (t : Token) : Bool :=
  t.kind = .whitespace &&
    [Terminator.both, .lineFeed, .carriageReturn].any fun e => t.text = some e.text

def isBlank (t : Token) : Bool := t.kind = .whitespace && !t.isNewline

def isOperator (t : Token) (text : Text) : Bool := t.kind = .operator && t.text = some text

/-- The token as empty white space; it keeps its links. -/
def blanked (t : Token) : Token :=
  { t with kind := .whitespace, text := some [], children := none, opening := [], closing := [] }

@[simp]
theorem kind_blanked (t : Token) : t.blanked.kind = .whitespace := rfl

@[simp]
theorem text_blanked (t : Token) : t.blanked.text = some [] := rfl

theorem isNewline_blanked (t : Token) : t.blanked.isNewline = false := by
  simp [isNewline, Terminator.text]

end Token

end Macro10
