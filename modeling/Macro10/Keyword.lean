import Macro10.Text.Blank
import Macro10.Text.UpperCase

/-!
# Keywords

The words of the source dialect that have a meaning of their own. A word is recognised by its
upper-case form, so the tables hold capitals only.
-/

namespace Macro10

namespace Keyword

/-! ## Lines that are kept as comments -/

/-- Starts a block of comment lines. -/
def commentBlock : Text := "COMMENT"

/-- Sets the radix of the numerals that follow. -/
def setRadix : Text := "RADIX"

/-- Listing and cross-reference control, which the target does without. -/
def listing : List Text :=
  ["PAGE", "SUBTTL", "TITLE", "SEARCH", "SALL", ".XCREF", ".CREF", "XLIST", "LIST"].map
    Text.ofString

/-- The line is kept as a comment only: it starts with `$`, or its first word controls the
listing. -/
def isSuppressed (line : Text) : Bool :=
  match line with
  | .char '$' :: _ => true
  | _ =>
    match Text.words line with
    | [] => false
    | word :: _ => listing.elem (Text.upper word)

/-! ## Instructions -/

/-- Instructions with an immediate operand, which the source marks by a final `I`. -/
def immediates : List Text :=
  ["ADCI", "ANDI", "CMPI", "CPXI", "CPYI", "EORI", "LDAI", "LDXI", "LDYI", "ORAI", "SBCI"].map
    Text.ofString

def repetition : Text := "REPEAT"

def halfWords : Text := "XWD"

def message : Text := "PRINTX"

end Keyword

/-! ## Directives with arguments -/

/-- The directives that own the tokens after them on their line. -/
inductive Head where
  | ifZero
  | ifNotZero
  | ifFirstPass
  | ifSecondPass
  | define
deriving DecidableEq, Repr

namespace Head

def keyword : Head → Text
  | ifZero => "IFE"
  | ifNotZero => "IFN"
  | ifFirstPass => "IF1"
  | ifSecondPass => "IF2"
  | define => "DEFINE"

def all : List Head := [ifZero, ifNotZero, ifFirstPass, ifSecondPass, define]

/-- The directive that a word in upper case is the keyword of. -/
def ofWord? (word : Text) : Option Head := all.find? fun head => head.keyword = word

/-- The body of the directive is the first group after a comma; otherwise it is the first
group. -/
def bodyAfterComma : Head → Bool
  | ifZero | ifNotZero => true
  | _ => false

theorem ofWord?_keyword (head : Head) : ofWord? head.keyword = some head := by
  cases head <;> decide

end Head

end Macro10
