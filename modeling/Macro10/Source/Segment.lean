import Macro10.Keyword

/-!
# Segments

The brackets `<` and `>` group tokens across lines, so a line is first cut at its brackets. A
bracket within a string or a comment does not count. Neither does an opening bracket, nor
anything after it, once the line up to there is one that is kept as a comment.
-/

namespace Macro10

inductive Stop where
  | opening
  | closing
  | lineEnd
deriving DecidableEq, Repr

/-- A stretch of a line up to a bracket or the end of the line. -/
structure Segment where
  /-- The column of the first symbol. -/
  column : Nat
  text : Text
  stop : Stop
deriving DecidableEq, Repr

namespace Segment

inductive Mode where
  /-- Brackets count. -/
  | code
  | quoted
  /-- Up to the end of the line nothing counts. -/
  | verbatim
deriving DecidableEq, Repr

/-- The column of the bracket, or of the end of the line. -/
def stopColumn (s : Segment) : Nat := s.column + s.text.length

/-- The segments of what is left of a line; `done` is the segment so far, last symbol first. -/
def segmentsFrom (column : Nat) (done : Text) (mode : Mode) : Text → List Segment
  | [] => [⟨column, done.reverse, .lineEnd⟩]
  | s :: rest =>
    match mode with
    | .verbatim => segmentsFrom column (s :: done) .verbatim rest
    | .quoted =>
      segmentsFrom column (s :: done) (if s = .char '"' then .code else .quoted) rest
    | .code =>
      if s = .char '"' then segmentsFrom column (s :: done) .quoted rest
      else if s = .char ';' then segmentsFrom column (s :: done) .verbatim rest
      else if s = .char '<' then
        if column = 1 && Keyword.isSuppressed done.reverse then
          segmentsFrom column (s :: done) .verbatim rest
        else ⟨column, done.reverse, .opening⟩ ::
          segmentsFrom (column + done.length + 1) [] .code rest
      else if s = .char '>' then
        ⟨column, done.reverse, .closing⟩ :: segmentsFrom (column + done.length + 1) [] .code rest
      else segmentsFrom column (s :: done) .code rest

/-- The segments of a line. The last one, and no other, ends with the line. -/
def segments (content : Text) : List Segment := segmentsFrom 1 [] .code content

end Segment

/-! ## Lines with a meaning of their own -/

/-- What a line is, if its last segment starts in the first column. -/
inductive LineClass where
  /-- The start of a comment block that ends with the line that holds the marker again. -/
  | commentBlock (marker : Text)
  /-- A radix directive with its operand. -/
  | setRadix (operand : Text)
  | suppressed
  | code
deriving DecidableEq, Repr

namespace LineClass

/-- The class of a line that ends with the given segment. -/
def ofSegment (segment : Segment) : LineClass :=
  if segment.column ≠ 1 then code
  else
    match Text.words segment.text with
    | [] => code
    | word :: operands =>
      let keyword := Text.upper word
      match operands with
      | [marker] =>
        if keyword = Keyword.commentBlock then commentBlock marker
        else if keyword = Keyword.setRadix then setRadix marker
        else if Keyword.isSuppressed segment.text then suppressed else code
      | operand :: _ =>
        if keyword = Keyword.setRadix then setRadix operand
        else if Keyword.isSuppressed segment.text then suppressed else code
      | [] => if Keyword.isSuppressed segment.text then suppressed else code

end LineClass

end Macro10
