import Macro10.Proofs.Piece
import Macro10.Retarget.Directive

/-!
# Retargeting a row

The rules for the target as functions on rows. A rule sees the pieces before its token, nearest
first and as the walk has left them, and the items to come; it may change its token and the items to
come. `retargetRow` does one row, and `retarget` goes on with the rows inside the groups that are
left.
-/

namespace Macro10.Row

open List
open Retarget (characterLiteral quoteSingle requote dataDirective conditional macroDefinition
  closingKeyword?)
open Item (blanked made setText)

/-! ## Literals -/

/-- A literal with these pieces before it starts a statement. -/
def startsStatement (before : List Piece) : Bool :=
  (before.takeWhile fun p => !p.isNewline).all Piece.isSpacing ||
    (before.dropWhile Piece.isSpacing).head?.any (·.isOperator ":")

/-- What announces a literal as data; `opening` is the bracket that the row stands in. -/
def announcement (opening : Text) (before : List Piece) : List Item :=
  if startsStatement before && opening ≠ "(" then
    [made .identifier dataDirective, made .whitespace [.char ' ']]
  else []

/-! ## Groups -/

/-- How a group is written after the given pieces. -/
def roleAfter (before : List Piece) (p : Piece) : Role :=
  match p.owner with
  | none => .inline
  | some k =>
    match before[k]? with
    | none => .inline
    | some head =>
      if head.body && head.parts = some (k + 1) then .body (closingKeyword? head.upper)
      else .inline

/-- The piece of a group with its role; the body of a directive has no brackets. -/
def entered (before : List Piece) (p : Piece) : Piece :=
  match roleAfter before p with
  | .inline => { p with role := .inline }
  | .body closing => { p with opening := [], closing := [], role := .body closing }

/-- A group as it is to be written after the given pieces. -/
def enter (before : List Piece) (x : Item) : Item := Nest.setValue (entered before x.value) x

/-! ## Operators -/

/-- The first piece that is not a blank. -/
def afterBlanks (ahead : List Item) : Option Piece :=
  ((ahead.map Nest.value).dropWhile Piece.isBlank).head?

/-- Nothing follows on the line. The end of a row ends a line unless the row has brackets. -/
def endsLine (opening : Text) (ahead : List Item) : Bool :=
  match afterBlanks ahead with
  | none => opening.isEmpty
  | some p => p.isNewline || p.kind = .comment

/-- The operator `x`. -/
def operator (opening : Text) (x : Item) (ahead : List Item) : Item :=
  let text := x.value.text
  if text = "=" || text = "==" then setText " .SET " x
  else if text = "!=" then setText "<>" x
  else if text = "." then
    if (afterBlanks ahead).any
        (fun p => p.isOperator "+" || p.isOperator "-") then
      setText "*" x
    else x
  else if text = "%" then
    if ahead.head?.any (·.value.kind = .identifier) then blanked x else x
  else if text = "," then
    if endsLine opening ahead then blanked x else x
  else x

/-- The items after the operator `x`: an assignment takes a colon with it. -/
def afterOperator (x : Item) (ahead : List Item) : List Item :=
  if x.value.text = "=" || x.value.text = "==" then
    match ahead with
    | [] => []
    | y :: rest => if y.value.isOperator ":" then blanked y :: rest else y :: rest
  else ahead

@[simp]
theorem length_afterOperator (x : Item) (ahead : List Item) :
    (afterOperator x ahead).length = ahead.length := by
  unfold afterOperator
  split
  · cases ahead with
    | nil => rfl
    | cons y rest => simp only; split <;> rfl
  · rfl

/-! ## All but words -/

/-- The item `x`, if it is no word; `respell` is the rule for strings. -/
def written (respell : Text → Text) (opening : Text) (before : List Piece) (x : Item)
    (ahead : List Item) : Item :=
  match x.value.kind with
  | .string => setText (respell x.value.text) x
  | .container => enter before x
  | .operator => operator opening x ahead
  | _ => x

/-- The items after `x`, if it is no word. -/
def after (x : Item) (ahead : List Item) : List Item :=
  if x.value.kind = .operator then afterOperator x ahead else ahead

@[simp]
theorem length_after (x : Item) (ahead : List Item) : (after x ahead).length = ahead.length := by
  unfold after
  split
  · exact length_afterOperator x ahead
  · rfl

/-! ## Words -/

/-- What a rule makes of a word and of the items to come: the word, the items put after it, and
the items to come, of which the first `taken` are dealt with. -/
structure Outcome where
  self : Item
  shown : List Item := []
  taken : Nat := 0
  ahead : List Item

/-- The items up to a comment or the end of the line. -/
def statement (ahead : List Item) : List Item :=
  ahead.takeWhile fun x => !(x.value.isNewline || x.value.kind = .comment)

/-! ### Immediate instructions -/

/-- Blanks out the blanks at the start. -/
def blankLeading : List Item → List Item
  | [] => []
  | x :: rest => if x.value.isBlank then blanked x :: blankLeading rest else x :: rest

/-- Retargets the first `n` items as an operand. -/
def operand (opening : Text) : List Piece → Nat → List Item → List Item
  | _, 0, ahead => ahead
  | _, _ + 1, [] => []
  | before, n + 1, x :: rest =>
    let y := written requote opening before x rest
    y :: operand opening (y.value :: before) n (after x rest)

/-- The immediate instruction `x`. -/
def immediate (opening : Text) (before : List Piece) (x : Item) (ahead : List Item) : Outcome :=
  let self := setText x.value.text.dropLast x
  let taken := statement ahead
  if taken.all (·.value.isBlank) then { self, shown := taken, taken := taken.length, ahead }
  else
    let ahead := operand opening (self.value :: before) taken.length
      (blankLeading taken ++ ahead.drop taken.length)
    { self, taken := taken.length, ahead
      shown := made .whitespace [.char ' '] :: made .operator [.char '#'] ::
        ahead.take taken.length }

/-! ### Messages -/

/-- The item is a blank with a text. -/
def isGap (x : Item) : Bool := x.value.isBlank && !x.value.text.isEmpty

/-- The parts of a message: the blank before it, the message, and the blank after it. -/
structure MessageParts (α : Type) where
  separator : Option α
  content : List α
  trailing : Option α

/-- A statement without the blank at its start. -/
def afterSeparator {α : Type} (gap : α → Bool) (taken : List α) : List α :=
  if (taken.head?.filter gap).isSome then taken.tail else taken

/-- Splits a statement into the parts of a message. Only a comment sets off a blank at the end. -/
def messageParts {α : Type} (gap : α → Bool) (taken : List α) (commented : Bool) :
    MessageParts α :=
  let rest := afterSeparator gap taken
  let trailing := if commented then rest.getLast?.filter gap else none
  { separator := taken.head?.filter gap
    content := if trailing.isSome then rest.dropLast else rest
    trailing }

/-- The message directive `x`. -/
def message (x : Item) (ahead : List Item) : Outcome :=
  let taken := statement ahead
  let later := ahead.drop taken.length
  let m := messageParts isGap taken (later.head?.any (·.value.kind = .comment))
  let words := Text.trim (Item.textOf m.content)
  let blanks := m.content.map blanked
  let kept := m.separator.toList ++ m.trailing.toList
  let string := .char '"' :: Text.replaceSymbol (.char '"') (.char '\'') words ++ [.char '"']
  { self := setText ".OUT" x
    shown :=
      if words.isEmpty then kept.take 1 ++ blanks ++ kept.drop 1
      else
        m.separator.getD (made .whitespace [.char ' ']) :: blanks ++
          made .string string :: m.trailing.toList
    taken := taken.length
    ahead := m.separator.toList ++ blanks ++ m.trailing.toList ++ later }

/-! ### Repetitions -/

/-- A group gets braces for its parentheses. -/
def braced (x : Item) : Item :=
  if x.value.kind = .container && x.value.opening = "(" &&
      x.value.closing = ")" then
    Nest.setValue { x.value with opening := [.char '\x7b'], closing := [.char '\x7d'] } x
  else x

/-- Braces for the first item that is not a blank. -/
def braceFirst : List Item → List Item
  | [] => []
  | x :: rest => if x.value.isBlank then x :: braceFirst rest else braced x :: rest

/-- Braces for the group after the next comma, on the line and with the same owner, which is
given as it is seen from the next item. -/
def braceBody (owner : Option Nat) : List Item → List Item
  | [] => []
  | x :: rest =>
    if x.value.isNewline || x.value.owner ≠ owner then x :: rest
    else if x.value.isOperator "," then x :: braceFirst rest
    else x :: braceBody (owner.map (· + 1)) rest

/-! ### Conditions -/

/-- An expression: its items, the items after it, and whether a comma ended it. -/
structure Expression where
  items : List Item
  rest : List Item
  comma : Bool

/-- Retargets an expression up to a comma, to the item at distance `body`, to a comment or to the
end of the line. -/
def expression (opening : Text) (before : List Piece) (body : Option Nat) :
    List Item → Expression
  | [] => ⟨[], [], false⟩
  | x :: rest =>
    if body = some 0 || x.value.isNewline || x.value.kind = .comment then ⟨[], x :: rest, false⟩
    else if x.value.isOperator "," then ⟨[blanked x], rest, true⟩
    else
      let y := written quoteSingle opening before x rest
      let e := expression opening (y.value :: before) (body.map (· - 1)) (after x rest)
      ⟨y :: e.items, e.rest, e.comma⟩
termination_by ahead => ahead.length

/-- An expression whose body is at distance `body` goes on with the piece `p`. -/
def expressionGoesOn (body : Option Nat) (p : Piece) : Bool :=
  !(body = some 0 || p.isNewline || p.kind = .comment)

section

variable {body : Option Nat} {x : Item} (opening : Text) (before : List Piece) (rest : List Item)

/-- An expression ends before its body and at the end of the line. -/
theorem expression_stop (h : expressionGoesOn body x.value = false) :
    expression opening before body (x :: rest) = ⟨[], x :: rest, false⟩ := by
  rw [expressionGoesOn, Bool.not_eq_false'] at h
  rw [expression, if_pos h]

/-- It ends with a comma, which is blanked out. -/
theorem expression_comma (h : expressionGoesOn body x.value = true)
    (hcomma : x.value.isOperator "," = true) :
    expression opening before body (x :: rest) = ⟨[blanked x], rest, true⟩ := by
  rw [expressionGoesOn, Bool.not_eq_true'] at h
  rw [expression, if_neg (by simp [h]), if_pos hcomma]

/-- Anything else is written, and the expression goes on. -/
theorem expression_cons (h : expressionGoesOn body x.value = true)
    (hcomma : x.value.isOperator "," = false) :
    expression opening before body (x :: rest) =
      let y := written quoteSingle opening before x rest
      let e := expression opening (y.value :: before) (body.map (· - 1)) (after x rest)
      ⟨y :: e.items, e.rest, e.comma⟩ := by
  rw [expressionGoesOn, Bool.not_eq_true'] at h
  rw [expression, if_neg (by simp [h]), if_neg (by simp [hcomma])]

end

/-- The distance of the body of a directive. -/
def bodyDistance (p : Piece) : Option Nat :=
  if p.body then p.parts.bind fun n => if n = 0 then none else some (n - 1) else none

/-- The condition `x`, which compares its expression with zero. -/
def condition (opening comparison : Text) (before : List Piece) (x : Item) (ahead : List Item) :
    Outcome :=
  let self := setText conditional x
  let e := expression opening (self.value :: before) (bodyDistance x.value) ahead
  { self, taken := e.items.length, ahead := e.items ++ e.rest
    shown := e.items ++
      if e.comma then [made .operator comparison, made .number [.char '0']] else [] }

/-! ### Arguments before the body -/

/-- The number of arguments before the body. -/
def leading (p : Piece) : Nat := if p.body then p.parts.getD 0 - 1 else p.parts.getD 0

/-- The condition `x` on the pass of the assembler. -/
def pass (written : Text) (x : Item) (ahead : List Item) : Outcome :=
  let self := setText conditional x
  match ahead.take (leading x.value) with
  | [] => { self, shown := [made .whitespace written], ahead }
  | first :: rest =>
    { self, ahead := setText written (blanked first) :: rest.map blanked ++
        ahead.drop (leading x.value) }

/-- Changes the first element that `p` holds of. -/
def modifyFirst {α : Type} (p : α → Bool) (f : α → α) : List α → List α
  | [] => []
  | x :: rest => if p x then f x :: rest else x :: modifyFirst p f rest

/-- Changes the last element that `p` holds of. -/
def modifyLast {α : Type} (p : α → Bool) (f : α → α) (xs : List α) : List α :=
  (modifyFirst p f xs.reverse).reverse

/-- The item as a single blank. -/
def spaced (x : Item) : Item := setText [.char ' '] (blanked x)

/-- The arguments of a macro definition: blanks for parentheses and commas, and no blank in front
of a body. -/
def header (body : Bool) (xs : List Item) : List Item :=
  let xs := modifyFirst (·.value.isOperator "(") spaced xs
  let xs := modifyLast (·.value.isOperator ")") blanked xs
  let xs := xs.map fun x => if x.value.isOperator "," then spaced x else x
  if body then (blankLeading xs.reverse).reverse else xs

section Separated

variable {α β : Type} {p : α → Text → Bool} {q : β → Text → Bool} {g h : α → α} {g' h' : β → β}
  {f : α → β}

/-- The arguments of a macro definition, before the blanks in front of a body go; `g` makes a blank
of an argument, and `h` blanks it out. -/
def separated (p : α → Text → Bool) (g h : α → α) (xs : List α) : List α :=
  (modifyLast (p · ")") h (modifyFirst (p · "(") g xs)).map fun x => if p x "," then g x else x

theorem header_eq (body : Bool) (xs : List Item) :
    header body xs =
      let ys := separated (·.value.isOperator) spaced blanked xs
      if body then (blankLeading ys.reverse).reverse else ys := rfl

theorem modifyFirst_map {p : α → Bool} {q : β → Bool} (hp : ∀ x, q (f x) = p x)
    (hg : ∀ x, g' (f x) = f (g x)) (xs : List α) :
    modifyFirst q g' (xs.map f) = (modifyFirst p g xs).map f := by
  induction xs with
  | nil => rfl
  | cons x xs ih =>
    rw [map_cons, modifyFirst, modifyFirst, hp]
    split
    · rw [map_cons, hg]
    · rw [map_cons, ih]

theorem separated_map (hop : ∀ x text, q (f x) text = p x text)
    (hg : ∀ x, g' (f x) = f (g x)) (hh : ∀ x, h' (f x) = f (h x)) (xs : List α) :
    separated q g' h' (xs.map f) = (separated p g h xs).map f := by
  rw [separated, modifyFirst_map (hop · "(") hg, modifyLast, ← map_reverse,
    modifyFirst_map (hop · ")") hh, ← map_reverse, List.map_map, separated, List.map_map]
  refine map_congr_left fun x _ => ?_
  simp only [Function.comp_apply, hop, hg, apply_ite f]

theorem blankLeading_map {f : Item → Item} (hblank : ∀ x, (f x).value.isBlank = x.value.isBlank)
    (hblanked : ∀ x, blanked (f x) = f (blanked x)) (xs : List Item) :
    blankLeading (xs.map f) = (blankLeading xs).map f := by
  induction xs with
  | nil => rfl
  | cons x xs ih =>
    simp only [map_cons, blankLeading, hblank, hblanked, ih]
    split <;> rfl

/-- Changes that spare operators and blanks commute with the rule. -/
theorem header_map {f : Item → Item}
    (hop : ∀ x text, (f x).value.isOperator text = x.value.isOperator text)
    (hblank : ∀ x, (f x).value.isBlank = x.value.isBlank)
    (hspaced : ∀ x, spaced (f x) = f (spaced x))
    (hblanked : ∀ x, blanked (f x) = f (blanked x)) (body : Bool) (xs : List Item) :
    header body (xs.map f) = (header body xs).map f := by
  have hseparated : separated (·.value.isOperator) spaced blanked (xs.map f) =
      (separated (·.value.isOperator) spaced blanked xs).map f :=
    separated_map (q := fun x : Item => x.value.isOperator) (f := f) hop hspaced hblanked xs
  rw [header_eq, header_eq, hseparated]
  cases body with
  | false => rfl
  | true => simp [← map_reverse, blankLeading_map hblank hblanked]

end Separated

/-- The macro definition `x`. -/
def definition (x : Item) (ahead : List Item) : Outcome :=
  { self := setText macroDefinition x
    ahead := header x.value.body (ahead.take (leading x.value)) ++ ahead.drop (leading x.value) }

/-! ## The walk -/

/-- The word `x`. -/
def word (opening : Text) (before : List Piece) (x : Item) (ahead : List Item) : Outcome :=
  let key := x.value.upper
  if key = Keyword.repetition then
    { self := x, ahead := braceBody (x.value.owner.map (· + 1)) ahead }
  else if key = Keyword.halfWords then { self := setText dataDirective x, ahead }
  else if Keyword.immediates.elem key then immediate opening before x ahead
  else if key = Keyword.message then message x ahead
  else
    match x.value.parts, Head.ofWord? key with
    | some _, some .ifNotZero => condition opening " <> " before x ahead
    | some _, some .ifZero => condition opening " = " before x ahead
    | some _, some .ifFirstPass => pass " 1 " x ahead
    | some _, some .ifSecondPass => pass " 2 " x ahead
    | some _, some .define => definition x ahead
    | _, _ => { self := x, ahead }

end Macro10.Row
