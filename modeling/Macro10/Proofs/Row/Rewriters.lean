import Macro10.Proofs.Row.Operand

/-!
# Three ways to rewrite an operand

An operand is rewritten in the walk along its row, or before it is shown after the number sign, or
up to the comma of a condition. All three come to the same text (`operandText`):
`textOf_instruction`, `textOf_immediate`, `textOf_condition`.
-/

namespace Macro10.Row

open List

variable {before : List Piece} {z : Item} {xs : List Item} {w : Text} {e : Piece}

open Item (blanked setText textOf textOf_append text_eq)
open Retarget (quoteSingle conditional closingKeyword?)
open Text (ofString upper)

variable {p : Piece} {x : Item}

/-! ## An operand for the target -/

/-- An item of an operand for the target. -/
def rewritten (x : Item) (ahead : List Item) : Item :=
  if x.value.kind = .operator then operator [] x ahead else x

/-- An operand for the target, without what is inside its groups. -/
def rewrite : List Item → List Item
  | [] => []
  | x :: rest => rewritten x rest :: rewrite rest

/-- The text of an operand in normal form for the target. -/
def operandText (newline : Text) (xs : List Item) : Text :=
  textOf ((rewrite xs).map (descend newline))

@[simp]
theorem length_rewrite (xs : List Item) : (rewrite xs).length = xs.length := by
  induction xs with
  | nil => rfl
  | cons x rest ih => rw [rewrite, length_cons, ih, length_cons]

/-- The item ends an operand: it is a comma, or it ends the line. -/
def endsOperand (x : Item) : Bool := x.value.isOperator "," || x.value.isNewline

section

variable (hz : endsOperand z = true)
include hz

theorem kind_of_endsOperand : z.value.kind = .operator ∨ z.value.kind = .whitespace := by
  rcases Bool.or_eq_true_iff.mp hz with hcomma | hline
  · exact .inl (Piece.kind_of_isOperator hcomma)
  · exact .inr (Piece.kind_of_isNewline hline)

theorem isBlank_of_endsOperand : z.value.isBlank = false := by
  rcases Bool.or_eq_true_iff.mp hz with hcomma | hline
  · exact Piece.isBlank_of_kind_ne (by simp [Piece.kind_of_isOperator hcomma])
  · cases hblank : z.value.isBlank with
    | false => rfl
    | true => simp [Piece.isNewline_of_isBlank hblank] at hline

theorem isOperator_of_endsOperand {text : Text} (htext : text ≠ ",") :
    z.value.isOperator text = false := by
  rcases Bool.or_eq_true_iff.mp hz with hcomma | hline
  · exact Piece.isOperator_of_ne hcomma htext.symm
  · exact Piece.isOperator_of_kind_ne (by simp [Piece.kind_of_isNewline hline]) text

/-- What the rules see of an operand does not reach beyond it. -/
theorem any_afterBlanks_append {f : Piece → Bool} (hf : f z.value = false) (rest tail : List Item) :
    (afterBlanks (rest ++ z :: tail)).any f = (afterBlanks rest).any f := by
  induction rest with
  | nil => simp [afterBlanks, isBlank_of_endsOperand hz, hf]
  | cons x rest ih =>
    unfold afterBlanks at ih ⊢
    rw [cons_append, map_cons, map_cons, dropWhile_cons, dropWhile_cons]
    split
    · exact ih
    · rfl

end

section

variable {x : Item} {rest : List Item}

theorem isOperand_rewritten (hx : IsOperand x.value) (ahead : List Item) :
    IsOperand (rewritten x ahead).value := by
  unfold rewritten
  split
  · next hkind =>
    have hset {text : Text} (hcomma : text ≠ ",")
        (hcolon : text ≠ ":") : IsOperand (setText text x).value :=
      hx.setText hkind hcomma hcolon
    unfold operator
    dsimp only
    split
    · exact hset (by decide) (by decide)
    split
    · exact hset (by decide) (by decide)
    split
    · split
      · exact hset (by decide) (by decide)
      · exact hx
    split
    · split
      · exact hx.blanked
      · exact hx
    split
    · split
      · exact hx.blanked
      · exact hx
    · exact hx
  · exact hx

/-- What comes after the operand plays no part. -/
theorem rewritten_append (hx : IsOperand x.value) (hz : endsOperand z = true) (tail : List Item) :
    rewritten x (rest ++ z :: tail) = rewritten x rest := by
  unfold rewritten
  split
  · next hkind =>
    have hcomma : x.value.text ≠ "," := by
      intro htext
      have hop := hx.comma
      simp [Piece.isOperator, Token.isOperator, Piece.token, hkind, htext] at hop
    have hplus : z.value.isOperator "+" = false :=
      isOperator_of_endsOperand hz (by decide)
    have hminus : z.value.isOperator "-" = false :=
      isOperator_of_endsOperand hz (by decide)
    have hsigns := any_afterBlanks_append hz
      (f := fun p => p.isOperator "+" || p.isOperator "-")
      (by simp [hplus, hminus]) rest tail
    have hname : (rest ++ z :: tail).head?.any (·.value.kind = .identifier) =
        rest.head?.any (·.value.kind = .identifier) := by
      cases rest with
      | nil => rcases kind_of_endsOperand hz with hz | hz <;> simp [hz]
      | cons y rest => rfl
    simp only [operator, hsigns, hname, hcomma, if_false]
  · rfl

theorem written_operand (hx : IsOperand x.value) (hz : endsOperand z = true)
    (hrole : roleAfter before x.value = .inline) (respell : Text → Text) (tail : List Item) :
    written respell [] before x (rest ++ z :: tail) = rewritten x rest := by
  rw [← rewritten_append hx hz tail]
  unfold written rewritten
  cases hkind : x.value.kind with
  | string => exact absurd hkind hx.string
  | container =>
    have hentered : entered before x.value = x.value := by
      rw [entered, hrole]
      exact congrArg (fun role => { x.value with role }) hx.role.symm
    rw [enter, hentered]
    simp [Nest.setValue]
  | operator => rfl
  | comment | identifier | number | whitespace => rfl

theorem after_operand (hrest : ∀ y ∈ rest, IsOperand y.value) (hz : endsOperand z = true)
    (tail : List Item) : after x (rest ++ z :: tail) = rest ++ z :: tail := by
  have hcolon : ∀ y, (rest ++ z :: tail).head? = some y → y.value.isOperator ":" = false := by
    cases rest with
    | nil =>
      rintro y ⟨⟩
      exact isOperator_of_endsOperand hz (by decide)
    | cons y rest =>
      rintro y ⟨⟩
      exact (hrest _ mem_cons_self).colon
  unfold after afterOperator
  split
  · split
    · cases hrow : rest ++ z :: tail with
      | nil => rfl
      | cons y ys =>
        have hy := hcolon y (by rw [hrow]; rfl)
        simp [hy]
    · rfl
  · rfl

end

/-! ## In a row -/

theorem startsStatement_cons (hp : IsOperand p)
    (h : startsStatement before = false) : startsStatement (p :: before) = false := by
  unfold startsStatement at h ⊢
  obtain ⟨hall, hcolon⟩ := Bool.or_eq_false_iff.mp h
  rw [takeWhile_cons, hp.isNewline, dropWhile_cons]
  refine Bool.or_eq_false_iff.mpr ⟨?_, ?_⟩
  · simp [hall]
  · split
    · exact hcolon
    · simp [hp.colon]

theorem roleAfter_of_owner (h : p.owner = none) (before : List Piece) :
    roleAfter before p = .inline := by
  simp only [roleAfter, h]

section

variable (hxs : ∀ x ∈ xs, IsOperand x.value ∧ x.value.owner = none) (hz : endsOperand z = true)
include hxs hz

/-- The walk along a row rewrites an operand. -/
theorem exists_retargetRow_operand (hbefore : startsStatement before = false) (tail : List Item) :
    ∃ before', retargetRow [] before (xs ++ z :: tail) =
      rewrite xs ++ retargetRow [] before' (z :: tail) := by
  induction xs generalizing before with
  | nil => exact ⟨before, rfl⟩
  | cons x xs ih =>
    obtain ⟨⟨hx, howner⟩, hxs⟩ := forall_mem_cons.mp hxs
    obtain ⟨before', hrow⟩ :=
      ih hxs (startsStatement_cons (isOperand_rewritten hx xs) hbefore)
    refine ⟨before', ?_⟩
    rw [rewrite, cons_append, cons_append, ← hrow]
    by_cases hkind : x.value.kind = .identifier
    · have hself : rewritten x xs = x := if_neg (by simp [hkind])
      rw [retargetRow_word _ _ _ hkind, word_of_ordinary (hx.ordinary hkind)
        (Piece.upper_of_kind_ne (by simp [hkind])), hself]
      rfl
    · have hannounced : announcement [] before = [] := by rw [announcement, hbefore]; rfl
      rw [retargetRow, if_neg hkind, hannounced,
        written_operand hx hz (roleAfter_of_owner howner _),
        after_operand (fun y hy => (hxs y hy).1) hz]
      simp

theorem operand_eq (before : List Piece) (tail : List Item) :
    operand [] before xs.length (xs ++ z :: tail) = rewrite xs ++ z :: tail := by
  induction xs generalizing before with
  | nil => rfl
  | cons x xs ih =>
    obtain ⟨⟨hx, howner⟩, hxs⟩ := forall_mem_cons.mp hxs
    rw [length_cons, cons_append, operand,
      written_operand hx hz (roleAfter_of_owner howner _),
      after_operand (fun y hy => (hxs y hy).1) hz, ih hxs]
    rfl

end

theorem word_immediate (hw : Keyword.immediates.elem (upper w) = true) :
    Head.ofWord? (upper w) = none ∧ ∀ ahead, word [] [] (.node (nameOf w) []) ahead =
      immediate [] [] (.node (nameOf w) []) ahead := by
  have hkeys : ∀ key ∈ Keyword.immediates, Head.ofWord? key = none ∧ key ≠ Keyword.repetition ∧
      key ≠ Keyword.halfWords := by decide
  obtain ⟨hhead, hrepetition, hhalves⟩ := hkeys _ (elem_iff.mp hw)
  refine ⟨hhead, fun ahead => ?_⟩
  have hupper : (nameOf w).upper = upper w := rfl
  simp only [word, Nest.value_node, hupper]
  rw [if_neg hrepetition, if_neg hhalves, if_pos hw]

/-- An immediate instruction shows its operand after a number sign. -/
theorem immediate_operand (hxs : ∀ x ∈ xs, IsOperand x.value ∧ x.value.owner = none)
    (hled : Led xs) (he : e.isNewline = true) :
    immediate [] [] x (.node blank [] :: (xs ++ [.node e []])) =
      { self := setText x.value.text.dropLast x
        shown := Item.made .whitespace [.char ' '] :: Item.made .operator [.char '#'] ::
          .node blank.blanked [] :: rewrite xs
        taken := xs.length + 1
        ahead := .node blank.blanked [] :: (rewrite xs ++ [.node e []]) } := by
  have hstatement : statement (.node blank [] :: (xs ++ [.node e []])) = .node blank [] :: xs := by
    have hline : ∀ y ∈ .node blank [] :: xs,
        (!(y.value.isNewline || y.value.kind = .comment)) = true := by
      refine forall_mem_cons.mpr ⟨by decide, fun y hy => ?_⟩
      simp [(hxs y hy).1.isNewline, (hxs y hy).1.comment]
    rw [statement, ← cons_append, takeWhile_append_of_pos hline]
    simp [he]
  have hfirst : blankLeading (.node blank [] :: xs) = .node blank.blanked [] :: xs := by
    rw [blankLeading, hled.blankLeading]
    rfl
  have hall : ((.node blank [] :: xs).all fun y => y.value.isBlank) = false := by
    rw [all_cons, hled.all_isBlank, Bool.and_false]
  have hblanked : ∀ y ∈ .node blank.blanked [] :: xs, IsOperand y.value ∧ y.value.owner = none :=
    forall_mem_cons.mpr ⟨⟨isOperand_blank.blanked, rfl⟩, hxs⟩
  have hoperand (before : List Piece) : operand [] before (xs.length + 1)
      (.node blank.blanked [] :: (xs ++ [.node e []])) =
        .node blank.blanked [] :: (rewrite xs ++ [.node e []]) :=
    operand_eq hblanked (z := .node e []) (by simp [endsOperand, he]) before []
  simp [immediate, hstatement, hfirst, hall, hoperand]

/-! ## In a condition -/

section

variable (hxs : ∀ x ∈ xs, IsOperand x.value)
include hxs

/-- A condition rewrites its operand in the same way, and the comma is left out. -/
theorem expression_operand {distance : Nat} (hdistance : OwnedFrom distance xs) {parts : Nat}
    (hbefore : before[distance]? = some p) (hparts : p.parts = some parts)
    (hlt : distance + xs.length < parts) (hz : z.value.isOperator "," = true) (tail : List Item) :
    expression [] before (some (xs.length + 1)) (xs ++ z :: tail) =
      ⟨rewrite xs ++ [blanked z], tail, true⟩ := by
  have hends : endsOperand z = true := by simp [endsOperand, hz]
  induction xs generalizing before distance with
  | nil =>
    have hgoes : expressionGoesOn (some 1) z.value = true := by
      simp [expressionGoesOn, Piece.kind_of_isOperator hz,
        Piece.isNewline_eq_false (p := z.value) (by simp [Piece.kind_of_isOperator hz])]
    exact expression_comma _ _ _ hgoes hz
  | cons x xs ih =>
    obtain ⟨hx, hxs⟩ := forall_mem_cons.mp hxs
    obtain ⟨howner, hdistance⟩ := hdistance
    have hgoes : expressionGoesOn (some (xs.length + 1 + 1)) x.value = true := by
      simp [expressionGoesOn, hx.isNewline, hx.comment]
    -- the body of the directive is further on
    have hrole : roleAfter before x.value = .inline := by
      have hne : parts ≠ distance + 1 := by
        rw [length_cons] at hlt
        omega
      simp [roleAfter, howner, hbefore, hparts, hne]
    rw [length_cons, cons_append, expression_cons _ _ _ hgoes hx.comma,
      written_operand hx hends hrole, after_operand hxs hends]
    have hbefore' : ((rewritten x xs).value :: before)[distance + 1]? = some p := by
      rwa [getElem?_cons_succ]
    have hrest := ih hxs hdistance hbefore' (by rw [length_cons] at hlt; omega)
    simp only [Option.map_some, Nat.add_sub_cancel, hrest]
    rfl

/-- A condition shows its operand before the comparison. -/
theorem condition_operand (howned : OwnedFrom 0 xs)
    (hparts : p.parts = some (xs.length + 2)) (hbody : p.body = true)
    (hz : z.value.isOperator "," = true) (comparison : Text) (tail : List Item) :
    condition [] comparison [] (.node p []) (xs ++ z :: tail) =
      { self := .node (p.setText conditional) []
        shown := rewrite xs ++ [blanked z] ++
          leaves [.made .operator comparison, .made .number [.char '0']]
        taken := xs.length + 1
        ahead := rewrite xs ++ [blanked z] ++ tail } := by
  have hdistance : bodyDistance p = some (xs.length + 1) := by simp [bodyDistance, hbody, hparts]
  have hbefore : [p.setText conditional][0]? = some (p.setText conditional) := rfl
  simp only [condition, Nest.value_node, Item.value_setText, hdistance,
    expression_operand hxs howned hbefore hparts (by omega) hz]
  simp [leaves, Item.made, setText, Nest.setValue]

end

/-! ## Owners play no part -/

/-- The item without its owner. -/
def bare (x : Item) : Item := Nest.setValue { x.value with owner := none } x

theorem afterBlanks_bare (ahead : List Item) :
    afterBlanks (ahead.map bare) = (afterBlanks ahead).map fun p => { p with owner := none } := by
  induction ahead with
  | nil => rfl
  | cons x ahead ih =>
    have hblank : (bare x).value.isBlank = x.value.isBlank := rfl
    unfold afterBlanks at ih ⊢
    rw [map_cons, map_cons, map_cons, dropWhile_cons, dropWhile_cons, hblank]
    split
    · exact ih
    · rfl

theorem operator_bare (x : Item) (ahead : List Item) :
    operator [] (bare x) (ahead.map bare) = bare (operator [] x ahead) := by
  have hsigns : (afterBlanks (ahead.map bare)).any
        (fun p => p.isOperator "+" || p.isOperator "-") =
      (afterBlanks ahead).any (fun p => p.isOperator "+" || p.isOperator "-") := by
    rw [afterBlanks_bare]
    cases afterBlanks ahead <;> rfl
  have hname : (ahead.map bare).head?.any (·.value.kind = .identifier) =
      ahead.head?.any (·.value.kind = .identifier) := by
    cases ahead <;> rfl
  have hends : endsLine [] (ahead.map bare) = endsLine [] ahead := by
    rw [endsLine, endsLine, afterBlanks_bare]
    cases afterBlanks ahead <;> rfl
  simp only [operator, hsigns, hname, hends, apply_ite bare]
  rfl

theorem rewritten_bare (x : Item) (ahead : List Item) :
    rewritten (bare x) (ahead.map bare) = bare (rewritten x ahead) := by
  unfold rewritten
  rw [operator_bare, apply_ite bare]
  rfl

theorem rewrite_bare (xs : List Item) : rewrite (xs.map bare) = (rewrite xs).map bare := by
  induction xs with
  | nil => rfl
  | cons x xs ih => rw [map_cons, rewrite, rewrite, rewritten_bare, ih, map_cons]

theorem text_descend_bare (newline : Text) (x : Item) :
    Item.text (descend newline (bare x)) = Item.text (descend newline x) := by
  have hkind : (bare x).value.kind = x.value.kind := rfl
  unfold descend
  rw [hkind]
  split
  · unfold refill
    have hrole : (bare x).value.role = x.value.role := rfl
    rw [hrole]
    split <;> simp [text_eq, bare]
  · simp [text_eq, bare]

theorem operandText_bare (newline : Text) (xs : List Item) :
    operandText newline (xs.map bare) = operandText newline xs := by
  rw [operandText, rewrite_bare, operandText, textOf, textOf, flatMap_map, flatMap_map, flatMap_map]
  exact flatMap_congr fun x _ => text_descend_bare newline x

theorem map_bare_filled_numbered (distance : Nat) (ps : List Piece) (xs : List Item) :
    (filled (numbered distance ps) xs).map bare = (filled ps xs).map bare := by
  induction ps generalizing distance xs with
  | nil => rfl
  | cons p ps ih =>
    cases xs with
    | nil => rfl
    | cons x xs => exact congrArg (bare (.node p (normal x.inside)) :: ·) (ih (distance + 1) xs)

theorem map_bare_ownedArguments (xs : List Item) :
    (ownedArguments xs).map bare = (normal xs).map bare := by
  rw [ownedArguments, map_bare_filled_numbered, normal_eq_filled]

/-- The operand of a condition has the text of an operand that no one owns. -/
theorem operandText_ownedArguments (newline : Text) (xs : List Item) :
    operandText newline (ownedArguments xs) = operandText newline (normal xs) := by
  rw [← operandText_bare, map_bare_ownedArguments, operandText_bare]

/-! ## Texts -/

theorem textOf_name {c : Text} (hc : Ordinary c) (newline : Text) :
    textOf (retarget newline [] (normal (leaves [nameOf c]))) = c := by
  have hwalk : retargetRow [] [] (leaves [nameOf c]) = leaves [nameOf c] := by
    have hsteady : ∀ x ∈ leaves [nameOf c], Steady x :=
      forall_mem_singleton.mpr (.inr ⟨rfl, hc⟩)
    simpa [retargetRow] using retargetRow_steady hsteady [] []
  rw [normal_leaves, normalAfter_eq_self
    (forall_mem_singleton.mpr (isArgument_nameOf hc.1).toInert), retarget_eq, hwalk,
    textOf_leaves (by simp)]
  simp

section

variable (hxs : ∀ x ∈ xs, IsOperand x.value)
include hxs

section

variable (hmarks : ∀ x ∈ xs, x.value.Unmarked) (he : e.isNewline = true)
include he

/-- A word that collects nothing shows its operand after some pieces. -/
theorem textOf_statement (hw : Head.ofWord? (upper w) = none) (front : List Piece)
    (hfront : ∀ p ∈ front, p.kind ≠ .container)
    (hwalk : retargetRow [] [] (.node (nameOf w) [] :: .node blank [] ::
      (normal xs ++ [.node e []])) = leaves front ++ rewrite (normal xs) ++ leaves [e])
    (newline : Text) :
    textOf (retarget newline [] (normal (leaves [nameOf w, blank] ++ xs ++ leaves [e]))) =
      front.flatMap Piece.text ++ operandText newline (normal xs) ++ e.text := by
  have hend := Piece.kind_of_isNewline he
  rw [normal_statement hxs hend hw, retarget_eq]
  change textOf ((retargetRow [] [] (.node (nameOf w) [] :: .node blank [] ::
    (normal xs ++ [.node e []]))).map _) = _
  rw [hwalk, map_append, map_append, textOf_append, textOf_append, textOf_leaves hfront,
    textOf_leaves (by simp [hend]), flatMap_singleton]
  rfl

include hmarks

/-- **An instruction with its operand.** -/
theorem textOf_instruction (hw : Ordinary w) (newline : Text) :
    textOf (retarget newline [] (normal (leaves [nameOf w, blank] ++ xs ++ leaves [e]))) =
      w ++ " " ++ operandText newline (normal xs) ++ e.text := by
  have hz : endsOperand (.node e []) = true := by simp [endsOperand, he]
  have hsteady : ∀ x ∈ leaves [nameOf w, blank], Steady x :=
    forall_mem_cons.mpr ⟨.inr ⟨rfl, hw⟩, forall_mem_singleton.mpr (.inl rfl)⟩
  obtain ⟨before, hrow⟩ := exists_retargetRow_operand (isOperand_normal hxs hmarks) hz
    (show startsStatement [blank, nameOf w] = false from rfl) []
  refine (textOf_statement hxs he hw.1 [nameOf w, blank] (by simp) ?_ newline).trans (by simp)
  refine (retargetRow_steady hsteady [] (normal xs ++ [.node e []])).trans ?_
  change _ ++ retargetRow [] [blank, nameOf w] (normal xs ++ .node e [] :: []) = _
  rw [hrow, retargetRow_whitespace (x := .node e []) _ _ _ (Piece.kind_of_isNewline he),
    retargetRow,
    append_assoc]
  rfl

/-- **An immediate instruction with its operand.** -/
theorem textOf_immediate (hw : Keyword.immediates.elem (upper w) = true)
    (hled : Led xs) (newline : Text) :
    textOf (retarget newline [] (normal (leaves [nameOf w, blank] ++ xs ++ leaves [e]))) =
      w.dropLast ++ " #" ++ operandText newline (normal xs) ++ e.text := by
  obtain ⟨hhead, hword⟩ := word_immediate hw
  refine (textOf_statement hxs he hhead [nameOf w.dropLast, blank,
    .made .operator "#", blank.blanked] (by simp) ?_ newline).trans (by simp [ofString])
  have hdrop : (.node blank.blanked [] :: (rewrite (normal xs) ++ [.node e []])).drop
      ((normal xs).length + 1) = [.node e []] := by
    rw [drop_succ_cons, ← length_rewrite, drop_left]
  rw [retargetRow_word (x := .node (nameOf w) []) _ _ _ rfl, hword,
    immediate_operand (isOperand_normal hxs hmarks) (hled.normal hxs) he]
  simp only [hdrop]
  rw [retargetRow_whitespace (x := .node e []) _ _ _ (Piece.kind_of_isNewline he), retargetRow]
  rfl

end

/-- A condition up to its body. -/
theorem fronts_condition {head : Head} {comparison : Text}
    (hhead : head = .ifZero ∧ comparison = " = " ∨ head = .ifNotZero ∧ comparison = " <> ")
    (newline : Text) :
    Fronts newline (ownedArguments (xs ++ [.node comma []])) head
      (conditional ++ operandText newline (normal xs) ++ comparison ++ "0") := by
  intro tail
  obtain ⟨hdirective, hword⟩ : (∀ x ahead, directive [] [] x ahead head =
      condition [] comparison [] x ahead) ∧ head.opener = conditional := by
    rcases hhead with ⟨rfl, rfl⟩ | ⟨rfl, rfl⟩ <;> exact ⟨fun _ _ => rfl, rfl⟩
  have hcondition := condition_operand (p := marked (xs.length + 1) head)
    (isOperand_ownedArguments hxs) (ownedFrom_filled 0 _ xs) (by simp [marked]) rfl
    (z := .node (comma.ownedAt xs.length) []) rfl comparison tail
  have hlength : (rewrite (ownedArguments xs) ++
      [blanked (.node (comma.ownedAt xs.length) [])]).length = (ownedArguments xs).length + 1 := by
    simp
  rw [← hlength] at hcondition
  rw [length_ownedArguments, length_append, ownedArguments_comma hxs]
  refine ⟨leaves [(marked (xs.length + 1) head).setText conditional] ++
      rewrite (ownedArguments xs) ++ leaves [(comma.ownedAt xs.length).blanked,
        .made .operator comparison, .made .number "0"],
    ((rewrite (ownedArguments xs) ++ [blanked (.node (comma.ownedAt xs.length) [])]).map
      Nest.value).reverse ++ [(marked (xs.length + 1) head).setText conditional], ?_, ?_, ?_⟩
  · change retargetRow [] [] (.node (marked (xs.length + 1) head) [] ::
      (ownedArguments xs ++ [.node (comma.ownedAt xs.length) []] ++ tail)) = _
    rw [append_assoc, singleton_append, retargetRow_word _ _ _ rfl, word_marked,
      hdirective, hcondition]
    simp only [take_left, drop_left]
    simp [leaves, ofString, blanked]
  · rw [map_append, map_append, textOf_append, textOf_append,
      textOf_leaves (by simp [marked]), textOf_leaves (by simp)]
    change _ ++ operandText newline (ownedArguments xs) ++ _ = _
    rw [operandText_ownedArguments]
    simp
  · rw [hword, getElem?_append_right (by simp)]
    simp

/-- **A condition with its operand and its body.** -/
theorem textOf_condition {g : Piece} (he : e.isNewline = true) (hg : g.kind = .container)
    (inside : List Item) (newline : Text) :
    textOf (retarget newline [] (normal (leaves [nameOf (Head.keyword .ifNotZero), blank] ++
        xs ++ .node comma [] :: .node g inside :: leaves [e]))) =
      ".IF " ++ operandText newline (normal xs) ++ " <> 0" ++
        (newline ++ textOf (retarget newline [] (normal inside)) ++ newline ++
          ".ENDIF" ++ e.text) := by
  have hys : ∀ x ∈ (.node blank [] :: xs : List Item), IsOperand x.value :=
    forall_mem_cons.mpr ⟨isOperand_blank, hxs⟩
  have hawaits : AwaitsBody false
      (List.map Nest.value (.node blank [] :: xs ++ [.node comma []])) := by
    rw [map_append]
    exact awaitsBody_operand (isOperand_values hys)
  have htext := (fronts_condition hys (.inr ⟨rfl, rfl⟩) newline).textOf_directive hawaits hg he
    inside
  have hrow : leaves [nameOf (Head.keyword .ifNotZero), blank] ++ xs ++
      .node comma [] :: .node g inside :: leaves [e] =
        .node (nameOf (Head.keyword .ifNotZero)) [] ::
        (.node blank [] :: xs ++ [.node comma []]) ++ .node g inside :: leaves [e] := by
    simp [leaves]
  have hblank (ys : List Item) :
      operandText newline (.node blank [] :: ys) = .char ' ' :: operandText newline ys := by
    change textOf ((leaves [blank] ++ rewrite ys).map _) = _
    rw [map_append, textOf_append, textOf_leaves (by simp)]
    rfl
  rw [hrow, htext, normal_cons isArgument_blank.toInert, hblank]
  simp [conditional, closingLine, ofString]

end

/-! ## Directives about a name -/

theorem isOperand_nameOf {c : Text} (hc : Ordinary c) : IsOperand (nameOf c) :=
  ⟨⟨nofun, nofun, Piece.isNewline_eq_false (p := nameOf c) nofun⟩,
    Piece.isOperator_of_kind_ne (p := nameOf c) nofun _,
    Piece.isOperator_of_kind_ne (p := nameOf c) nofun _, fun _ => hc, rfl⟩

theorem fronts_arguments {c : Text} (head : Head) (hc : Ordinary c) (newline : Text) :
    Fronts newline (ownedArguments (leaves (arguments c head))) head (targetLine c head) := by
  have hoperand : ∀ x ∈ leaves [blank, nameOf c], IsOperand x.value :=
    forall_mem_cons.mpr ⟨isOperand_blank, forall_mem_singleton.mpr (isOperand_nameOf hc)⟩
  have hinert : ∀ p ∈ [blank, nameOf c], Inert p := forall_mem_cons.mpr
    ⟨isArgument_blank.toInert, forall_mem_singleton.mpr (isArgument_nameOf hc.1).toInert⟩
  have htext : operandText newline (normal (leaves [blank, nameOf c])) = " " ++ c := by
    rw [normal_leaves, normalAfter_eq_self hinert, operandText]
    change textOf ((leaves [blank, nameOf c]).map _) = _
    rw [textOf_leaves (by simp)]
    simp
  have hcondition {head : Head} {comparison : Text}
      (hhead : head = .ifZero ∧ comparison = " = " ∨ head = .ifNotZero ∧ comparison = " <> ")
      (hline : conditional ++ (" " ++ c) ++ comparison ++ "0" =
        targetLine c head) : Fronts newline (ownedArguments (leaves [blank, nameOf c] ++
          [.node comma []])) head (targetLine c head) := by
    rw [← hline, ← htext]
    exact fronts_condition hoperand hhead newline
  cases head with
  | ifZero =>
    exact hcondition (.inl ⟨rfl, rfl⟩) (by simp [targetLine, conditional, ofString])
  | ifNotZero =>
    exact hcondition (.inr ⟨rfl, rfl⟩) (by simp [targetLine, conditional, ofString])
  | ifFirstPass | ifSecondPass =>
    rw [ownedArguments_leaves (isArgument_arguments hc _)]
    exact fronts_pass rfl (fun _ _ => rfl) newline
  | define =>
    have hheader : header true (leaves (numbered 0 [blank, nameOf c])) =
        leaves (numbered 0 [blank, nameOf c]) := rfl
    have hsteady : ∀ x ∈ leaves (numbered 0 [blank, nameOf c]), Steady x :=
      forall_mem_cons.mpr ⟨.inl rfl, forall_mem_singleton.mpr (.inr ⟨rfl, hc⟩)⟩
    have hline : ".MACRO" ++ textOf (leaves (numbered 0 [blank, nameOf c])) =
        targetLine c .define := by
      rw [flatMap_text_leaves (by simp [numbered])]
      simp [targetLine, numbered, ofString]
    rw [ownedArguments_leaves (isArgument_arguments hc _), ← hline]
    exact fronts_define hheader hsteady newline

/-- **The text of a directive with its body.** The body is retargeted as a row of its own. -/
theorem textOf_directive {c : Text} {g : Piece} (head : Head) (hc : Ordinary c)
    (hkind : g.kind = .container) (he : e.isNewline = true) (newline : Text) (inside : List Item) :
    textOf (retarget newline [] (normal (leaves (nameOf head.keyword :: arguments c head) ++
        .node g inside :: leaves [e]))) =
      targetLine c head ++ (newline ++ textOf (retarget newline [] (normal inside)) ++
        newline ++ closingLine head ++ e.text) := by
  have hawaits : AwaitsBody (!head.bodyAfterComma) (arguments c head) :=
    awaitsBody_of_isArgument (isArgument_arguments hc head) (by cases head <;> rfl)
  exact (fronts_arguments head hc newline).textOf_directive (by rwa [map_value_leaves]) hkind he
    inside

end Macro10.Row
