import Macro10.Proofs.Row.Normal
import Macro10.Proofs.Row.Walk

/-!
# Numerals spelled in another way

The passes copy numerals and do not look into them, so they commute with a new spelling of the
numerals (`word_respell`, `normal_respell`). The exception is a message directive, which writes the
text of its statement into a string.
-/

namespace Macro10

open List

variable {σ : Option Nat → Option Text} {p : Piece} {x : Item}

/-! ## Pieces -/

namespace Piece

/-- A numeral gets the spelling that there is for its label. -/
def respell (σ : Option Nat → Option Text) (p : Piece) : Piece :=
  if p.kind = .number && !p.body then p.setText ((σ p.label).getD p.text) else p

section

/-- Only numerals are spelled in another way. -/
theorem respell_of_kind_ne (h : p.kind ≠ .number) : p.respell σ = p :=
  if_neg (by simp [h])

/-- A directive with a body is left as it is: its text tells how the body is closed. -/
theorem respell_of_body (h : p.body = true) : p.respell σ = p :=
  if_neg (by simp [h])

@[simp]
theorem kind_respell : (p.respell σ).kind = p.kind := by
  unfold respell; split <;> rfl

@[simp]
theorem owner_respell : (p.respell σ).owner = p.owner := by
  unfold respell; split <;> rfl

@[simp]
theorem parts_respell : (p.respell σ).parts = p.parts := by
  unfold respell; split <;> rfl

@[simp]
theorem body_respell : (p.respell σ).body = p.body := by
  unfold respell; split <;> rfl

@[simp]
theorem opening_respell : (p.respell σ).opening = p.opening := by
  unfold respell; split <;> rfl

@[simp]
theorem closing_respell : (p.respell σ).closing = p.closing := by
  unfold respell; split <;> rfl

@[simp]
theorem isSpacing_respell : (p.respell σ).isSpacing = p.isSpacing := by
  simp [isSpacing]

@[simp]
theorem isNewline_respell : (p.respell σ).isNewline = p.isNewline := by
  by_cases h : p.kind = .number
  · rw [isNewline_eq_false (by simp [h]), isNewline_eq_false (by simp [h])]
  · rw [respell_of_kind_ne h]

@[simp]
theorem isBlank_respell : (p.respell σ).isBlank = p.isBlank := by
  by_cases h : p.kind = .number
  · simp [isBlank, Token.isBlank, token, h]
  · rw [respell_of_kind_ne h]

/-- No operator is spelled in another way. -/
@[simp]
theorem isOperator_respell (text : Text) : (p.respell σ).isOperator text = p.isOperator text := by
  by_cases h : p.kind = .number
  · rw [isOperator_of_kind_ne (by simp [h]), isOperator_of_kind_ne (by simp [h])]
  · rw [respell_of_kind_ne h]

/-- No directive is spelled in another way. -/
@[simp]
theorem head?_respell : (p.respell σ).head? = p.head? := by
  by_cases h : p.kind = .number
  · simp [head?, h]
  · rw [respell_of_kind_ne h]

@[simp]
theorem blanked_respell : (p.respell σ).blanked = p.blanked := by
  unfold respell; split <;> rfl

/-- Tokens of the target's own have no label, and keep their spelling. -/
theorem respell_made (h : σ none = none) (kind : Kind) (text : Text) :
    (made kind text).respell σ = made kind text := by
  unfold respell
  split
  · simp [made, setText, h]
  · rfl

end

end Piece

/-! ## Items -/

namespace Item

/-- The item with its numerals in another spelling. -/
def respell (σ : Option Nat → Option Text) (x : Item) : Item :=
  x.map (Piece.respell σ)

section

@[simp]
theorem value_respell : (respell σ x).value = x.value.respell σ :=
  Nest.value_map _ x

@[simp]
theorem inside_respell : (respell σ x).inside = x.inside.map (respell σ) :=
  Nest.inside_map _ x

/-- No item but a numeral is spelled in another way. -/
theorem value_respell_of_kind_ne (h : x.value.kind ≠ .number) : (respell σ x).value = x.value := by
  rw [value_respell, Piece.respell_of_kind_ne h]

theorem respell_node (p : Piece) (cs : List Item) :
    respell σ (.node p cs) = .node (p.respell σ) (cs.map (respell σ)) := by
  rw [respell, Nest.map]
  rfl

theorem respell_setValue (h : p.kind ≠ .number) :
    respell σ (Nest.setValue p x) = Nest.setValue p (respell σ x) := by
  rw [Nest.setValue, respell_node, Piece.respell_of_kind_ne h, Nest.setValue, inside_respell]

@[simp]
theorem blanked_respell : blanked (respell σ x) = blanked x := by
  simp [blanked]

@[simp]
theorem respell_blanked : respell σ (blanked x) = blanked x := by
  rw [blanked, respell_node, Piece.respell_of_kind_ne (by simp)]
  rfl

theorem setText_respell (h : x.value.kind ≠ .number) (text : Text) :
    setText text (respell σ x) = respell σ (setText text x) := by
  rw [setText, setText, respell_setValue (by simpa using h), value_respell_of_kind_ne h]

theorem respell_made (h : σ none = none) (kind : Kind) (text : Text) :
    respell σ (made kind text) = made kind text := by
  rw [made, respell_node, Piece.respell_made h]
  rfl

end

end Item

namespace Row

open Retarget (requote quoteSingle conditional macroDefinition dataDirective)
open Item (blanked blanked_respell inside_respell respell respell_blanked respell_made respell_node
  respell_setValue setText setText_respell value_respell value_respell_of_kind_ne)
open Piece (isNewline_respell isOperator_respell isSpacing_respell kind_respell respell_of_kind_ne)

/-! ## The normal form -/

/-- Arguments reach as far in either spelling. -/
theorem extent_respell (ready : Bool) (ps : List Piece) :
    extent ready (ps.map (Piece.respell σ)) = extent ready ps := by
  induction ps generalizing ready with
  | nil => rfl
  | cons p rest ih => simp [extent, ih]

theorem owned_respell (g : Option Gathering) (p : Piece) :
    owned g (p.respell σ) = (owned g p).respell σ := by
  cases g with
  | none => rfl
  | some g =>
    simp only [owned, isNewline_respell]
    split
    · rfl
    · unfold Piece.respell
      split <;> rfl

/-- A directive is given the same arguments in either spelling. -/
theorem headed_respell (p : Piece) (rest : List Piece) :
    headed (p.respell σ) (rest.map (Piece.respell σ)) = (headed p rest).respell σ := by
  simp only [headed, Piece.head?_respell, extent_respell]
  split
  · rfl
  · next head hhead =>
    -- A directive is a word, so the spelling of numerals does not concern it.
    have hkind : p.kind ≠ .number := by rw [Piece.kind_of_head? hhead]; decide
    rw [respell_of_kind_ne hkind, respell_of_kind_ne (by simpa using hkind)]

theorem gathering_respell (g : Option Gathering) (p : Piece) :
    gathering g (p.respell σ) = gathering g p := by
  simp [gathering, Gathering.next]

/-- Directives and arguments are found in either spelling. -/
theorem mark_respell (g : Option Gathering) (ps : List Piece) :
    mark g (ps.map (Piece.respell σ)) = (mark g ps).map (Piece.respell σ) := by
  induction ps generalizing g with
  | nil => rfl
  | cons p rest ih =>
    simp only [map_cons, mark, owned_respell, headed_respell, gathering_respell, ih]

/-- Exclamation marks are settled in either spelling. -/
theorem settle_respell (ps : List Piece) :
    settle (ps.map (Piece.respell σ)) = (settle ps).map (Piece.respell σ) := by
  have hmark : ∀ {p : Piece}, p.isOperator "!" = true → ∀ text : Text,
      (p.respell σ).setText text = (p.setText text).respell σ := by
    intro p hp text
    have hkind : p.kind ≠ .number := by rw [Piece.kind_of_isOperator hp]; decide
    rw [respell_of_kind_ne hkind, respell_of_kind_ne (by simpa using hkind)]
  have hblank : ∀ p : Piece, p.blanked.respell σ = p.blanked := fun p =>
    respell_of_kind_ne (by simp)
  fun_induction settle ps with
  | case1 => rfl
  | case2 p =>
    simp only [map_cons, map_nil, settle, isOperator_respell]
    split
    · next hp => rw [hmark hp]
    · rfl
  | case3 p q rest hp hq ih =>
    simp only [map_cons, settle, isOperator_respell, hp, hq, if_true, ih, hmark hp,
      Piece.blanked_respell, hblank]
  | case4 p q rest hp hq ih =>
    simp only [map_cons] at ih
    simp only [map_cons, settle, isOperator_respell, hp, hq, if_true, ih, hmark hp]
    rfl
  | case5 p q rest hp ih =>
    simp only [map_cons] at ih
    simp only [map_cons, settle, isOperator_respell, hp, ih]
    rfl

theorem parenthesized_respell (p : Piece) :
    parenthesized (p.respell σ) = (parenthesized p).respell σ := by
  simp only [parenthesized, kind_respell]
  split
  · next hkind =>
    have hne : p.kind ≠ .number := by simp [hkind]
    rw [respell_of_kind_ne hne, respell_of_kind_ne (by simpa using hne)]
  · rfl

/-- The normal form, after a directive that is still open. -/
theorem normalAfter_respell (g : Option Gathering) (ps : List Piece) :
    normalAfter g (ps.map (Piece.respell σ)) = (normalAfter g ps).map (Piece.respell σ) := by
  simp only [normalAfter, mark_respell, settle_respell, List.map_map]
  exact map_congr_left fun p _ => parenthesized_respell p

/-- **The normal form commutes with another spelling of the numerals.** -/
theorem normal_respell (xs : List Item) :
    normal (xs.map (respell σ)) = (normal xs).map (respell σ) := by
  induction xs using Nest.inside_induction with
  | step xs ih =>
    have hvalues : (xs.map (respell σ)).map Nest.value =
        (xs.map Nest.value).map (Piece.respell σ) := by
      simp only [List.map_map]
      exact map_congr_left fun x _ => value_respell
    have hinside : (xs.map (respell σ)).map (fun x => normal x.inside) =
        (xs.map fun x => normal x.inside).map (List.map (respell σ)) := by
      simp only [List.map_map]
      refine map_congr_left fun x hx => ?_
      simp only [Function.comp_apply, inside_respell]
      exact ih x hx
    rw [normal, normal, hvalues, hinside, normalAfter_respell, zipWith_map, map_zipWith]
    congr 1
    funext p cs
    exact (respell_node p cs).symm

/-! ## The rules -/

variable (opening : Text) (before : List Piece) (ahead : List Item)

/-- A statement starts in the same places. -/
theorem startsStatement_respell :
    startsStatement (before.map (Piece.respell σ)) = startsStatement before := by
  simp only [startsStatement, takeWhile_map, dropWhile_map, all_map,
    head?_map, Option.any_map, Function.comp_def, isNewline_respell,
    isSpacing_respell, isOperator_respell]

/-- Data are announced in the same places. -/
theorem announcement_respell :
    announcement opening (before.map (Piece.respell σ)) = announcement opening before := by
  simp only [announcement, startsStatement_respell]

theorem map_respell_announcement (hnone : σ none = none) :
    (announcement opening before).map (respell σ) = announcement opening before := by
  unfold announcement
  split
  · simp [respell_made hnone]
  · rfl

/-- A group is written in the same way. -/
theorem roleAfter_respell (p : Piece) :
    roleAfter (before.map (Piece.respell σ)) p = roleAfter before p := by
  unfold roleAfter
  cases p.owner with
  | none => rfl
  | some k =>
    simp only [getElem?_map]
    cases before[k]? with
    | none => rfl
    | some head =>
      cases hbody : head.body with
      | true => simp [Piece.respell_of_body hbody]
      | false => simp [hbody]

theorem entered_respell (p : Piece) :
    entered (before.map (Piece.respell σ)) p = entered before p := by
  simp only [entered, roleAfter_respell]

theorem kind_entered (p : Piece) : (entered before p).kind = p.kind := by
  unfold entered; split <;> rfl

theorem enter_respell (hkind : x.value.kind ≠ .number) :
    enter (before.map (Piece.respell σ)) (respell σ x) = respell σ (enter before x) := by
  rw [enter, enter, respell_setValue (by rwa [kind_entered]), entered_respell,
    value_respell_of_kind_ne hkind]

/-- The same piece comes next. -/
theorem afterBlanks_respell :
    afterBlanks (ahead.map (respell σ)) = (afterBlanks ahead).map (Piece.respell σ) := by
  simp [afterBlanks, dropWhile_map, Function.comp_def]

theorem endsLine_respell :
    endsLine opening (ahead.map (respell σ)) = endsLine opening ahead := by
  unfold endsLine
  rw [afterBlanks_respell]
  cases afterBlanks ahead <;> simp

/-- Operators are written without regard to numerals. -/
theorem operator_respell (hkind : x.value.kind ≠ .number) :
    operator opening (respell σ x) (ahead.map (respell σ)) =
      respell σ (operator opening x ahead) := by
  simp [operator, apply_ite (respell σ), respell_of_kind_ne hkind,
    setText_respell hkind, afterBlanks_respell, endsLine_respell, Option.any_map]

theorem afterOperator_respell (hkind : x.value.kind ≠ .number) :
    afterOperator (respell σ x) (ahead.map (respell σ)) =
      (afterOperator x ahead).map (respell σ) := by
  simp only [afterOperator, value_respell, respell_of_kind_ne hkind]
  split
  · cases ahead with
    | nil => rfl
    | cons y rest =>
      simp only [map_cons, value_respell, isOperator_respell]
      split <;> simp
  · rfl

/-- A token is written in either spelling. -/
theorem written_respell (f : Text → Text) (x : Item) :
    written f opening (before.map (Piece.respell σ)) (respell σ x) (ahead.map (respell σ)) =
      respell σ (written f opening before x ahead) := by
  simp only [written, value_respell, kind_respell]
  split
  · next hkind =>
    have hne : x.value.kind ≠ .number := by simp [hkind]
    rw [respell_of_kind_ne hne, setText_respell hne]
  · next hkind => exact enter_respell before (by simp [hkind])
  · next hkind => exact operator_respell opening ahead (by simp [hkind])
  · rfl

theorem after_respell (x : Item) :
    after (respell σ x) (ahead.map (respell σ)) = (after x ahead).map (respell σ) := by
  simp only [after, value_respell, kind_respell]
  split
  · next hkind => exact afterOperator_respell ahead (by simp [hkind])
  · rfl

/-- A statement is as long in either spelling. -/
theorem statement_respell :
    statement (ahead.map (respell σ)) = (statement ahead).map (respell σ) := by
  simp [statement, takeWhile_map, Function.comp_def]

theorem blankLeading_respell (xs : List Item) :
    blankLeading (xs.map (respell σ)) = (blankLeading xs).map (respell σ) :=
  blankLeading_map (by simp) (by simp) xs

/-- An operand is written in either spelling. -/
theorem operand_respell (n : Nat) (xs : List Item) :
    operand opening (before.map (Piece.respell σ)) n (xs.map (respell σ)) =
      (operand opening before n xs).map (respell σ) := by
  fun_induction operand opening before n xs with
  | case1 => rw [operand]
  | case2 => rfl
  | case3 before n x rest y ih =>
    rw [map_cons, operand, written_respell, after_respell, value_respell]
    exact congrArg _ ih

/-- An expression ends in the same place. -/
theorem expression_respell (body : Option Nat)
    (xs : List Item) :
    expression opening (before.map (Piece.respell σ)) body
        (xs.map (respell σ)) =
      let e := expression opening before body xs
      ⟨e.items.map (respell σ), e.rest.map (respell σ), e.comma⟩ := by
  fun_induction expression opening before body xs with
  | case1 => rw [map_nil, expression]; rfl
  | case2 before body x rest hstop =>
    have hstop' : expressionGoesOn body (respell σ x).value = false := by
      simpa only [expressionGoesOn, value_respell, isNewline_respell,
        kind_respell, Bool.not_eq_false'] using hstop
    rw [map_cons, expression_stop _ _ _ hstop']
    rfl
  | case3 before body x rest hgo hcomma =>
    rw [map_cons, expression_comma _ _ _ (by simpa [expressionGoesOn] using hgo)
      (by simpa using hcomma)]
    simp
  | case4 before body x rest hgo hcomma y e ih =>
    rw [map_cons, expression_cons _ _ _ (by simpa [expressionGoesOn] using hgo)
      (by simpa using hcomma)]
    simp only [written_respell, after_respell, value_respell]
    rw [← map_cons, ih]
    rfl

theorem braced_respell (x : Item) : braced (respell σ x) = respell σ (braced x) := by
  simp only [braced, value_respell, kind_respell, Piece.opening_respell, Piece.closing_respell]
  split
  · next h =>
    have hkind : x.value.kind ≠ .number := by
      simp only [Bool.and_eq_true, decide_eq_true_eq] at h
      rw [h.1.1]
      decide
    rw [respell_setValue (by simpa using hkind), respell_of_kind_ne hkind]
  · rfl

theorem braceFirst_respell (xs : List Item) :
    braceFirst (xs.map (respell σ)) = (braceFirst xs).map (respell σ) := by
  induction xs with
  | nil => rfl
  | cons x rest ih =>
    simp only [map_cons, braceFirst, value_respell, Piece.isBlank_respell, ih, braced_respell]
    split <;> rfl

/-- The same body gets braces. -/
theorem braceBody_respell (owner : Option Nat) (xs : List Item) :
    braceBody owner (xs.map (respell σ)) = (braceBody owner xs).map (respell σ) := by
  induction xs generalizing owner with
  | nil => rfl
  | cons x rest ih =>
    simp only [map_cons, braceBody, value_respell, isNewline_respell,
      Piece.owner_respell, isOperator_respell, ih, braceFirst_respell]
    split
    · rfl
    · split <;> rfl

theorem spaced_respell (x : Item) : spaced (respell σ x) = respell σ (spaced x) := by
  have hkind : (blanked x).value.kind ≠ .number := by simp
  rw [spaced, spaced, ← setText_respell hkind, blanked_respell, respell_blanked]

/-- The arguments of a definition are written in either spelling. -/
theorem header_respell (body : Bool) (xs : List Item) :
    header body (xs.map (respell σ)) = (header body xs).map (respell σ) :=
  header_map (by simp) (by simp) spaced_respell (by simp) body xs

/-! ## Words -/

/-- The outcome with the numerals in another spelling. -/
def Outcome.respell (σ : Option Nat → Option Text) (r : Outcome) : Outcome where
  self := Item.respell σ r.self
  shown := r.shown.map (Item.respell σ)
  taken := r.taken
  ahead := r.ahead.map (Item.respell σ)

section Words

variable (hnone : σ none = none) (hx : x.value.kind ≠ .number)
include hnone hx

/-- An immediate instruction takes its operand in either spelling. -/
theorem immediate_respell :
    immediate opening (before.map (Piece.respell σ)) (respell σ x)
        (ahead.map (respell σ)) =
      (immediate opening before x ahead).respell σ := by
  have hblank : ((statement ahead).map (respell σ)).all (·.value.isBlank) =
      (statement ahead).all (·.value.isBlank) := by simp [Function.comp_def]
  simp only [immediate, statement_respell, hblank, length_map, value_respell,
    respell_of_kind_ne hx, setText_respell hx]
  split
  · rfl
  · rw [← map_cons, blankLeading_respell, ← map_drop,
      ← map_append, operand_respell]
    simp [Outcome.respell, respell_made hnone]

/-- A condition takes its expression in either spelling. -/
theorem condition_respell (comparison : Text) :
    condition opening comparison (before.map (Piece.respell σ)) (respell σ x)
        (ahead.map (respell σ)) =
      (condition opening comparison before x ahead).respell σ := by
  simp only [condition, value_respell, respell_of_kind_ne hx, setText_respell hx]
  rw [← map_cons, expression_respell]
  simp only [Outcome.respell, length_map, map_append]
  split <;> simp [respell_made hnone]

/-- A condition on the pass is written in either spelling. -/
theorem pass_respell (written : Text) :
    pass written (respell σ x) (ahead.map (respell σ)) = (pass written x ahead).respell σ := by
  have hwritten : ∀ y : Item, respell σ (setText written (blanked y)) =
      setText written (blanked y) := by
    intro y
    rw [← setText_respell (by simp), respell_blanked]
  simp only [pass, value_respell, respell_of_kind_ne hx, setText_respell hx, ← map_take]
  cases ahead.take (leading x.value) with
  | nil => simp [Outcome.respell, respell_made hnone]
  | cons first rest => simp [Outcome.respell, hwritten, Function.comp_def]

omit hnone in
/-- A definition is written in either spelling. -/
theorem definition_respell :
    definition (respell σ x) (ahead.map (respell σ)) =
      (definition x ahead).respell σ := by
  simp only [definition, value_respell, respell_of_kind_ne hx, setText_respell hx,
    ← map_take, ← map_drop, header_respell, ← map_append]
  rfl

/-- **The rule for a word that is no message directive commutes with another spelling.** -/
theorem word_respell (hmessage : x.value.upper ≠ Keyword.message) :
    word opening (before.map (Piece.respell σ)) (respell σ x)
        (ahead.map (respell σ)) =
      (word opening before x ahead).respell σ := by
  simp only [word, value_respell, respell_of_kind_ne hx, if_neg hmessage,
    immediate_respell _ _ _ hnone hx, condition_respell _ _ _ hnone hx, pass_respell _ hnone hx,
    definition_respell _ hx, setText_respell hx, braceBody_respell]
  split
  · rfl
  split
  · rfl
  split
  · rfl
  split <;> rfl

end Words

end Row

end Macro10
