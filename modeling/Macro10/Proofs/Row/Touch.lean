import Macro10.Proofs.Row.Retarget
import Mathlib.Logic.Relation

/-!
# What the rules do to single items

The rules do a few things to single items: an item is blanked out, or gets one of a few texts, or
other brackets (`Turns`). Those that go along a row leave words and line terminators alone
(`Touches`), and they touch the items one by one (`Reworked`). What they keep follows from that.
-/

namespace Macro10

open List
open Item (blanked setText)

/-- A list is split at an element that is looked up in it. -/
theorem exists_split_of_getElem? {α : Type} {xs : List α} {i : Nat} {x : α} (h : xs[i]? = some x) :
    ∃ us vs, xs = us ++ x :: vs ∧ us.length = i := by
  obtain ⟨hlt, rfl⟩ := List.getElem?_eq_some_iff.mp h
  refine ⟨xs.take i, xs.drop (i + 1), ?_, length_take_of_le (Nat.le_of_lt hlt)⟩
  rw [getElem_cons_drop, take_append_drop]

namespace Row

open Retarget (dataDirective conditional macroDefinition closingKeyword? quoteSingle requote)

variable {x y : Item} {xs ys : List Item} {text : Text}

/-! ## Changes of single items -/

/-- The texts that white space can get. -/
def blankTexts : List Text := [" ", " 1 ", " 2 "].map Text.ofString

/-- The texts that an operator can get. -/
def operatorTexts : List Text := [" .SET ", "<>", "*"].map Text.ofString

/-- The texts that a word can get, but for an immediate instruction. -/
def wordTexts : List Text := [dataDirective, ".OUT", conditional, macroDefinition]

/-- The rules for strings. -/
def respellings : List (Text → Text) := [quoteSingle, requote]

/-- A rule can change the item `x` in one step. -/
inductive Turns (x : Item) : Item → Prop
  | blanked : Turns x (blanked x)
  | spaced {text : Text} (hkind : x.value.kind = .whitespace) (htext : text ∈ blankTexts) :
      Turns x (setText text x)
  | respelled {respell : Text → Text} (hkind : x.value.kind = .string)
      (hrespell : respell ∈ respellings) : Turns x (setText (respell x.value.text) x)
  | operator {text : Text} (hkind : x.value.kind = .operator) (htext : text ∈ operatorTexts) :
      Turns x (setText text x)
  | word {text : Text} (hkind : x.value.kind = .identifier) (htext : text ∈ wordTexts) :
      Turns x (setText text x)
  | immediate (hkind : x.value.kind = .identifier) :
      Turns x (setText x.value.text.dropLast x)
  | entered (before : List Piece) : Turns x (enter before x)
  | braced : Turns x (braced x)

/-- A change of an item that is neither a word nor a line terminator. A group stays a group. -/
structure Touches (x y : Item) : Prop where
  turns : Turns x y
  word : x.value.kind ≠ .identifier
  line : x.value.isNewline = false
  group : x.value.kind = .container → y.value.kind = .container

/-- The item `x` may have become `y` by such changes. -/
abbrev Reworks : Item → Item → Prop := Relation.ReflTransGen Touches

/-- The item is an operator or white space. -/
def IsLight (y : Item) : Prop := y.value.kind = .operator ∨ y.value.kind = .whitespace

section

variable {x : Item}

/-- A change of an item that is no word, no white space and no group. -/
theorem touches_of_kind {y : Item} {kind : Kind} (hkind : x.value.kind = kind) (h : Turns x y)
    (hword : kind ≠ .identifier ∧ kind ≠ .whitespace ∧ kind ≠ .container) : Touches x y :=
  ⟨h, hkind ▸ hword.1, Piece.isNewline_eq_false (hkind ▸ hword.2.1),
    fun hgroup => absurd (hkind.symm.trans hgroup) hword.2.2⟩

/-- A light item may be blanked out. -/
theorem touches_blanked (h : IsLight x) (hline : x.value.isNewline = false) :
    Touches x (blanked x) := by
  refine ⟨.blanked, ?_, hline, fun hgroup => ?_⟩
  · rcases h with hkind | hkind <;> simp [hkind]
  · rcases h with hkind | hkind <;> cases hkind.symm.trans hgroup

theorem reworks_blanked_operator (h : x.value.kind = .operator) : Reworks x (blanked x) :=
  .single (touches_of_kind h .blanked (by decide))

theorem reworks_spaced (h : x.value.kind = .operator) : Reworks x (spaced x) :=
  (reworks_blanked_operator h).tail
    ⟨.spaced rfl (by decide), by simp, by simp, fun hgroup => by simp at hgroup⟩

/-- An operator gets another text, or it stays as it is, unless it is a comma at the end of a line,
or it is blanked out: such a comma, or the mark of a word that follows. -/
theorem operator_cases (opening : Text) (x : Item) (ahead : List Item) :
    (∃ text ∈ operatorTexts, operator opening x ahead = setText text x) ∨
      operator opening x ahead = x ∧ (x.value.text = "," → endsLine opening ahead = false) ∨
      operator opening x ahead = blanked x ∧ (x.value.text = "," ∨
        x.value.text = "%" ∧ ahead.head?.any (·.value.kind = .identifier) = true) := by
  have hother {text : Text} (hx : x.value.text = text) (hne : text ≠ ",") :
      x.value.text = "," → endsLine opening ahead = false := fun h => absurd (hx.symm.trans h) hne
  unfold operator
  dsimp only
  split
  · exact .inl ⟨_, by decide, rfl⟩
  split
  · exact .inl ⟨_, by decide, rfl⟩
  split
  · next hx =>
    split
    · exact .inl ⟨_, by decide, rfl⟩
    · exact .inr (.inl ⟨rfl, hother hx (by decide)⟩)
  split
  · next hx =>
    split
    · next hword => exact .inr (.inr ⟨rfl, .inr ⟨hx, hword⟩⟩)
    · exact .inr (.inl ⟨rfl, hother hx (by decide)⟩)
  split
  · next hx =>
    split
    · exact .inr (.inr ⟨rfl, .inl hx⟩)
    · next hends => exact .inr (.inl ⟨rfl, fun _ => Bool.eq_false_iff.mpr hends⟩)
  · next hx => exact .inr (.inl ⟨rfl, fun h => absurd h hx⟩)

/-- Every operator is reworked. -/
theorem reworks_operator (h : x.value.kind = .operator) (opening : Text) (ahead : List Item) :
    Reworks x (operator opening x ahead) := by
  rcases operator_cases opening x ahead with ⟨text, htext, heq⟩ | ⟨heq, -⟩ | ⟨heq, -⟩ <;> rw [heq]
  · exact .single (touches_of_kind h (.operator h htext) (by decide))
  · exact reworks_blanked_operator h

/-- Whatever is written for an item, it is the item after such changes. -/
theorem reworks_written {respell : Text → Text} (h : respell ∈ respellings) (opening : Text)
    (before : List Piece) (x : Item) (ahead : List Item) :
    Reworks x (written respell opening before x ahead) := by
  unfold written
  split
  · next hkind => exact .single (touches_of_kind hkind (.respelled hkind h) (by decide))
  · next hkind =>
    refine .single ⟨.entered before, by simp [hkind], Piece.isNewline_eq_false (by simp [hkind]),
      fun _ => ?_⟩
    unfold enter entered
    split <;> exact hkind
  · next hkind => exact reworks_operator hkind opening ahead
  · exact .refl

end

/-! ## Colons, brackets and blanks -/

/-- A colon may have been blanked out. -/
def Uncoloned (y y' : Item) : Prop :=
  y' = y ∨ y.value.isOperator ":" = true ∧ y' = blanked y

/-- To drop a colon is to rework an item. -/
theorem Uncoloned.reworks (h : Uncoloned x y) : Reworks x y := by
  rcases h with rfl | ⟨hcolon, rfl⟩
  · exact .refl
  · exact reworks_blanked_operator (Piece.kind_of_isOperator hcolon)

theorem uncoloned_refl (xs : List Item) : List.Forall₂ Uncoloned xs xs :=
  forall₂_same.mpr fun _ _ => .inl rfl

/-- The item after an assignment may be a colon, which goes. -/
theorem uncoloned_after (x : Item) (xs : List Item) : List.Forall₂ Uncoloned xs (after x xs) := by
  unfold after afterOperator
  split
  · split
    · cases xs with
      | nil => exact .nil
      | cons y rest =>
        dsimp only
        split
        · next hcolon => exact .cons (.inr ⟨hcolon, rfl⟩) (uncoloned_refl rest)
        · exact uncoloned_refl _
    · exact uncoloned_refl xs
  · exact uncoloned_refl xs

/-- Brackets of groups may have been replaced by braces. -/
def Rebraced (y y' : Item) : Prop := y' = y ∨ y.value.kind = .container ∧ y' = braced y

/-- To change brackets is to rework an item. -/
theorem Rebraced.reworks (h : Rebraced x y) : Reworks x y := by
  rcases h with rfl | ⟨hkind, rfl⟩
  · exact .refl
  · refine .single ⟨.braced, by simp [hkind], Piece.isNewline_eq_false (by simp [hkind]),
      fun _ => ?_⟩
    unfold braced
    split <;> exact hkind

theorem rebraced_refl (xs : List Item) : List.Forall₂ Rebraced xs xs :=
  forall₂_same.mpr fun _ _ => .inl rfl

/-- A repetition gives braces to one group at most. -/
theorem rebraced_braceBody (owner : Option Nat) (xs : List Item) :
    List.Forall₂ Rebraced xs (braceBody owner xs) := by
  have hfirst (ys : List Item) : List.Forall₂ Rebraced ys (braceFirst ys) := by
    induction ys with
    | nil => exact .nil
    | cons y rest ih =>
      unfold braceFirst
      split
      · exact .cons (.inl rfl) ih
      · refine .cons ?_ (rebraced_refl rest)
        by_cases hkind : y.value.kind = .container
        · exact .inr ⟨hkind, rfl⟩
        · exact .inl (if_neg (by simp [hkind]))
  induction xs generalizing owner with
  | nil => exact .nil
  | cons x rest ih =>
    unfold braceBody
    split
    · exact rebraced_refl _
    · split
      · exact .cons (.inl rfl) (hfirst rest)
      · exact .cons (.inl rfl) (ih _)

/-- Operators and white space may have changed. -/
def Respaced (y y' : Item) : Prop := y' = y ∨ IsLight y ∧ IsLight y'

theorem Respaced.trans {z : Item} (h : Respaced x y) (h' : Respaced y z) : Respaced x z := by
  rcases h with rfl | ⟨hx, hy⟩
  · exact h'
  · rcases h' with rfl | ⟨-, hz⟩
    · exact .inr ⟨hx, hy⟩
    · exact .inr ⟨hx, hz⟩

/-- The item `x` may have become `y` by changes of operators and white space. -/
def Lightened (x y : Item) : Prop := Reworks x y ∧ Respaced x y

theorem lightened_refl (xs : List Item) : List.Forall₂ Lightened xs xs :=
  forall₂_same.mpr fun _ _ => ⟨.refl, .inl rfl⟩

/-- Items may be made lighter twice. -/
theorem lightened_trans {zs : List Item} (h : List.Forall₂ Lightened xs ys)
    (h' : List.Forall₂ Lightened ys zs) : List.Forall₂ Lightened xs zs :=
  forall₂_trans (fun _ _ _ hxy hyz => ⟨hxy.1.trans hyz.1, hxy.2.trans hyz.2⟩) h h'

theorem lightened_blanked (h : x.value.isOperator text = true) : Lightened x (blanked x) :=
  have hkind := Piece.kind_of_isOperator h
  ⟨reworks_blanked_operator hkind, .inr ⟨.inl hkind, .inr rfl⟩⟩

theorem lightened_spaced (h : x.value.isOperator text = true) : Lightened x (spaced x) :=
  have hkind := Piece.kind_of_isOperator h
  ⟨reworks_spaced hkind, .inr ⟨.inl hkind, .inr rfl⟩⟩

/-- A change of one item is a change of the row. -/
theorem lightened_modifyFirst {p : Item → Bool} {f : Item → Item}
    (hf : ∀ y, p y = true → Lightened y (f y)) (xs : List Item) :
    List.Forall₂ Lightened xs (modifyFirst p f xs) := by
  induction xs with
  | nil => exact .nil
  | cons y rest ih =>
    unfold modifyFirst
    split
    · next hp => exact .cons (hf y hp) (lightened_refl rest)
    · exact .cons ⟨.refl, .inl rfl⟩ ih

/-- It does not matter from which end the rule goes. -/
theorem lightened_reverse (h : List.Forall₂ Lightened xs.reverse ys) :
    List.Forall₂ Lightened xs ys.reverse := by
  have hrev : List.Forall₂ Lightened xs.reverse.reverse ys.reverse := rel_reverse h
  rwa [reverse_reverse] at hrev

/-- Blanks at the start are blanked out. -/
theorem lightened_blankLeading (xs : List Item) : List.Forall₂ Lightened xs (blankLeading xs) := by
  induction xs with
  | nil => exact .nil
  | cons y rest ih =>
    unfold blankLeading
    split
    · next hblank =>
      have hlight : IsLight y := .inr (Piece.kind_of_isBlank hblank)
      exact .cons ⟨.single (touches_blanked hlight (Piece.isNewline_of_isBlank hblank)),
        .inr ⟨hlight, .inr rfl⟩⟩ ih
    · exact lightened_refl _

/-- The arguments of a definition change only in their operators and their white space. -/
theorem lightened_header (body : Bool) (xs : List Item) :
    List.Forall₂ Lightened xs (header body xs) := by
  -- The changes come one after another, and each leaves a row for the next.
  have hopen : List.Forall₂ Lightened xs (modifyFirst (·.value.isOperator "(") spaced xs) :=
    lightened_modifyFirst (fun _ hy => lightened_spaced hy) xs
  unfold header
  generalize modifyFirst (·.value.isOperator "(") spaced xs = us at hopen ⊢
  have hclose : List.Forall₂ Lightened us (modifyLast (·.value.isOperator ")") blanked us) :=
    lightened_reverse (lightened_modifyFirst (fun _ hy => lightened_blanked hy) _)
  dsimp only
  generalize modifyLast (·.value.isOperator ")") blanked us = vs at hclose ⊢
  have hcommas : List.Forall₂ Lightened vs
      (vs.map fun y => if y.value.isOperator "," then spaced y else y) := by
    refine forall₂_map_right_iff.mpr (forall₂_same.mpr fun y _ => ?_)
    split
    · next hcomma => exact lightened_spaced hcomma
    · exact ⟨.refl, .inl rfl⟩
  have hall := lightened_trans hopen (lightened_trans hclose hcommas)
  split
  · exact lightened_trans hall (lightened_reverse (lightened_blankLeading _))
  · exact hall

/-! ## Rows -/

/-- The items `ys` stand where those of `xs` stood. -/
def Reworked (xs ys : List Item) : Prop := List.Forall₂ Reworks xs ys

namespace Reworked

variable {xs ys zs us vs : List Item}

theorem refl (xs : List Item) : Reworked xs xs := forall₂_same.mpr fun _ _ => .refl

/-- Rules may follow one another. -/
theorem trans (h : Reworked xs ys) (h' : Reworked ys zs) : Reworked xs zs :=
  forall₂_trans (fun _ _ _ => Relation.ReflTransGen.trans) h h'

/-- Parts of a row may be reworked apart. -/
theorem append (h : Reworked xs ys) (h' : Reworked us vs) : Reworked (xs ++ us) (ys ++ vs) :=
  rel_append h h'

end Reworked

/-- The items after an assignment are reworked. -/
theorem reworked_after (x : Item) (xs : List Item) : Reworked xs (after x xs) :=
  (uncoloned_after x xs).imp fun _ _ => Uncoloned.reworks

theorem reworked_blankLeading (xs : List Item) : Reworked xs (blankLeading xs) :=
  (lightened_blankLeading xs).imp fun _ _ h => h.1

/-- The arguments of a definition are reworked. -/
theorem reworked_header (body : Bool) (xs : List Item) : Reworked xs (header body xs) :=
  (lightened_header body xs).imp fun _ _ h => h.1

/-- The body that gets braces is reworked. -/
theorem reworked_braceBody (owner : Option Nat) (xs : List Item) :
    Reworked xs (braceBody owner xs) :=
  (rebraced_braceBody owner xs).imp fun _ _ => Rebraced.reworks

/-! ## Items that are written one after another -/

/-- The first `n` of the items `xs` are written one after another, after the pieces `before`, and
`ys` is the row then. A comma that ends an expression is blanked out. -/
inductive Spelled (opening : Text) : List Piece → Nat → List Item → List Item → Prop
  | empty (before : List Piece) (n : Nat) : Spelled opening before n [] []
  | zero (before : List Piece) (xs : List Item) : Spelled opening before 0 xs xs
  | comma {before : List Piece} {x : Item} (hcomma : x.value.isOperator "," = true)
      (rest : List Item) : Spelled opening before 1 (x :: rest) (blanked x :: rest)
  | cons {before : List Piece} {n : Nat} {x : Item} {rest ys : List Item} {respell : Text → Text}
      (hrespell : respell ∈ respellings)
      (h : Spelled opening ((written respell opening before x rest).value :: before) n
        (after x rest) ys) :
      Spelled opening before (n + 1) (x :: rest) (written respell opening before x rest :: ys)

/-- An operand is written item by item. -/
theorem spelled_operand (opening : Text) (before : List Piece) (n : Nat) (xs : List Item) :
    Spelled opening before n xs (operand opening before n xs) := by
  fun_induction operand opening before n xs with
  | case1 before xs => exact .zero before xs
  | case2 before n => exact .empty before _
  | case3 before n x rest y ih => exact .cons (by simp [respellings]) ih

/-- So is an expression, up to its comma. -/
theorem spelled_expression (opening : Text) (before : List Piece) (body : Option Nat)
    (xs : List Item) :
    Spelled opening before (expression opening before body xs).items.length xs
      ((expression opening before body xs).items ++ (expression opening before body xs).rest) := by
  fun_induction expression opening before body xs with
  | case1 before => exact .empty before 0
  | case2 before body x rest _ => exact .zero before _
  | case3 before body x rest _ hcomma => exact .comma hcomma rest
  | case4 before body x rest _ _ y e ih => exact .cons (by simp [respellings]) ih

/-- What is written item by item stands where it stood. -/
theorem Spelled.reworked {opening : Text} {before : List Piece} {n : Nat}
    (h : Spelled opening before n xs ys) : Reworked xs ys := by
  induction h with
  | empty => exact .nil
  | zero _ xs => exact .refl xs
  | comma hcomma rest =>
    exact .cons (reworks_blanked_operator (Piece.kind_of_isOperator hcomma)) (Reworked.refl rest)
  | cons hrespell _ ih =>
    exact .cons (reworks_written hrespell ..) ((reworked_after _ _).trans ih)

end Row

end Macro10
