import Macro10.Proofs.Row.Carry
import Macro10.Proofs.Row.Directive

/-!
# What a word does to the items after it

A word takes some of the items after it: only items on its line, and no comments (`Acts.not_ended`).
Of the others, only a directive changes more than a colon or the brackets of a group, and only among
its arguments (`Acts.altersRow`).
-/

namespace Macro10

open List
open Item (blanked setText)

variable {x y y' : Item} {ahead : List Item} {head : Head} {n : Nat}

namespace Head

/-- The directive is about the pass of the assembler. -/
def isPass : Head → Bool
  | ifFirstPass | ifSecondPass => true
  | _ => false

theorem keyword_of_ofWord? {word : Text} (h : ofWord? word = some head) : word = head.keyword := by
  have hfound := find?_some h
  exact (of_decide_eq_true hfound).symm

end Head

namespace Row

open Retarget (dataDirective conditional macroDefinition quoteSingle requote)

variable {xs : List Item} {r : Outcome} {opening : Text}
  {before : List Piece} {j : Nat}

/-! ## Rules for words -/

/-- The rules for words: what becomes of the word `x` and of the items after it. -/
inductive Acts (opening : Text) (before : List Piece) (x : Item) (ahead : List Item) :
    Outcome → Prop
  | repetition (hhead : x.value.head? = none) :
      Acts opening before x ahead
        { self := x, ahead := braceBody (x.value.owner.map (· + 1)) ahead }
  | halfWords (hhead : x.value.head? = none) :
      Acts opening before x ahead { self := setText dataDirective x, ahead }
  | immediate (hhead : x.value.head? = none)
      (hkey : Keyword.immediates.elem x.value.upper = true) :
      Acts opening before x ahead (immediate opening before x ahead)
  | message (hhead : x.value.head? = none) (hword : isMessage x = true) :
      Acts opening before x ahead (message x ahead)
  | directive {head : Head} {n : Nat} (hhead : x.value.head? = some head)
      (hparts : x.value.parts = some n) :
      Acts opening before x ahead (directive opening before x ahead head)
  | plain (hhead : x.value.head? = none ∨ x.value.parts = none) :
      Acts opening before x ahead { self := x, ahead }

theorem word_of_head? (hhead : x.value.head? = some head)
    (hparts : x.value.parts = some n) (opening : Text) (before : List Piece) (ahead : List Item) :
    word opening before x ahead = directive opening before x ahead head := by
  rw [word_of_keyword (Head.keyword_of_ofWord? (Piece.ofWord?_of_head? hhead)), hparts]
  rfl

theorem self_directive (opening : Text) (before : List Piece) (x : Item) (ahead : List Item)
    (head : Head) : (directive opening before x ahead head).self = setText head.opener x := by
  have hpass (text : Text) : (pass text x ahead).self = setText conditional x := by
    unfold pass
    dsimp only
    split <;> rfl
  cases head with
  | ifZero | ifNotZero | define => rfl
  | ifFirstPass | ifSecondPass => exact hpass _

theorem self_word_of_head? (hhead : x.value.head? = some head) (hpos : 0 < leading x.value)
    (opening : Text) (before : List Piece) (ahead : List Item) :
    (word opening before x ahead).self = setText head.opener x := by
  cases hparts : x.value.parts with
  | none => simp [leading, hparts] at hpos
  | some n => rw [word_of_head? hhead hparts, self_directive]

theorem self_immediate (opening : Text) (before : List Piece) (x : Item) (ahead : List Item) :
    (immediate opening before x ahead).self = setText x.value.text.dropLast x := by
  unfold immediate
  dsimp only
  split <;> rfl

/-- **Every word is treated by one of the rules.** -/
theorem acts_word (hkind : x.value.kind = .identifier) (opening : Text) (before : List Piece)
    (ahead : List Item) : Acts opening before x ahead (word opening before x ahead) := by
  have hword : x.value.head? = Head.ofWord? x.value.upper := if_pos hkind
  cases hhead : x.value.head? with
  | some head =>
    cases hparts : x.value.parts with
    | some n =>
      rw [word_of_head? hhead hparts]
      exact .directive hhead hparts
    | none =>
      have hkey := Head.keyword_of_ofWord? (hword.symm.trans hhead)
      rw [word_of_keyword hkey, hparts]
      exact .plain (.inr hparts)
  | none =>
    unfold word
    dsimp only
    split
    · exact .repetition hhead
    split
    · exact .halfWords hhead
    split
    · next hkey => exact .immediate hhead hkey
    split
    · next hkey => exact .message hhead (isMessage_iff.mpr ⟨hkind, hkey⟩)
    · rw [← hword, hhead]
      cases x.value.parts with
      | none | some => exact .plain (.inl hhead)

theorem exists_self_word (hkind : x.value.kind = .identifier) (opening : Text) (before : List Piece)
    (ahead : List Item) : ∃ text, (word opening before x ahead).self = setText text x := by
  have hsame : x = setText x.value.text x := by cases x; rfl
  have hacts := acts_word hkind opening before ahead
  generalize word opening before x ahead = r at hacts
  cases hacts with
  | repetition | plain => exact ⟨_, hsame⟩
  | halfWords | message => exact ⟨_, rfl⟩
  | immediate => exact ⟨_, self_immediate ..⟩
  | directive => exact ⟨_, self_directive ..⟩

/-! ## Items in place -/

theorem exists_getElem?_of_forall₂ {α β : Type} {S : α → β → Prop} {xs : List α} {ys : List β}
    (h : List.Forall₂ S xs ys) {i : Nat} {x : α} (hx : xs[i]? = some x) :
    ∃ y, ys[i]? = some y ∧ S x y := by
  induction h generalizing i with
  | nil => cases hx
  | cons hS _ ih =>
    cases i with
    | zero =>
      cases hx
      exact ⟨_, rfl, hS⟩
    | succ i => exact ih hx

theorem Uncoloned.trans {z : Item} (h : Uncoloned x y) (h' : Uncoloned y z) : Uncoloned x z := by
  rcases h with rfl | ⟨hcolon, rfl⟩
  · exact h'
  · rcases h' with rfl | ⟨hblank, -⟩
    · exact .inr ⟨hcolon, rfl⟩
    · rw [Item.value_blanked, isOperator_blanked] at hblank
      cases hblank

theorem uncoloned_trans {ys zs : List Item} (h : List.Forall₂ Uncoloned xs ys)
    (h' : List.Forall₂ Uncoloned ys zs) : List.Forall₂ Uncoloned xs zs :=
  forall₂_trans (S := Uncoloned) (fun _ _ _ hx hy => hx.trans hy) h h'

/-- Beyond the items that are written, a colon is changed at most. -/
theorem Spelled.uncoloned (h : Spelled opening before n xs ys) :
    List.Forall₂ Uncoloned (xs.drop n) (ys.drop n) := by
  induction h with
  | empty =>
    rw [drop_nil]
    exact .nil
  | zero | comma => exact uncoloned_refl _
  | @cons _ n x rest _ _ _ _ ih =>
    exact uncoloned_trans (forall₂_drop n (uncoloned_after x rest)) ih

/-! ## Items that are not taken -/

/-- What the word `x` can make of the item `y` at distance `j` if it does not take it. -/
inductive Alters (x : Item) (j : Nat) (y : Item) : Item → Prop
  | same : Alters x j y y
  | colon (hy : y.value.isOperator ":" = true) : Alters x j y (blanked y)
  | braced (hy : y.value.kind = .container) : Alters x j y (braced y)
  | erased {head : Head} {y' : Item} (hhead : x.value.head? = some head)
      (hpass : head.isPass = true) (hj : j < leading x.value)
      (hy' : y'.value.kind = .whitespace) : Alters x j y y'
  | respaced {y' : Item} (hhead : x.value.head? = some .define) (hj : j < leading x.value)
      (hy : IsLight y) : Alters x j y y'

theorem Uncoloned.alters (h : Uncoloned y y') (x : Item) (j : Nat) : Alters x j y y' := by
  rcases h with rfl | ⟨hcolon, rfl⟩
  · exact .same
  · exact .colon hcolon

/-- A word or a comment stays as it is, or a directive on the pass blanks it out. -/
theorem Alters.eq_or_erased (h : Alters x j y y')
    (hkind : y.value.kind = .identifier ∨ y.value.kind = .comment) :
    y' = y ∨ j < leading x.value ∧ y'.value.kind = .whitespace ∧
      ∃ head, x.value.head? = some head ∧ head.isPass = true := by
  cases h with
  | same => exact .inl rfl
  | colon hcolon => simp [Piece.kind_of_isOperator hcolon] at hkind
  | braced hgroup => simp [hgroup] at hkind
  | erased hhead hpass hj hy' => exact .inr ⟨hj, hy', _, hhead, hpass⟩
  | respaced _ _ hlight => rcases hlight with hlight | hlight <;> simp [hlight] at hkind

/-- What the rule for the word `x` does to the items that it does not take. -/
def AltersRow (x : Item) (ahead : List Item) (r : Outcome) : Prop :=
  ∀ {j : Nat} {y : Item}, r.taken ≤ j → ahead[j]? = some y →
    ∃ y', r.ahead[j]? = some y' ∧ Alters x j y y'

theorem altersRow_of_uncoloned
    (h : List.Forall₂ Uncoloned (ahead.drop r.taken) (r.ahead.drop r.taken)) :
    AltersRow x ahead r := by
  intro j y hj hy
  have hdrop : (ahead.drop r.taken)[j - r.taken]? = some y := by
    rwa [getElem?_drop, Nat.add_sub_cancel' hj]
  obtain ⟨y', hy', hsame⟩ := exists_getElem?_of_forall₂ h hdrop
  rw [getElem?_drop, Nat.add_sub_cancel' hj] at hy'
  exact ⟨y', hy', hsame.alters x j⟩

theorem altersRow_immediate (opening : Text) (before : List Piece) (x : Item)
    (ahead : List Item) : AltersRow x ahead (immediate opening before x ahead) := by
  unfold immediate
  dsimp only
  split
  · exact altersRow_of_uncoloned (uncoloned_refl _)
  · refine altersRow_of_uncoloned ?_
    have hlength : (blankLeading (statement ahead)).length = (statement ahead).length := by
      simpa using congrArg List.length (reworked_blankLeading (statement ahead)).map_frame_eq
    have hoperand := (spelled_operand opening ((setText x.value.text.dropLast x).value :: before)
      (statement ahead).length
      (blankLeading (statement ahead) ++ ahead.drop (statement ahead).length)).uncoloned
    rwa [drop_left' hlength] at hoperand

theorem altersRow_message (x : Item) (ahead : List Item) : AltersRow x ahead (message x ahead) := by
  refine altersRow_of_uncoloned ?_
  rw [drop_ahead_message]
  exact uncoloned_refl _

theorem altersRow_pass (hhead : x.value.head? = some head) (hpass : head.isPass = true)
    (text : Text) (ahead : List Item) : AltersRow x ahead (pass text x ahead) := by
  unfold pass
  dsimp only
  split
  · exact altersRow_of_uncoloned (uncoloned_refl _)
  · next first rest htake =>
    intro j y _ hy
    by_cases hj : j < leading x.value
    · -- The arguments before the body are white space now.
      have hmem : ((first :: rest)[j]?) = some y := by
        rw [← htake, getElem?_take_of_lt hj, hy]
      have hblank : ∃ y', ((setText text (blanked first) ::
          rest.map blanked)[j]?) = some y' ∧ y'.value.kind = .whitespace := by
        cases j with
        | zero => exact ⟨_, rfl, rfl⟩
        | succ j =>
          refine ⟨blanked y, ?_, rfl⟩
          rw [getElem?_cons_succ] at hmem ⊢
          rw [getElem?_map, hmem]
          rfl
      obtain ⟨y', hy', hkind⟩ := hblank
      refine ⟨y', ?_, .erased hhead hpass hj hkind⟩
      dsimp only
      rw [getElem?_append_left (List.getElem?_eq_some_iff.mp hy').1, hy']
    · have hlength : (setText text (blanked first) ::
          rest.map blanked).length = leading x.value := by
        have hlen := congrArg List.length htake
        have hlt := (List.getElem?_eq_some_iff.mp hy).1
        rw [length_take, length_cons] at hlen
        rw [length_cons, length_map]
        omega
      refine ⟨y, ?_, .same⟩
      dsimp only
      rw [getElem?_append_right (by omega), hlength, getElem?_drop,
        Nat.add_sub_cancel' (by omega), hy]

theorem altersRow_definition (hhead : x.value.head? = some .define) (ahead : List Item) :
    AltersRow x ahead (definition x ahead) := by
  intro j y _ hy
  unfold definition
  dsimp only
  have hlt := (List.getElem?_eq_some_iff.mp hy).1
  have hlightened := lightened_header x.value.body (ahead.take (leading x.value))
  have hlength := hlightened.length_eq
  rw [length_take] at hlength
  by_cases hj : j < leading x.value
  · have htake : (ahead.take (leading x.value))[j]? = some y := by
      rw [getElem?_take_of_lt hj, hy]
    obtain ⟨y', hy', -, hsame⟩ := exists_getElem?_of_forall₂ hlightened htake
    refine ⟨y', by rw [getElem?_append_left (by omega), hy'], ?_⟩
    rcases hsame with rfl | ⟨hlight, -⟩
    · exact .same
    · exact .respaced hhead hj hlight
  · refine ⟨y, ?_, .same⟩
    rw [getElem?_append_right (by omega), getElem?_drop, ← hlength,
      Nat.min_eq_left (by omega), Nat.add_sub_cancel' (by omega), hy]

theorem altersRow_condition (opening comparison : Text) (before : List Piece) (x : Item)
    (ahead : List Item) : AltersRow x ahead (condition opening comparison before x ahead) := by
  refine altersRow_of_uncoloned ?_
  unfold condition
  dsimp only
  exact (spelled_expression ..).uncoloned

/-- **What the rule for a word does to the items that it does not take.** -/
theorem Acts.altersRow (h : Acts opening before x ahead r) : AltersRow x ahead r := by
  cases h with
  | repetition =>
    intro j y _ hy
    obtain ⟨y', hy', hsame⟩ := exists_getElem?_of_forall₂ (rebraced_braceBody _ ahead) hy
    refine ⟨y', hy', ?_⟩
    rcases hsame with rfl | ⟨hkind, rfl⟩
    · exact .same
    · exact .braced hkind
  | halfWords | plain => exact fun _ hy => ⟨_, hy, .same⟩
  | immediate => exact altersRow_immediate opening before x ahead
  | message => exact altersRow_message x ahead
  | @directive head n hhead hparts =>
    cases head with
    | ifZero | ifNotZero => exact altersRow_condition opening _ before x ahead
    | ifFirstPass | ifSecondPass => exact altersRow_pass hhead rfl _ ahead
    | define => exact altersRow_definition hhead ahead

/-! ## Items that are taken -/

/-- The item is a comma. -/
def isComma (x : Item) : Bool := x.value.isOperator ","

/-- The items of an expression are on its line and are no comments, and a comma can only be the last
of them. -/
theorem expression_items {body : Option Nat}
    (hj : j < (expression opening before body xs).items.length) (hy : xs[j]? = some y) :
    y.value.isNewline = false ∧ y.value.kind ≠ .comment ∧
      (j + 1 < (expression opening before body xs).items.length → isComma y = false) := by
  fun_induction expression opening before body xs generalizing j y with
  | case1 => cases hj
  | case2 => cases hj
  | case3 before body x rest hstop hcomma =>
    obtain rfl : j = 0 := by simpa using hj
    cases hy
    have hkind := Piece.kind_of_isOperator hcomma
    exact ⟨Piece.isNewline_eq_false (by simp [hkind]), by simp [hkind],
      fun hlt => absurd hlt (by simp)⟩
  | case4 before body x rest hstop hcomma y' =>
    rename_i e ih
    cases j with
    | zero =>
      cases hy
      simp only [Bool.or_eq_true, decide_eq_true_eq, not_or, Bool.not_eq_true] at hstop
      exact ⟨hstop.1.2, hstop.2, fun _ => by simpa [isComma] using hcomma⟩
    | succ j =>
      -- A colon is neither a comma nor a comment, and does not end a line.
      rw [length_cons, Nat.add_lt_add_iff_right] at hj
      rw [length_cons, Nat.add_lt_add_iff_right]
      obtain ⟨z, hz, hsame⟩ := exists_getElem?_of_forall₂ (uncoloned_after x rest) hy
      obtain ⟨hline, hcomment, hlast⟩ := ih hj hz
      rcases hsame with rfl | ⟨hcolon, rfl⟩
      · exact ⟨hline, hcomment, hlast⟩
      · have hkind := Piece.kind_of_isOperator hcolon
        exact ⟨Piece.isNewline_eq_false (by simp [hkind]), by simp [hkind],
          fun _ => Piece.isOperator_of_ne hcolon (by decide)⟩

theorem not_ended_of_statement (hj : j < (statement ahead).length)
    (hy : ahead[j]? = some y) : y.value.isNewline = false ∧ y.value.kind ≠ .comment := by
  have hmem : y ∈ statement ahead := by
    rw [← statement_append_drop ahead, getElem?_append_left hj] at hy
    exact mem_of_getElem? hy
  have hstop := mem_takeWhile_imp hmem
  simpa using hstop

/-- What a word takes is on its line and is no comment. -/
theorem Acts.not_ended (h : Acts opening before x ahead r) (hj : j < r.taken)
    (hy : ahead[j]? = some y) : y.value.isNewline = false ∧ y.value.kind ≠ .comment := by
  have hcondition {comparison : Text}
      (hj : j < (condition opening comparison before x ahead).taken) :
      y.value.isNewline = false ∧ y.value.kind ≠ .comment := by
    obtain ⟨hline, hcomment, -⟩ := expression_items hj hy
    exact ⟨hline, hcomment⟩
  have hpass {text : Text} : ¬j < (pass text x ahead).taken := by
    rw [taken_pass]
    exact Nat.not_lt_zero j
  cases h with
  | repetition | halfWords | plain => exact absurd hj (Nat.not_lt_zero j)
  | immediate =>
    rw [taken_immediate] at hj
    exact not_ended_of_statement hj hy
  | message => exact not_ended_of_statement hj hy
  | @directive head =>
    cases head with
    | ifZero | ifNotZero => exact hcondition hj
    | ifFirstPass | ifSecondPass => exact absurd hj hpass
    | define => exact absurd hj (Nat.not_lt_zero j)

/-! ## One step of the walk -/

/-- The walk has come past `x` and `n` of the items `ahead`, and the items `ys` are left. -/
structure Leaves (x : Item) (ahead : List Item) (n : Nat) (ys : List Item) : Prop where
  aged : AgedRow (ahead.drop n) ys
  alters : ∀ {l : Nat} {y : Item}, ahead[n + l]? = some y →
    ∃ y', ys[l]? = some y' ∧ Alters x (n + l) y y'

namespace Leaves

variable {l : Nat}

variable {ys : List Item} (h : Leaves x ahead n ys)
include h

theorem get (hy : ahead[n + l]? = some y) :
    ∃ y', ys[l]? = some y' ∧ Alters x (n + l) y y' ∧ Aged y y' := by
  obtain ⟨y', hy', halters⟩ := h.alters hy
  have hdrop : (ahead.drop n)[l]? = some y := by rwa [getElem?_drop]
  obtain ⟨z, hz, haged⟩ := exists_getElem?_of_forall₂ h.aged hdrop
  cases hy'.symm.trans hz
  exact ⟨y', hy', halters, haged⟩

theorem get_back (hy' : ys[l]? = some y') :
    ∃ y, ahead[n + l]? = some y ∧ Alters x (n + l) y y' ∧ Aged y y' := by
  obtain ⟨y, hy, haged⟩ := exists_getElem?_of_forall₂ (List.Forall₂.flip h.aged) hy'
  rw [getElem?_drop] at hy
  obtain ⟨z, hz, halters, -⟩ := h.get hy
  cases hy'.symm.trans hz
  exact ⟨y, hy, halters, haged⟩

theorem tame (htame : Tame (x :: ahead)) : Tame ys := h.aged.tame (htame.tail.drop n)

end Leaves

theorem leaves_word (h : Tame (x :: ahead)) (hkind : x.value.kind = .identifier) (opening : Text)
    (before : List Piece) :
    let r := word opening before x ahead
    Leaves x ahead r.taken (r.ahead.drop r.taken) where
  aged := (deals_word h hkind opening before).agedRow_drop
  alters := by
    intro l y hy
    obtain ⟨y', hy', halters⟩ := (acts_word hkind opening before ahead).altersRow
      (Nat.le_add_right _ l) hy
    exact ⟨y', by rw [getElem?_drop, hy'], halters⟩

theorem leaves_after (h : Leafy ahead) (x : Item) :
    Leaves x ahead 0 (after x ahead) where
  aged := agedRow_after h x
  alters := by
    intro l y hy
    rw [Nat.zero_add] at hy ⊢
    obtain ⟨y', hy', hsame⟩ := exists_getElem?_of_forall₂ (uncoloned_after x ahead) hy
    exact ⟨y', hy', hsame.alters x l⟩

end Row

end Macro10
