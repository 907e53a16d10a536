import Macro10.Proofs.Row.Directive
import Macro10.Proofs.Row.NormalLines

/-!
# The operand of a statement in normal form

The operand stands between the word of a statement and the end of the statement (`IsOperand`). Its
normal form does not depend on the word, but that after a word that collects arguments the pieces
have an owner (`normal_condition`, `normal_statement`).
-/

namespace Macro10

open List
open Nest (value)

variable {p : Piece} {xs : List Item} {ps : List Piece} {head : Head}

/-- The piece is neither a comment nor a string, and ends no line. -/
structure Piece.Calm (p : Piece) : Prop where
  comment : p.kind ≠ .comment
  string : p.kind ≠ .string
  isNewline : p.isNewline = false

namespace Row

variable {g e : Piece}

/-! ## Pieces of an operand -/

/-- The piece can stand in an operand: it is neither a comma nor a colon, and no word that means
something. -/
structure IsOperand (p : Piece) : Prop extends p.Calm where
  comma : p.isOperator "," = false
  colon : p.isOperator ":" = false
  ordinary : p.kind = .identifier → Ordinary p.text
  role : p.role = .inline

namespace IsOperand

section

variable (h : IsOperand p)
include h

theorem head? : p.head? = none := by
  unfold Piece.head?
  split
  · next hkind =>
    rw [Piece.upper_of_kind_ne (by simp [hkind])]
    exact (h.ordinary hkind).1
  · rfl

theorem ownedAt (distance : Nat) : IsOperand (p.ownedAt distance) :=
  ⟨⟨h.comment, h.string, h.isNewline⟩, h.comma, h.colon, h.ordinary, h.role⟩

theorem setText (hkind : p.kind = .operator) {text : Text}
    (hcomma : text ≠ ",") (hcolon : text ≠ ":") :
    IsOperand (p.setText text) where
  comment := by simp [hkind]
  string := by simp [hkind]
  isNewline := Piece.isNewline_eq_false (by simp [hkind])
  comma := by simp [Piece.isOperator, Token.isOperator, Piece.token, hkind, hcomma]
  colon := by simp [Piece.isOperator, Token.isOperator, Piece.token, hkind, hcolon]
  ordinary := fun hword => by simp [hkind] at hword
  role := h.role

theorem blanked : IsOperand p.blanked where
  comment := by simp
  string := by simp
  isNewline := Piece.isNewline_blanked p
  comma := isOperator_blanked p _
  colon := isOperator_blanked p _
  ordinary := nofun
  role := h.role

theorem parenthesized : IsOperand (parenthesized p) := by
  unfold Row.parenthesized
  split
  · next hkind =>
    exact
      { comment := by simp [hkind]
        string := by simp [hkind]
        isNewline := Piece.isNewline_eq_false (by simp [hkind])
        comma := Piece.isOperator_of_kind_ne (by simp [hkind]) _
        colon := Piece.isOperator_of_kind_ne (by simp [hkind]) _
        ordinary := fun hword => by simp [hkind] at hword
        role := h.role }
  · exact h

end

end IsOperand

/-- What the settling of exclamation marks hands on. -/
theorem forall_settle {P : Piece → Prop} (h : ∀ p ∈ ps, P p)
    (hmark : ∀ p, P p → p.kind = .operator → P (p.setText "|") ∧ P (p.setText "!="))
    (hblanked : ∀ p, P p → P p.blanked) : ∀ q ∈ settle ps, P q := by
  fun_induction settle ps with
  | case1 => exact h
  | case2 p =>
    obtain ⟨hp, -⟩ := forall_mem_cons.mp h
    refine forall_mem_singleton.mpr ?_
    split
    · next hop => exact (hmark p hp (Piece.kind_of_isOperator hop)).1
    · exact hp
  | case3 p q rest hop _ ih =>
    obtain ⟨hp, h⟩ := forall_mem_cons.mp h
    obtain ⟨hq, h⟩ := forall_mem_cons.mp h
    exact forall_mem_cons.mpr ⟨(hmark p hp (Piece.kind_of_isOperator hop)).2,
      forall_mem_cons.mpr ⟨hblanked q hq, ih h⟩⟩
  | case4 p q rest hop _ ih =>
    obtain ⟨hp, h⟩ := forall_mem_cons.mp h
    exact forall_mem_cons.mpr ⟨(hmark p hp (Piece.kind_of_isOperator hop)).1, ih h⟩
  | case5 p q rest _ ih =>
    obtain ⟨hp, h⟩ := forall_mem_cons.mp h
    exact forall_mem_cons.mpr ⟨hp, ih h⟩

theorem isBlank_settled (h : p.isBlank = false) (rest : List Piece) :
    (parenthesized (settled p rest)).isBlank = false := by
  have hsettled : (settled p rest).isBlank = false := by
    unfold settled
    split
    · next hop => exact Piece.isBlank_of_kind_ne (by simp [Piece.kind_of_isOperator hop])
    · exact h
  unfold parenthesized
  split
  · next hkind => exact Piece.isBlank_of_kind_ne (by simp [hkind])
  · exact hsettled

theorem isOperand_numbered (h : ∀ p ∈ ps, IsOperand p) (distance : Nat) :
    ∀ p ∈ numbered distance ps, IsOperand p := by
  induction ps generalizing distance with
  | nil => exact forall_mem_nil _
  | cons p ps ih =>
    obtain ⟨hp, h⟩ := forall_mem_cons.mp h
    exact forall_mem_cons.mpr ⟨hp.ownedAt _, ih h _⟩

theorem isOperand_blank : IsOperand blank where
  comment := by decide
  string := by decide
  isNewline := by decide
  comma := by decide
  colon := by decide
  ordinary := nofun
  role := rfl

section

variable (hxs : ∀ x ∈ xs, IsOperand x.value)
include hxs

theorem isOperand_values : ∀ p ∈ xs.map value, IsOperand p := forall_mem_map.mpr hxs

theorem head?_values : ∀ p ∈ xs.map value, p.head? = none :=
  fun p hp => (isOperand_values hxs p hp).head?

theorem isOperand_normalAfter : ∀ p ∈ normalAfter none (xs.map value), IsOperand p := by
  rw [normalAfter_of_head? (head?_values hxs)]
  intro p hp
  obtain ⟨q, hq, rfl⟩ := mem_map.mp hp
  refine (forall_settle (isOperand_values hxs) ?_ (fun p hp => hp.blanked) q hq).parenthesized
  exact fun p hp hkind => ⟨hp.setText hkind (by decide) (by decide),
    hp.setText hkind (by decide) (by decide)⟩

theorem owner_normalAfter (hmarks : ∀ x ∈ xs, x.value.Unmarked) :
    ∀ p ∈ normalAfter none (xs.map value), p.owner = none := by
  have hvalues : ∀ p ∈ xs.map value, p.owner = none :=
    forall_mem_map.mpr fun x hx => (hmarks x hx).owner
  rw [normalAfter_of_head? (head?_values hxs)]
  intro p hp
  obtain ⟨q, hq, rfl⟩ := mem_map.mp hp
  have howner : q.owner = none :=
    forall_settle hvalues (fun p hp _ => ⟨hp, hp⟩) (fun p hp => hp) q hq
  unfold parenthesized
  split <;> exact howner

/-- The items of an operand in normal form are again those of an operand, and no one owns them. -/
theorem isOperand_normal (hmarks : ∀ x ∈ xs, x.value.Unmarked) :
    ∀ x ∈ normal xs, IsOperand x.value ∧ x.value.owner = none := by
  intro x hx
  have hmem : x.value ∈ normalAfter none (xs.map value) :=
    map_value_normal xs ▸ mem_map_of_mem hx
  exact ⟨isOperand_normalAfter hxs _ hmem, owner_normalAfter hxs hmarks _ hmem⟩

variable {e : Piece} (he : e.kind = .whitespace)
include he

/-- A word that collects nothing leaves its operand as it is. -/
theorem normal_statement {w : Text} (hw : Head.ofWord? (Text.upper w) = none) :
    normal (leaves [nameOf w, blank] ++ xs ++ leaves [e]) =
      leaves [nameOf w, blank] ++ normal xs ++ leaves [e] := by
  have hend := inert_of_whitespace he
  have hhead : ∀ x ∈ xs ++ leaves [e], x.value.head? = none :=
    forall_mem_append.mpr ⟨fun x hx => (hxs x hx).head?, forall_mem_singleton.mpr hend.head?⟩
  have hequals : e.isOperator "=" = false := Piece.isOperator_of_kind_ne (by simp [he]) _
  rw [append_assoc, leaves_cons, leaves_cons, cons_append, cons_append,
    normal_cons (isArgument_nameOf hw).toInert, normal_cons isArgument_blank.toInert]
  change _ :: _ :: normal (xs ++ leaves [e]) = _
  rw [normal_append_of_head? hhead (by simpa [leaves] using hequals), normal_leaves,
    normalAfter_eq_self (forall_mem_singleton.mpr hend)]
  simp [leaves]

end

/-! ## Operands of conditions -/

/-- A condition takes its operand and waits for its body after the comma. -/
theorem awaitsBody_operand (h : ∀ p ∈ ps, IsOperand p) : AwaitsBody false (ps ++ [comma]) := by
  induction ps with
  | nil => exact ⟨rfl, rfl, nofun, rfl⟩
  | cons p ps ih =>
    obtain ⟨hp, h⟩ := forall_mem_cons.mp h
    refine ⟨hp.isNewline, hp.head?, fun _ => rfl, ?_⟩
    rw [hp.comma]
    exact ih h

theorem numbered_append (distance : Nat) (ps qs : List Piece) :
    numbered distance (ps ++ qs) = numbered distance ps ++ numbered (distance + ps.length) qs := by
  induction ps generalizing distance with
  | nil => rfl
  | cons p ps ih =>
    rw [cons_append, numbered, ih, Nat.add_assoc, Nat.add_comm 1]
    rfl

theorem ownedArguments_comma (hxs : ∀ x ∈ xs, IsOperand x.value) :
    ownedArguments (xs ++ [.node comma []]) =
      ownedArguments xs ++ [.node (comma.ownedAt xs.length) []] := by
  have hhead : ∀ p ∈ xs.map value ++ [comma], p.head? = none :=
    forall_mem_append.mpr ⟨head?_values hxs, forall_mem_singleton.mpr rfl⟩
  have hcomma : normalAfter none [comma] = [comma] :=
    normalAfter_eq_self (forall_mem_singleton.mpr isArgument_comma.toInert)
  have hlast : filled [comma.ownedAt xs.length] (leaves [comma]) =
      leaves [comma.ownedAt xs.length] := filled_leaves rfl
  rw [ownedArguments, map_append]
  change filled (numbered 0 (normalAfter none (xs.map value ++ [comma]))) _ = _
  rw [normalAfter_append_of_head? hhead rfl, hcomma, numbered_append, filled_append (by simp),
    length_normalAfter, length_map, Nat.zero_add]
  exact congrArg (ownedArguments xs ++ ·) hlast

theorem isOperand_ownedArguments (hxs : ∀ x ∈ xs, IsOperand x.value) :
    ∀ x ∈ ownedArguments xs, IsOperand x.value := by
  intro x hx
  refine isOperand_numbered (isOperand_normalAfter hxs) 0 _ ?_
  rw [← map_value_ownedArguments]
  exact mem_map_of_mem hx

/-- The items are the arguments of a directive, the first of which is at the given distance. -/
def OwnedFrom (distance : Nat) : List Item → Prop
  | [] => True
  | x :: rest => x.value.owner = some distance ∧ OwnedFrom (distance + 1) rest

theorem ownedFrom_filled (distance : Nat) (ps : List Piece) (xs : List Item) :
    OwnedFrom distance (filled (numbered distance ps) xs) := by
  induction ps generalizing distance xs with
  | nil => trivial
  | cons p ps ih =>
    cases xs with
    | nil => trivial
    | cons x xs => exact ⟨rfl, ih (distance + 1) xs⟩

/-! ## Operands that start with no blank -/

/-- A mark that its numeral has used up. -/
def spentMark : Item := .node { kind := .whitespace, text := [] } []

/-- The items start with one that is no blank, or with spent marks before such a one. -/
inductive Led : List Item → Prop
  | solid {x : Item} {rest : List Item} (hx : x.value.isBlank = false) : Led (x :: rest)
  | spent {rest : List Item} (h : Led rest) : Led (spentMark :: rest)

namespace Led

theorem normal (h : Led xs) (hxs : ∀ x ∈ xs, IsOperand x.value) : Led (normal xs) := by
  induction h with
  | @solid x rest hx =>
    obtain ⟨hoperand, -⟩ := forall_mem_cons.mp hxs
    rw [normal_eq_filled, map_cons, normalAfter_cons]
    refine .solid ?_
    rw [Nest.value_node, owned, headed_of_head? hoperand.head?]
    exact isBlank_settled hx _
  | @spent rest h ih =>
    obtain ⟨-, hrest⟩ := forall_mem_cons.mp hxs
    have hcons := normal_cons (p := spentMark.value) (inert_of_whitespace rfl) rest
    exact hcons ▸ .spent (ih hrest)

theorem all_isBlank (h : Led xs) : (xs.all fun x => x.value.isBlank) = false := by
  induction h with
  | solid hx => simp [hx]
  | spent h ih => rw [all_cons, ih, Bool.and_false]

/-- Blanks at the start of such items are spent already. -/
theorem blankLeading (h : Led xs) : blankLeading xs = xs := by
  induction h with
  | solid hx => rw [Row.blankLeading, hx]; rfl
  | spent h ih =>
    rw [Row.blankLeading, ih]
    rfl

end Led

end Row

end Macro10
