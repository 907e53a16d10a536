import Macro10.Proofs.Row.Normal
import Mathlib.Data.List.Forall2

/-!
# What the normal form changes

The normal form keeps the pieces in their order and changes their marks, the texts of some
operators, and the brackets of groups (`Settles`), in a row and in all that is inside it
(`settles_listing_normal`).
-/

namespace Macro10.Row

open List

/-- What the normal form can make of a piece. -/
structure Settles (p q : Piece) : Prop where
  kind : q.kind = p.kind ∨ p.kind = .operator ∧ q.kind = .whitespace ∧ q.text = []
  text : q.text = p.text ∨ p.kind = .operator ∧ q.text ∈ ["!=", "|", ""].map Text.ofString
  brackets : p.kind = .container →
    q.opening = (if p.opening.isEmpty then [] else [.char '(']) ∧
      q.closing = if p.closing.isEmpty then [] else [.char ')']
  opening : p.kind ≠ .container → q.opening = p.opening ∨ q.opening = []
  closing : p.kind ≠ .container → q.closing = p.closing ∨ q.closing = []
  role : q.role = p.role

namespace Settles

variable {p q : Piece}

theorem kind_eq (h : Settles p q) (hp : p.kind ≠ .operator) : q.kind = p.kind := by
  rcases h.kind with hkind | ⟨hkind, -⟩
  · exact hkind
  · exact absurd hkind hp

theorem of_kind_eq {kind : Kind} (h : Settles p q) (hq : q.kind = kind) (hne : kind ≠ .whitespace) :
    p.kind = kind := by
  rcases h.kind with hkind | ⟨-, hkind⟩
  · exact hkind.symm.trans hq
  · exact absurd (hq.symm.trans hkind.1) hne

theorem text_eq (h : Settles p q) (hp : p.kind ≠ .operator) : q.text = p.text := by
  rcases h.text with htext | ⟨hkind, -⟩
  · exact htext
  · exact absurd hkind hp

/-- A piece that was blanked out before is white space without a text. -/
theorem of_blanked (h : Settles p.blanked q) (hp : p.kind = .operator) : Settles p q := by
  have hkind : q.kind = .whitespace := h.kind_eq (by simp)
  have htext : q.text = [] := h.text_eq (by simp)
  refine ⟨.inr ⟨hp, hkind, htext⟩, .inr ⟨hp, by rw [htext]; decide⟩, fun hc => ?_, fun _ => .inr ?_,
    fun _ => .inr ?_, h.role⟩
  · rw [hp] at hc
    cases hc
  · rcases h.opening (by simp) with ho | ho <;> exact ho
  · rcases h.closing (by simp) with ho | ho <;> exact ho

theorem isNewline_eq (h : Settles p q) : q.isNewline = p.isNewline := by
  rcases h.kind with hkind | ⟨hp, hkind, htext⟩
  · by_cases hp : p.kind = .whitespace
    · have htext := h.text_eq (by simp [hp])
      simp only [Piece.isNewline, Token.isNewline, Piece.token, hkind, hp, htext]
    · rw [Piece.isNewline_eq_false hp, Piece.isNewline_eq_false (hkind ▸ hp)]
  · have hline : p.isNewline = false := Piece.isNewline_eq_false (by simp [hp])
    rw [hline]
    simp [Piece.isNewline, Token.isNewline, Piece.token, hkind, htext, Terminator.text]

theorem isContainer_eq (h : Settles p q) :
    decide (q.kind = .container) = decide (p.kind = .container) := by
  rcases h.kind with hkind | ⟨hp, hkind, -⟩ <;> simp [*]

theorem head?_eq (h : Settles p q) : q.head? = p.head? := by
  by_cases hp : p.kind = .identifier
  · have hkind := h.kind_eq (by simp [hp])
    have htext := h.text_eq (by simp [hp])
    simp [Piece.head?, Piece.upper, Token.upper, Token.words, Piece.token, hkind, htext]
  · have hq : q.kind ≠ .identifier := fun hq => hp (h.of_kind_eq hq (by decide))
    rw [Piece.head?, Piece.head?, if_neg hp, if_neg hq]

end Settles

theorem map_eq_of_settles {β : Type} {f : Piece → β} (hf : ∀ {p q}, Settles p q → f q = f p)
    {ps qs : List Piece} (h : List.Forall₂ Settles ps qs) : qs.map f = ps.map f := by
  induction h with
  | nil => rfl
  | cons hpq _ ih => rw [map_cons, map_cons, hf hpq, ih]

theorem length_leftover (p : Piece) (rest : List Piece) :
    (leftover p rest).length = rest.length := by
  unfold leftover
  split <;> simp

/-- Pieces are settled one after another, and each leaves the rest for the next. -/
@[elab_as_elim]
theorem leftover_induction {motive : List Piece → Prop} (nil : motive [])
    (cons : ∀ p rest, motive (leftover p rest) → motive (p :: rest)) (ps : List Piece) :
    motive ps := by
  generalize hn : ps.length = n
  induction n generalizing ps with
  | zero => exact eq_nil_of_length_eq_zero hn ▸ nil
  | succ n ih =>
    obtain ⟨p, rest, rfl⟩ := exists_cons_of_length_eq_add_one hn
    refine cons p rest (ih _ ?_)
    rw [length_leftover]
    simpa using hn

/-- Marks do not count, and then exclamation marks and brackets are changed. -/
theorem settles_parenthesized {p q : Piece} (hq : Alike p q) (hrole : q.role = p.role)
    (rest : List Piece) : Settles p (parenthesized (settled q rest)) := by
  by_cases hmark : q.isOperator "!" = true
  · have hkind : q.kind = .operator := Piece.kind_of_isOperator hmark
    have hpkind : p.kind = .operator := hq.kind.symm.trans hkind
    have hsame : parenthesized (settled q rest) = settled q rest :=
      if_neg (by rw [settled, if_pos hmark, Piece.kind_setText, hkind]; decide)
    rw [hsame, settled, if_pos hmark]
    refine ⟨.inl hq.kind, .inr ⟨hpkind, ?_⟩, fun hc => ?_, fun _ => .inl hq.opening,
      fun _ => .inl hq.closing, hrole⟩
    · rw [Piece.text_setText]
      split <;> decide
    · rw [hpkind] at hc
      cases hc
  · rw [settled, if_neg hmark]
    by_cases hgroup : q.kind = .container
    · rw [parenthesized, if_pos hgroup]
      have hpgroup : p.kind = .container := hq.kind.symm.trans hgroup
      refine ⟨.inl hq.kind, .inl hq.text, fun _ => ⟨?_, ?_⟩, fun hne => absurd hpgroup hne,
        fun hne => absurd hpgroup hne, hrole⟩
      · rw [hq.opening]
      · rw [hq.closing]
    · rw [parenthesized, if_neg hgroup]
      exact ⟨.inl hq.kind, .inl hq.text, fun hc => absurd (hq.kind.trans hc) hgroup,
        fun _ => .inl hq.opening, fun _ => .inl hq.closing, hrole⟩

theorem role_headed_owned (g : Option Gathering) (p : Piece) (rest : List Piece) :
    (headed (owned g p) rest).role = p.role := by
  have howned : (owned g p).role = p.role := by
    unfold owned
    split
    · rfl
    · split <;> rfl
  unfold headed
  split <;> exact howned

theorem settles_normalAfter (g : Option Gathering) (ps : List Piece) :
    List.Forall₂ Settles ps (normalAfter g ps) := by
  induction ps using leftover_induction generalizing g with
  | nil => exact .nil
  | cons p rest ih =>
    have hlooks : Alike p (headed (owned g p) rest) := by
      obtain ⟨hkind, htext, hopening, hclosing⟩ := alike_headed (owned g p) rest
      obtain ⟨hkind', htext', hopening', hclosing'⟩ := alike_owned g p
      exact ⟨hkind.trans hkind', htext.trans htext', hopening.trans hopening',
        hclosing.trans hclosing'⟩
    rw [normalAfter_cons]
    refine .cons (settles_parenthesized hlooks (role_headed_owned g p rest) rest) ?_
    specialize ih (gathering g p)
    generalize normalAfter (gathering g p) (leftover p rest) = qs at ih ⊢
    -- An equals sign may have been taken into the mark before it.
    rcases leftover_cases p rest with ⟨heq, -⟩ | ⟨r, later, rfl, hr, heq, -⟩
    · rwa [heq] at ih
    · rw [heq] at ih
      cases ih with
      | cons hblanked hlater =>
        exact .cons (hblanked.of_blanked (Piece.kind_of_isOperator hr)) hlater

theorem settles_leftover (g : Option Gathering) (p : Piece) (rest : List Piece) :
    List.Forall₂ Settles rest (normalAfter (gathering g p) (leftover p rest)) := by
  have hcons := settles_normalAfter g (p :: rest)
  rw [normalAfter_cons] at hcons
  cases hcons with
  | cons _ hrest => exact hrest

/-- **The normal form changes marks, operators and brackets only,** in a row and in what is inside
it. -/
theorem settles_listing_normal (xs : List Item) :
    List.Forall₂ Settles (Nest.listing xs) (Nest.listing (normal xs)) := by
  induction xs using Nest.inside_induction with
  | step xs hinside =>
    have hrow := settles_normalAfter none (xs.map Nest.value)
    rw [normal]
    generalize normalAfter none (xs.map Nest.value) = qs at hrow
    induction xs generalizing qs with
    | nil => cases hrow; exact .nil
    | cons x xs ihxs =>
      obtain ⟨hfirst, hothers⟩ := forall_mem_cons.mp hinside
      cases hrow with
      | @cons _ q _ qs hq hqs =>
        rw [map_cons, zipWith_cons_cons, Nest.listing_cons, Nest.listing_cons,
          Nest.values_node, Nest.values_eq]
        exact rel_append (.cons hq hfirst) (ihxs hothers qs hqs)

end Macro10.Row
