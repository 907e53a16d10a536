import Macro10.Proofs.Literal
import Macro10.Proofs.Row.Carry
import Macro10.Proofs.Row.Operand

/-!
# The line of a message

What stands on the line of a message directive is printed as it stands there in normal form: its
text is taken without the white space around it, and only its quotes are changed.

Main statement: `textOf_message`.
-/

namespace Macro10

open List
open Piece (blanked made text)

variable {ps : List Piece}

/-- The piece can stand in a message that goes on after it. -/
structure Piece.IsSaid (p : Piece) : Prop where
  container : p.kind ≠ .container
  comment : p.kind ≠ .comment
  isNewline : p.isNewline = false

/-- The piece shows nothing but white space. -/
def Piece.isClear (p : Piece) : Bool := p.text.all Symbol.isSpace

theorem Piece.text_of_isOperator {p : Piece} {text : Text} (h : p.isOperator text = true) :
    p.text = text := by
  have hkind := kind_of_isOperator h
  simpa [isOperator, Token.isOperator, token, hkind] using h

namespace Row

variable {e : Piece} {w : Text}

/-! ## Normal form -/

theorem Settles.isSaid {p q : Piece} (h : Settles p q) (hp : p.IsSaid) : q.IsSaid where
  container hq := hp.container (h.of_kind_eq hq (by decide))
  comment hq := hp.comment (h.of_kind_eq hq (by decide))
  isNewline := h.isNewline_eq.trans hp.isNewline

theorem text_parenthesized (p : Piece) : (parenthesized p).text = p.text := by
  unfold parenthesized
  split <;> rfl

/-- In normal form, pieces show something if they did before. -/
theorem all_isClear_normalAfter (g : Option Gathering) (ps : List Piece) :
    (normalAfter g ps).all Piece.isClear = ps.all Piece.isClear := by
  induction ps using leftover_induction generalizing g with
  | nil => rfl
  | cons p rest ih =>
    have htext : (headed (owned g p) rest).text = p.text :=
      (alike_headed (owned g p) rest).text.trans (alike_owned g p).text
    rw [normalAfter_cons, all_cons, all_cons, ih, Piece.isClear, text_parenthesized,
      settled, isOperator_headed_owned]
    by_cases hmark : p.isOperator "!" = true
    · have hclear : p.isClear = false := by
        rw [Piece.isClear, Piece.text_of_isOperator hmark]
        decide
      rw [if_pos hmark, hclear, Bool.false_and, Bool.and_eq_false_iff]
      left
      split <;> rfl
    · have hleft : leftover p rest = rest := if_neg (by simp [joined, hmark])
      rw [if_neg hmark, hleft, htext, Piece.isClear]

/-- **The line of a message in normal form.** -/
theorem exists_normalAfter_said (hps : ∀ p ∈ ps, p.IsSaid) (he : e.isNewline = true)
    (g : Option Gathering) :
    ∃ qs e', normalAfter g (ps ++ [e]) = qs ++ [e'] ∧ (∀ q ∈ qs, q.IsSaid) ∧
      e'.isNewline = true ∧ e'.text = e.text := by
  have hsettles := forall₂_reverse_iff.mpr (settles_normalAfter g (ps ++ [e]))
  rw [reverse_append] at hsettles
  generalize hzs : (normalAfter g (ps ++ [e])).reverse = zs at hsettles
  cases hsettles with
  | @cons _ e' _ qs hlast hothers =>
    refine ⟨qs.reverse, e', ?_, fun q hq => ?_, hlast.isNewline_eq.trans he, hlast.text_eq ?_⟩
    · rw [reverse_eq_iff] at hzs
      rw [hzs, reverse_cons]
    · obtain ⟨p, hp, hpq⟩ := exists_mem_of_forall₂ hothers (mem_reverse.mp hq)
      exact hpq.isSaid (hps p (mem_reverse.mp hp))
    · rw [Piece.kind_of_isNewline he]
      decide

/-- The normal form of a word that collects nothing, and of what stands after it on its line. -/
theorem exists_normal_said (hw : Head.ofWord? (Text.upper w) = none) (hps : ∀ p ∈ ps, p.IsSaid)
    (hsolid : ps.all Piece.isClear = false) (he : e.isNewline = true) (hend : e.isClear = true) :
    ∃ qs e', normal (leaves ([nameOf w, blank] ++ ps ++ [e])) =
        leaves ([nameOf w, blank] ++ qs ++ [e']) ∧ (∀ q ∈ qs, q.IsSaid) ∧
      qs.all Piece.isClear = false ∧ e'.isNewline = true ∧ e'.text = e.text := by
  obtain ⟨qs, e', hqs, hsaid, he', htext⟩ := exists_normalAfter_said hps he none
  refine ⟨qs, e', ?_, hsaid, ?_, he', htext⟩
  · rw [append_assoc, cons_append, singleton_append, leaves_cons, leaves_cons,
      normal_cons (isArgument_nameOf hw).toInert, normal_cons isArgument_blank.toInert,
      normal_leaves, hqs, append_assoc]
    rfl
  · have hclear := all_isClear_normalAfter none (ps ++ [e])
    have hlast : e'.isClear = true := by rwa [Piece.isClear, htext]
    simpa [hqs, hsolid, hlast] using hclear

theorem flatMap_text_normalAfter (h : ∀ p ∈ ps, p.isOperator "!" = false)
    (g : Option Gathering) : (normalAfter g ps).flatMap text = ps.flatMap text := by
  induction ps generalizing g with
  | nil => rfl
  | cons p ps ih =>
    obtain ⟨hmark, hps⟩ := forall_mem_cons.mp h
    rw [normalAfter_of_not_mark hmark, flatMap_cons, flatMap_cons, ih hps,
      text_parenthesized, (alike_headed (owned g p) ps).text, (alike_owned g p).text]

/-! ## Messages -/

theorem statement_said (hps : ∀ p ∈ ps, p.IsSaid) (he : e.isNewline = true) :
    statement (leaves ps ++ leaves [e]) = leaves ps := by
  have htake : ∀ x ∈ leaves ps, (!(x.value.isNewline || x.value.kind = .comment)) = true := by
    intro x hx
    obtain ⟨p, hp, rfl⟩ := mem_map.mp hx
    simp [(hps p hp).isNewline, (hps p hp).comment]
  rw [statement, takeWhile_append_of_pos htake, leaves_cons,
    takeWhile_cons_of_neg (by simp [he]), append_nil]

/-- **What a message prints.** -/
theorem textOf_message (hw : Text.upper w = Keyword.message) (hps : ∀ p ∈ ps, p.IsSaid)
    (hsolid : ps.all Piece.isClear = false) (he : e.isNewline = true) (newline : Text) :
    Item.textOf (retarget newline [] (leaves ([nameOf w, blank] ++ ps ++ [e]))) =
      ".OUT " ++ printed (ps.flatMap text) ++ e.text := by
  have hend := Piece.kind_of_isNewline he
  have hblank : ∀ p ∈ blank :: ps, p.IsSaid :=
    forall_mem_cons.mpr ⟨⟨by decide, by decide, by decide⟩, hps⟩
  have hwords : Item.textOf (leaves ps) = ps.flatMap text :=
    flatMap_text_leaves fun p hp => (hps p hp).container
  have hne : (Text.trim (ps.flatMap text)).isEmpty = false := by
    rw [Text.isEmpty_trim, all_flatMap]
    exact hsolid
  have hlater : (leaves (blank :: ps) ++ leaves [e]).drop (leaves (blank :: ps)).length =
      leaves [e] := drop_left
  have hcomment : ((leaves [e]).head?.any fun x => x.value.kind = .comment) = false := by
    simp [leaves, hend]
  have hparts : messageParts isGap (leaves (blank :: ps)) false =
      ⟨some (.node blank []), leaves ps, none⟩ := rfl
  have hlast (before : List Piece) : retargetRow [] before (leaves [e]) = leaves [e] := by
    rw [leaves_cons, retargetRow_whitespace (x := .node e []) _ _ _ hend]
    simp [leaves, retargetRow]
  have hrow : leaves ([nameOf w, blank] ++ ps ++ [e]) =
      .node (nameOf w) [] :: (leaves (blank :: ps) ++ leaves [e]) := by simp [leaves]
  -- The words of the message are blanked out, and the string comes after them.
  have hwalk : retargetRow [] [] (leaves ([nameOf w, blank] ++ ps ++ [e])) =
      leaves ([nameOf ".OUT", blank] ++ ps.map blanked ++
        [.made .string (printed (ps.flatMap text)), e]) := by
    rw [hrow, retargetRow_word (x := .node (nameOf w) []) _ _ _ rfl,
      word_message (x := .node (nameOf w) []) hw]
    dsimp only
    rw [drop_ahead_message]
    simp only [message, statement_said hblank he, hlater, hcomment, hparts, hwords, hne, hlast]
    simp [leaves, Item.blanked, Item.setText, Item.made, Piece.setText, made, Nest.setValue,
      printed]
  have hkinds : ∀ p ∈ [nameOf ".OUT", blank] ++ ps.map blanked ++
      [.made .string (printed (ps.flatMap text)), e], p.kind ≠ .container := by
    refine forall_mem_append.mpr ⟨forall_mem_append.mpr ⟨by decide, ?_⟩, ?_⟩
    · exact forall_mem_map.mpr fun p _ => by simp
    · exact forall_mem_cons.mpr ⟨by simp, forall_mem_singleton.mpr (by simp [hend])⟩
  rw [retarget_eq, hwalk, textOf_leaves hkinds]
  simp [flatMap_map, Text.ofString]

end Row

end Macro10
