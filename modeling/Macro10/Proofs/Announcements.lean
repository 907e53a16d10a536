import Macro10.Proofs.Blocks
import Macro10.Proofs.Radix
import Macro10.Proofs.Row.Announced
import Macro10.Proofs.TargetRows

/-!
# Data statements are explicit

In a target no literal is the first token of a line that may be a statement, and a directive for
data that has been put in stands directly before a literal of the source, one for each
(`literals_announced`).
-/

namespace Macro10

open List
open Retarget (dataDirective)

variable {cs : List Cell}

/-- The token is a literal. -/
def Token.isLiteral (t : Token) : Bool := t.kind = .string || t.kind = .number

theorem Token.Shows.isLiteral {t : Token} {p : Piece} {inside : List Id} (h : t.Shows p inside) :
    t.isLiteral = p.isLiteral := by
  rw [Token.isLiteral, Piece.isLiteral, h.kind]

namespace Document

variable {d : Document} {i : Id}

/-- The token at `i` has been put in to announce the token at `k` as data. -/
def Announces (d : Document) (i k : Id) : Prop :=
  ∃ parent before j after, d.Scope parent (before ++ i :: j :: k :: after) ∧
    d.MadeAt i .identifier dataDirective ∧ d.MadeAt j .whitespace [.char ' ']

theorem Evolves.isLiteral {d' : Document} {marks : Bool} (h : d.Evolves marks d')
    (hi : i < d.tokens.size) (hliteral : d'.tests Token.isLiteral i = true) :
    d.tests Token.isLiteral i = true := by
  have hbefore := Array.getElem?_eq_getElem hi
  obtain ⟨t, ht, hevolves⟩ := h.tokens hbefore
  rw [tests_eq ht, Token.isLiteral] at hliteral
  rw [tests_eq hbefore]
  rcases hevolves.kind with hkind | hkind
  · rwa [hkind] at hliteral
  · rw [hkind] at hliteral
    cases hliteral

theorem WellFormed.eq_of_announces (h : d.WellFormed) {i' k : Id}
    (hi : d.Announces i k) (hi' : d.Announces i' k) : i = i' := by
  -- The token before the one before `k` is found by two links.
  have hlinks {i k : Id} (h' : d.Announces i k) :
      ∃ t j u, d.tokens[k]? = some t ∧ t.prev = some j ∧ d.tokens[j]? = some u ∧
        u.prev = some i := by
    obtain ⟨parent, before, j, after, hscope, -⟩ := h'
    have hfirst : d.Scope parent ((before ++ [i]) ++ j :: k :: after) := by simpa using hscope
    have hsecond : d.Scope parent ((before ++ [i, j]) ++ k :: after) := by simpa using hscope
    obtain ⟨t, ht, -, hprev, -⟩ := h.linked hsecond
    obtain ⟨u, hu, -, hprev', -⟩ := h.linked hfirst
    exact ⟨t, j, u, ht, by simpa using hprev, hu, by simpa using hprev'⟩
  obtain ⟨t, j, u, ht, hj, hu, hprev⟩ := hlinks hi
  obtain ⟨t', j', u', ht', hj', hu', hprev'⟩ := hlinks hi'
  cases ht.symm.trans ht'
  cases hj.symm.trans hj'
  cases hu.symm.trans hu'
  exact Option.some.inj (hprev.symm.trans hprev')

end Document

/-! ## Rows that are written -/

namespace Row

variable {newline opening : Text} {us row : List Item}

theorem Written.covered (h : Written newline opening us row) (hus : Tame us)
    (hopening : opening ≠ "(") : Covered true (row.map Nest.value) := by
  have hrow := covered_retargetRow hus hopening []
  rw [← map_value_retarget newline] at hrow
  cases h with
  | inline heq => exact heq ▸ hrow
  | @body closing _ _ heq =>
    rw [heq, map_append, map_cons, cons_append]
    refine ⟨by simp [Piece.isLiteral], ?_⟩
    have hspace : ((Piece.made .whitespace newline).isNewline ||
        true && (Piece.made .whitespace newline).isSpacing) = true := by
      simp [Piece.isSpacing]
    rw [Item.value_made, hspace]
    refine hrow.append fun fresh => ⟨by simp [Piece.isLiteral], ?_⟩
    cases closing with
    | none => trivial
    | some word => exact ⟨by simp [Piece.isLiteral], trivial⟩

theorem Written.announced (h : Written newline opening us row) (hus : Tame us)
    (hlabels : Labelled us) : Announced (row.map Nest.value) := by
  have hrow := announced_retargetRow hus hlabels opening []
  rw [← map_value_retarget newline] at hrow
  cases h with
  | inline heq => exact heq ▸ hrow
  | @body closing _ hclosing heq =>
    rw [heq, map_append, map_cons, cons_append]
    refine .cons (.inr (by simp)) (hrow.append (.cons (.inr (by simp)) ?_))
    cases closing with
    | none => trivial
    | some word =>
      -- What closes a body is no directive for data.
      have hwords : ∀ w ∈ closingTexts, w ≠ dataDirective := by decide
      exact ⟨fun _ _ htext => absurd htext (hwords word (hclosing word rfl)), trivial⟩

end Row

/-! ## Documents -/

theorem Cell.labelled_within {us : List Item}
    (h : Nest.Within us (Cell.items (cs.map Cell.labelled))) : Row.Labelled us := by
  intro x hx
  have hmem := h.listing_subset (mem_flatMap.mpr ⟨x, hx, x.value_mem_values⟩)
  rw [Cell.listing_items, Cell.listing_labelled, List.map_map] at hmem
  obtain ⟨v, -, hv⟩ := mem_map.mp hmem
  rw [← hv]
  rfl

namespace Retargeted

variable {parent : Option Id} {i : Id}

variable {normal target : Document} {cs out : List Cell} (h : Retargeted normal cs target out)
include h

section

variable (hroles : ∀ p ∈ Nest.listing (Cell.items (cs.map Cell.labelled)), p.role = .inline)
include hroles

/-- The row of a list of siblings, and what the walk knows of it. -/
theorem exists_tame_row {ids : List Id} (hscope : target.Scope parent ids) :
    ∃ ws us, ids = Cell.ids ws ∧ Nest.Within ws out ∧ target.Standing false parent ws ∧
      Row.Tame us ∧ Row.Labelled us ∧
      Row.Written normal.newline (target.openingOf parent) us (Cell.items ws) := by
  obtain ⟨ws, us, hids, hws, hstanding, hus, hwritten⟩ := h.exists_row hroles hscope
  refine ⟨ws, us, hids, hws, hstanding, ?_, ?_, hwritten⟩
  · rcases hus with rfl | hus
    · exact ⟨forall_mem_nil _, trivial, trivial⟩
    · exact hus.row h.tame
  · rcases hus with rfl | hus
    · exact forall_mem_nil _
    · exact Cell.labelled_within hus

theorem exists_before_literal {before after : List Id}
    (hscope : target.Scope parent (before ++ i :: after))
    (hopening : target.openingOf parent ≠ "(")
    (hi : target.tests Token.isLiteral i = true) :
    ∃ j ∈ target.lineBefore before, target.tests (fun t => t.kind ≠ .whitespace) j = true := by
  obtain ⟨ws, us, hids, -, hstanding, htame, -, hwritten⟩ := h.exists_tame_row hroles hscope
  obtain ⟨xs, c, ys, rfl, rfl, rfl, rfl⟩ := Cell.exists_of_ids_eq hids
  have hlooks := hstanding.row.looks
  obtain ⟨t, ht, hshows⟩ := hlooks c (by simp)
  rw [Document.tests_eq ht, hshows.isLiteral] at hi
  have hcovered := hwritten.covered htame hopening
  rw [Cell.map_value_items, Cell.pieces_append, Cell.pieces_cons] at hcovered
  have hfresh := @Row.Covered.freshAfter_eq _ _ [] _ hcovered hi
  -- The line has a piece that is no white space, and it is the piece of a cell.
  rw [append_nil, ← Cell.pieces_reverse, Row.freshAfter, Cell.takeWhile_pieces,
    all_eq_false] at hfresh
  obtain ⟨p, hp, hsolid⟩ := hfresh
  obtain ⟨e, he, rfl⟩ := mem_map.mp hp
  have hmem : e ∈ xs := mem_reverse.mp ((takeWhile_sublist _).subset he)
  obtain ⟨u, hu, hshowsu⟩ := hlooks e (by simp [hmem])
  refine ⟨e.id, ?_, ?_⟩
  · rw [Document.lineBefore, ← Cell.ids_reverse,
      Document.takeWhile_ids (fun _ _ _ hshows => hshows.isNewline)]
    · exact mem_map_of_mem he
    · exact fun e' he' => hlooks e' (by simp [mem_reverse.mp he'])
  · rw [Document.tests_eq hu, hshowsu.kind]
    simpa [Piece.isSpacing] using hsolid

end

theorem exists_scope (hi : i ∈ Cell.places out) :
    ∃ parent before after, target.Scope parent (before ++ i :: after) := by
  obtain ⟨v, hv, rfl⟩ := mem_map.mp hi
  obtain ⟨ws, hws, c, hc, rfl⟩ := Nest.exists_within hv
  obtain ⟨parent, -, hscope, -⟩ := h.exists_token hws hc
  obtain ⟨xs, ys, rfl⟩ := append_of_mem hc
  rw [Cell.ids_append, Cell.ids_cons] at hscope
  exact ⟨parent, _, _, hscope⟩

/-- A directive for data that has been made announces a literal that was there. -/
theorem exists_announces
    (hroles : ∀ p ∈ Nest.listing (Cell.items (cs.map Cell.labelled)), p.role = .inline)
    (hnew : normal.tokens.size ≤ i) (hi : target.MadeAt i .identifier dataDirective) :
    ∃ k, target.Announces i k ∧ target.tests Token.isLiteral k = true ∧ k < normal.tokens.size := by
  obtain ⟨t, ht, hkind, htext, -⟩ := id hi
  obtain ⟨parent, before, after, hscope⟩ :=
    h.exists_scope (h.houses i hnew (Document.lt_size_of_getElem? ht))
  obtain ⟨ws, us, hids, hws, hstanding, htame, hlabels, hwritten⟩ :=
    h.exists_tame_row hroles hscope
  obtain ⟨xs, c, ys, rfl, rfl, rfl, rfl⟩ := Cell.exists_of_ids_eq hids
  have hannounced := hwritten.announced htame hlabels
  rw [Cell.map_value_items, Cell.pieces_append, Cell.pieces_cons] at hannounced
  -- The directive has no label, so its row says what follows it.
  obtain ⟨t', ht', hshows⟩ := hstanding.row.looks c (by simp)
  cases ht.symm.trans ht'
  have hlabel := (h.label_eq hws (c := c) (by simp)).2
  rw [if_neg (not_lt.mpr hnew)] at hlabel
  rw [hshows.kind] at hkind
  rw [hshows.text_eq (by simp [hkind])] at htext
  obtain ⟨q, later, hlater, hliteral, hq⟩ :=
    hannounced.of_append.1 hlabel hkind (Option.some.inj htext)
  obtain ⟨e, zs, rfl, he, hzs⟩ := map_eq_cons_iff.mp hlater
  obtain ⟨k, zs, rfl, rfl, -⟩ := map_eq_cons_iff.mp hzs
  obtain ⟨u, hu, hshowsu⟩ := hstanding.row.looks k (by simp)
  have hold : k.id < normal.tokens.size := by
    by_contra hge
    rw [(h.label_eq hws (c := k) (by simp)).2, if_neg hge] at hq
    cases hq
  have hk : target.tests Token.isLiteral k.id = true := by
    rw [Document.tests_eq hu, hshowsu.isLiteral, hliteral]
  exact ⟨k.id, ⟨parent, Cell.ids xs, e.id, Cell.ids zs, hscope, hi,
    h.madeAt hws (by simp) he (by decide)⟩, hk, hold⟩

end Retargeted

/-- **Data statements are explicit.** No literal is the first token of its line, unless it stands in
parentheses. Each directive for data that has been made announces a literal of the source, and no
literal is announced twice. -/
theorem literals_announced {source : Text} {radix : Int} {d : Document}
    (h : read source radix = .ok d) :
    ∃ target, d.converted = .ok target ∧
      (∀ {parent : Option Id} {before after : List Id} {i : Id},
        target.Scope parent (before ++ i :: after) →
        target.openingOf parent ≠ "(" → target.tests Token.isLiteral i = true →
        ∃ j ∈ target.lineBefore before, target.tests (fun t => t.kind ≠ .whitespace) j = true) ∧
      (∀ {i : Id}, target.MadeAt i .identifier dataDirective →
        ∃ k, target.Announces i k ∧ target.tests Token.isLiteral k = true ∧
          d.tests Token.isLiteral k = true) ∧
      ∀ {i i' k : Id}, target.Announces i k → target.Announces i' k → i = i' := by
  obtain ⟨f, w, positions, hrecord⟩ := exists_record h
  obtain ⟨normal, cs, hnormal⟩ := hrecord.exists_normalized h
  obtain ⟨target, out, htarget, hout⟩ := hnormal.exists_retargeted
  refine ⟨target, hnormal.converted_eq.trans htarget,
    hout.exists_before_literal hnormal.role_eq, fun {i} hi => ?_,
    (hout.outStanding.wellFormed hout.outRoot).eq_of_announces⟩
  have hnew : normal.tokens.size ≤ i := by
    -- A token that was read has a position, and keeps it.
    by_contra hlt
    have hbefore := Array.getElem?_eq_getElem (not_le.mp hlt)
    obtain ⟨t, ht, -, -, hposition⟩ := hi
    obtain ⟨t', ht', hevolves⟩ := hout.evolves.tokens hbefore
    cases ht.symm.trans ht'
    obtain ⟨p, hp⟩ := hnormal.exists_position hrecord hbefore
    rw [hevolves.position, hp] at hposition
    cases hposition
  obtain ⟨k, hannounces, hliteral, hold⟩ := hout.exists_announces hnormal.role_eq hnew hi
  refine ⟨k, hannounces, hliteral, ?_⟩
  exact (Edit.evolves_normalize hnormal.edit).isLiteral (hnormal.size_eq ▸ hold)
    (hout.evolves.isLiteral hold hliteral)

/-- Literals at the start of a line, after a label and in a body, and one in parentheses. -/
theorem literals_announced_body :
    ∃ d, read "1\nA: \"B\",2\nIFN C,<\n3>\nLDA <4>\n" 8 = .ok d ∧
      ∃ target, d.converted = .ok target ∧
        (∀ {parent : Option Id} {before after : List Id} {i : Id},
          target.Scope parent (before ++ i :: after) →
          target.openingOf parent ≠ "(" → target.tests Token.isLiteral i = true →
          ∃ j ∈ target.lineBefore before, target.tests (fun t => t.kind ≠ .whitespace) j = true) ∧
        (∀ {i : Id}, target.MadeAt i .identifier dataDirective →
          ∃ k, target.Announces i k ∧ target.tests Token.isLiteral k = true ∧
            d.tests Token.isLiteral k = true) ∧
        ∀ {i i' k : Id}, target.Announces i k → target.Announces i' k → i = i' :=
  exists_eq_ok_and (by decide +kernel) literals_announced

end Macro10
