import Macro10.Proofs.Foretold
import Macro10.Proofs.Row.LineCount
import Macro10.Proofs.Source.Terminators

/-!
# Line terminators of the target

The target has the line terminators of the source, and two more for each body that can be reached in
it (`converted_terminators`). The bodies of the target can be told by the normal form
(`Standing.foretold`).
-/

namespace Macro10

open List
open Cell (ids listing_items pieces places)

variable {d normal : Document} {f : Forest} {cs : List Cell}

/-! ## The normal form -/

namespace Row

variable {p q : Piece}

theorem Settles.breaks_text (h : Settles p q) (hp : p.text.Breaks 0) : q.text.Breaks 0 := by
  rcases h.text with htext | ⟨-, htext⟩
  · rwa [htext]
  · have hall : ∀ t ∈ ["!=", "|", ""].map Text.ofString, ∀ s ∈ t, s.endsLine = false := by decide
    exact .of_not_endsLine (hall _ htext)

theorem Bounded.settled (h : Bounded p) (hq : Settles p q) : Bounded q := by
  have hbracket {t : Text} (c : Char) (hc : (Symbol.char c).endsLine = false) :
      Text.Breaks (if t.isEmpty then [] else [.char c]) 0 := by
    split
    · exact .nil
    · exact .of_not_endsLine (forall_mem_singleton.mpr hc)
  have hside {t u : Text} (ht : t.Breaks 0) (hu : u = t ∨ u = []) : u.Breaks 0 := by
    rcases hu with rfl | rfl
    · exact ht
    · exact .nil
  by_cases hkind : p.kind = .container
  · obtain ⟨hopening, hclosing⟩ := hq.brackets hkind
    exact ⟨hopening ▸ hbracket _ (by decide), hclosing ▸ hbracket _ (by decide), hq.role ▸ h.word⟩
  · exact ⟨hside h.opening (hq.opening hkind), hside h.closing (hq.closing hkind), hq.role ▸ h.word⟩

theorem Entire.settled (h : Entire p) (hq : Settles p q) : Level q ∧ Shut q := by
  have hbounded := h.level.toBounded.settled hq
  refine ⟨?_, fun hkind => ?_⟩
  · cases hline : p.isNewline with
    | false => exact .of_breaks hbounded (hq.breaks_text (h.level.breaks hline))
    | true =>
      have hkind : p.kind ≠ .operator := by
        intro hkind
        rw [Piece.isNewline_eq_false (by simp [hkind])] at hline
        cases hline
      refine ⟨hbounded, ?_⟩
      rw [hq.isNewline_eq, hq.text_eq hkind]
      exact h.level.text
  · have hgroup := hq.of_kind_eq hkind (by decide)
    obtain ⟨hopening, hclosing⟩ := hq.brackets hgroup
    obtain ⟨hopening', hclosing'⟩ := h.brackets hgroup
    rw [hopening'] at hopening
    rw [hclosing'] at hclosing
    exact ⟨_, _, hopening, hclosing, by decide, by decide⟩

end Row

theorem Normalized.level_and_shut
    (h : Normalized d f normal cs) (hentire : ∀ p ∈ Nest.listing f.items, Row.Entire p) :
    ∀ p ∈ Nest.listing (Cell.items (cs.map Cell.labelled)),
      p.label.isSome = true ∧ Row.Level p ∧ Row.Shut p := by
  intro q hq
  obtain ⟨l, p, hlabel, -, hp, hsettles⟩ := h.exists_settled hq
  exact ⟨by rw [hlabel]; rfl, (hentire p hp).settled hsettles⟩

theorem Normalized.lines_eq (h : Normalized d f normal cs) :
    Row.lines (Cell.items (cs.map Cell.labelled)) = Row.lines f.items := by
  have hsettles := Row.map_eq_of_settles Row.Settles.isNewline_eq
    (Row.settles_listing_normal f.items)
  rw [← h.items, listing_items, List.map_map] at hsettles
  have hcount := congrArg (List.countP id) hsettles
  rw [countP_map, countP_map] at hcount
  rw [Row.lines, Row.lines, listing_items, Cell.listing_labelled, List.map_map, countP_map]
  exact hcount

/-- The bodies of the target, counted by their labels. -/
theorem Retargeted.bodyCount_eq {target : Document} {out : List Cell}
    (h : Retargeted normal cs target out) :
    Row.bodyCount target.bodyOwner? (Cell.items out) = (places out).countP target.isBody := by
  rw [Row.bodyCount, listing_items, places, countP_map, countP_map]
  refine countP_congr fun v hv => ?_
  obtain ⟨t, children, ht, hshows⟩ := h.outStanding.exists_shows v hv
  have hlabel := Cell.label_of_traced h.traced h.standing.lt_size hv
  simp only [Function.comp_apply, Document.isBody, ht, Option.any_some, hshows.kind, hlabel,
    Bool.and_eq_true, decide_eq_true_eq]
  refine and_congr_right fun hkind => ?_
  by_cases hlt : v.1 < normal.tokens.size
  · rw [if_pos hlt, Option.bind_some, Document.isSome_bodyOwner?]
  · -- What has been made is no group.
    obtain ⟨t₀, hfresh, hsame⟩ := h.evolves.fresh (not_lt.mp hlt) ht
    exact absurd (hsame.kind_eq (hshows.kind.trans hkind) (by decide)) hfresh.kind

/-! ## Sources -/

/-- A source without open groups spells as many line terminators as it has. -/
theorem Record.breaks {source : Text} {radix : Int} {w : List Visit}
    {positions : List Position} (h : Record source radix d f w positions)
    (hpaired : source.Paired) (hclosed : ∀ g ∈ d.diagnostics, g.problem ≠ .neverClosed) :
    source.Breaks (Row.lines f.items) ∧ ∀ p ∈ Nest.listing f.items, Row.Entire p := by
  have htext := Text.flatMap_source_stretches source
  have hpositions : positions = [] := by
    by_contra hne
    obtain ⟨p, hp⟩ := exists_mem_of_ne_nil _ hne
    refine hclosed ⟨.neverClosed, p, .warning, 1⟩ ?_ rfl
    rw [h.diagnostics]
    exact mem_append_right _ (mem_map.mpr ⟨p, mem_reverse.mpr hp, rfl⟩)
  have hreturn : ∀ t, .terminator t ∈ w.map Visit.stretch → t ≠ .carriageReturn := by
    intro t ht
    rw [h.stretches] at ht
    exact Stretch.Tidy.ne_carriageReturn
      (Line.tidy_allStretches none (Line.apart_split source)) (htext.symm ▸ hpaired) ht
  have hspelled := h.spelled
  rw [hpositions] at hspelled
  refine ⟨?_, fun p hp => (hspelled.spells p hp).entire h.single hreturn⟩
  have hall : ∀ v ∈ w, v.stretch.source.Breaks v.stretch.ends := by
    intro v hv
    by_cases hs : ∀ t, v.stretch ≠ .terminator t
    · rw [Stretch.ends_of_ne hs]
      exact .of_not_endsLine ((h.single v hv).within hs)
    · obtain ⟨e, he⟩ := not_forall.mp hs
      have he := not_not.mp he
      rw [he]
      exact Terminator.breaks (hreturn e (he ▸ mem_map_of_mem hv))
  have hbreaks := Text.Breaks.flatMap hall
  rwa [← flatMap_map, h.stretches, htext, ← h.spelled.lines_eq h.single] at hbreaks

/-- **The target has the line terminators of the source, and two more for each body.** In the
source, a carriage return must stand before a line feed, and no group may be left open. -/
theorem converted_terminators {source : Text} {radix : Int} {d : Document}
    (h : read source radix = .ok d) (hpaired : source.Paired)
    (hclosed : ∀ g ∈ d.diagnostics, g.problem ≠ .neverClosed) :
    ∃ target text parts, convertDocument source radix = .ok target ∧ target.render = .ok text ∧
      target.Walk target.root parts ∧ (parts.filterMap Part.token?).Nodup ∧
      text.terminators =
        source.terminators + 2 * (parts.filterMap Part.token?).countP target.isBody ∧
      source.terminators ≤ text.terminators := by
  obtain ⟨f, w, positions, hrecord⟩ := exists_record h
  obtain ⟨normal, cs, hnormal⟩ := hrecord.exists_normalized h
  obtain ⟨target, out, htarget, hretargeted⟩ := hnormal.exists_retargeted
  obtain ⟨hsource, hentire⟩ := hrecord.breaks hpaired hclosed
  have hnewline : normal.newline.Breaks 1 := by
    obtain ⟨r, -, -, rfl⟩ := exists_forest_of_read h
    rw [hnormal.newline_eq]
    exact Line.breaks_newline _
  have hkept := Row.kept_retarget hnewline hretargeted.tame
    (hretargeted.standing.foretold hretargeted.evolves) (hnormal.level_and_shut hentire) []
  rw [← hretargeted.items, Row.Kept, hnormal.lines_eq, hretargeted.bodyCount_eq,
    ← Cell.filterMap_token?_parts] at hkept
  refine ⟨target, _, Cell.parts out, ?_, hretargeted.outStanding.render_eq hretargeted.outRoot,
    hretargeted.outRoot ▸ hretargeted.outStanding.walk, ?_, ?_, ?_⟩
  · rw [convertDocument, h]
    exact hnormal.converted_eq.trans htarget
  · rw [Cell.filterMap_token?_parts]
    exact hretargeted.outStanding.distinct
  · rw [hkept.terminators_eq, hsource.terminators_eq]
  · rw [hkept.terminators_eq, hsource.terminators_eq]
    exact Nat.le_add_right _ _

/-- A body, and a message about a group with a line break in it. -/
theorem converted_terminators_message :
    ∃ d, read "IFN A,<B>\r\nPRINTX C<D\r\nE>\r\n" 8 = .ok d ∧
      Text.Paired "IFN A,<B>\r\nPRINTX C<D\r\nE>\r\n" ∧
      (∀ g ∈ d.diagnostics, g.problem ≠ .neverClosed) ∧
      ∃ target text parts,
        convertDocument "IFN A,<B>\r\nPRINTX C<D\r\nE>\r\n" 8 = .ok target ∧
        target.render = .ok text ∧ target.Walk target.root parts ∧
        (parts.filterMap Part.token?).Nodup ∧
        text.terminators =
          Text.terminators "IFN A,<B>\r\nPRINTX C<D\r\nE>\r\n" +
            2 * (parts.filterMap Part.token?).countP target.isBody ∧
        Text.terminators "IFN A,<B>\r\nPRINTX C<D\r\nE>\r\n" ≤ text.terminators := by
  have hpaired : Text.Paired "IFN A,<B>\r\nPRINTX C<D\r\nE>\r\n" := by decide
  obtain ⟨d, hd, hclosed⟩ := exists_eq_ok_of_any
    (x := read "IFN A,<B>\r\nPRINTX C<D\r\nE>\r\n" 8)
    (p := fun d => decide (∀ g ∈ d.diagnostics, g.problem ≠ .neverClosed)) (by decide +kernel)
  exact ⟨d, hd, hpaired, of_decide_eq_true hclosed,
    converted_terminators hd hpaired (of_decide_eq_true hclosed)⟩

end Macro10
