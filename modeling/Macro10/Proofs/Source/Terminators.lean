import Macro10.Proofs.Brackets.Groups
import Macro10.Proofs.Row.Level
import Macro10.Proofs.Source.Extent

/-!
# Line terminators of a source

Each terminator of a source is a stretch of its own, and no other stretch ends a line (`Single`); no
other piece breaks one (`Spells.breaks_or`). So the pieces have as many line terminators as the
source (`Spelled.lines_eq`).
-/

namespace Macro10

open List

variable {s : Stretch} {xs : List Stretch} {t : Terminator} {f : Forest} {w : List Visit}
  {positions : List Position} {mark : Bool} {p : Piece}

theorem Symbol.endsLine_of {p : Symbol → Bool} (hfeed : p (.char '\n') = false)
    (hreturn : p (.char '\r') = false) {s : Symbol} (hs : p s = true) : s.endsLine = false := by
  refine endsLine_eq_false.mpr ⟨?_, ?_⟩
  · rintro rfl
    cases hfeed.symm.trans hs
  · rintro rfl
    cases hreturn.symm.trans hs

theorem Terminator.breaks {e : Terminator} (h : e ≠ .carriageReturn) : e.text.Breaks 1 := by
  cases e with
  | carriageReturn => exact absurd rfl h
  | lineFeed | both => exact ⟨by decide, by decide⟩

theorem Line.breaks_newline (lines : List Line) : (newline lines).Breaks 1 := by
  induction lines with
  | nil => exact Terminator.breaks (e := .lineFeed) (by decide)
  | cons line lines ih =>
    rw [newline_cons]
    split
    · exact Terminator.breaks (by decide)
    · exact Terminator.breaks (by decide)
    · exact ih

namespace Stretch

/-- The number of line terminators in the stretch. -/
def ends : Stretch → Nat
  | terminator _ => 1
  | _ => 0

theorem ends_of_ne (h : ∀ t, s ≠ terminator t) : s.ends = 0 := by
  cases s with
  | terminator t => exact absurd rfl (h t)
  | lexeme | remark | setRadix | opening | closing | unended => rfl

theorem Tidy.endsLine_of_mem (h : Tidy xs) (hs : s ∈ xs)
    (hne : ∀ t, s ≠ terminator t) : ∀ x ∈ s.source, x.endsLine = false := by
  obtain ⟨ys, zs, rfl⟩ := append_of_mem hs
  exact h.of_append.endsLine_eq_false hne

/-- No terminator is a carriage return that stands alone. -/
theorem Tidy.ne_carriageReturn (h : Tidy xs) (hpaired : Text.Paired (xs.flatMap source))
    (ht : terminator t ∈ xs) : t ≠ .carriageReturn := by
  obtain ⟨ys, zs, rfl⟩ := append_of_mem ht
  intro hreturn
  rw [flatMap_append, flatMap_cons, hreturn] at hpaired
  exact h.of_append.1 hreturn (hpaired.right.1 rfl)

/-- What is known of a stretch of a source, whatever stands around it. -/
structure Single (s : Stretch) : Prop where
  proper : s.Proper
  within : (∀ t, s ≠ terminator t) → ∀ x ∈ s.source, x.endsLine = false

end Stretch

theorem Record.single {source : Text} {radix : Int} {d : Document}
    (h : Record source radix d f w positions) :
    ∀ v ∈ w, v.stretch.Single := fun v hv =>
  have hmem : v.stretch ∈ source.stretches := h.stretches ▸ mem_map_of_mem hv
  ⟨Text.proper_of_mem_stretches hmem,
    Stretch.Tidy.endsLine_of_mem (Line.tidy_allStretches none (Line.apart_split source)) hmem⟩

/-! ## Pieces -/

theorem Text.breaks_of_isNumeralSymbol {t : Text}
    (h : ∀ s ∈ t, Numeral.isNumeralSymbol s = true) : t.Breaks 0 :=
  .of_not_endsLine fun s hs => Symbol.endsLine_of (by decide) (by decide) (h s hs)

theorem Visit.Reads.breaks_or {v : Visit} {kind : Kind} {text : Text}
    (h : v.Reads mark kind text) (hsingle : v.stretch.Single) :
    text.Breaks 0 ∧ v.stretch.ends = 0 ∨
      ∃ t, v.stretch = .terminator t ∧ kind = .whitespace ∧ text = t.text := by
  have hshows := h.shows
  obtain ⟨hproper, hwithin⟩ := hsingle
  generalize v.stretch = s at hshows hproper hwithin
  have hsource (hne : ∀ t, s ≠ .terminator t) : s.source.Breaks 0 :=
    .of_not_endsLine (hwithin hne)
  cases hshows with
  | lexeme l =>
    refine .inl ⟨?_, rfl⟩
    cases l with
    | digits => exact Text.breaks_of_isNumeralSymbol (Numeral.IsRun.isNumeralSymbol hproper)
    | comment | string | blank | operator | name => exact hsource (by simp)
  | numeral hjudge =>
    exact .inl ⟨Text.breaks_of_isNumeralSymbol (Numeral.IsRun.of_judgeNumber hproper hjudge).2, rfl⟩
  | terminator t => exact .inr ⟨t, rfl, rfl, rfl⟩
  | remark | setRadix =>
    have hmark : Text.Breaks [.char ';'] 0 := .of_not_endsLine (by decide)
    exact .inl ⟨hmark.append (hsource (by simp)), rfl⟩

theorem Piece.isNewline_of_text (hkind : p.kind = .whitespace)
    (htext : p.text = t.text) : p.isNewline = true := by
  simp only [isNewline, Token.isNewline, token, hkind, htext]
  cases t <;> decide

namespace Row

/-- How a piece looks that was read, in a source that leaves no group open. -/
structure Entire (p : Piece) : Prop where
  level : Level p
  brackets : p.kind = .container → p.opening = [.char '<'] ∧ p.closing = [.char '>']

end Row

namespace Forest

theorem Spells.bounded (h : Spells w positions p) : Row.Bounded p := by
  cases h with
  | leaf | mark | numeral => exact Row.bounded_made _ _
  | @group closed =>
    have hopening : Text.Breaks [.char '<'] 0 := .of_not_endsLine (by decide)
    have hclosing : Text.Breaks (if closed then [.char '>'] else []) 0 := by
      cases closed <;> exact .of_not_endsLine (by decide)
    exact ⟨hopening, hclosing, fun _ hrole => by cases hrole⟩

/-- A piece that was read is within a line, or it is a terminator of the source. -/
theorem Spells.breaks_or (h : Spells w positions p) (hw : ∀ v ∈ w, v.stretch.Single) :
    p.text.Breaks 0 ∨
      ∃ t, .terminator t ∈ w.map Visit.stretch ∧ p.kind = .whitespace ∧ p.text = t.text := by
  cases h with
  | leaf hv h =>
    rcases h.breaks_or (hw _ hv) with ⟨htext, -⟩ | ⟨t, hs, hkind, htext⟩
    · exact .inl htext
    · exact .inr ⟨t, hs ▸ mem_map_of_mem hv, hkind, htext⟩
  | mark | group => exact .inl .nil
  | numeral h => exact .inl (Text.breaks_of_isNumeralSymbol h)

theorem Spells.entire (h : Spells w [] p) (hw : ∀ v ∈ w, v.stretch.Single)
    (hreturn : ∀ t, .terminator t ∈ w.map Visit.stretch → t ≠ .carriageReturn) : Row.Entire p := by
  refine ⟨?_, fun hkind => ?_⟩
  · rcases h.breaks_or hw with htext | ⟨t, ht, hkind, htext⟩
    · exact .of_breaks h.bounded htext
    · refine ⟨h.bounded, ?_⟩
      rw [Piece.isNewline_of_text hkind htext, htext]
      exact Terminator.breaks (hreturn t ht)
  · cases h with
    | leaf _ h => exact absurd hkind h.bracket?_eq_none.2
    | mark | numeral => cases hkind
    | @group closed h =>
      cases closed with
      | true => exact ⟨rfl, rfl⟩
      | false => exact absurd rfl (h rfl)

/-- **The pieces that are read have the line terminators of the source.** -/
theorem Spelled.lines_eq {top : Bool} (h : Spelled top mark f w positions)
    (hw : ∀ v ∈ w, v.stretch.Single) : Row.lines f.items = (w.map fun v => v.stretch.ends).sum := by
  have hsilent {v : Visit} {top : Bool} (hv : v.Silent top) : v.stretch.ends = 0 := by
    rcases hv with ⟨marker, hv, -⟩ | ⟨-, hv, -⟩
    · rw [hv]
      rfl
    · rw [hv]
      rfl
  induction h with
  | nil => rfl
  | silent hv h ih =>
    rw [map_cons, sum_cons, hsilent hv, Nat.zero_add]
    exact ih (forall_mem_cons.mp hw).2
  | @leaf top mark f w positions v kind text hv h ih =>
    obtain ⟨hfirst, hrest⟩ := forall_mem_cons.mp hw
    have hline : (if ({ kind, text } : Piece).isNewline then 1 else 0) = v.stretch.ends := by
      rcases hv.breaks_or hfirst with ⟨htext, hends⟩ | ⟨t, hs, rfl, rfl⟩
      · rw [Piece.isNewline_of_breaks htext, hends]
        rfl
      · rw [Piece.isNewline_of_text rfl rfl, hs]
        rfl
    rw [items, Row.lines_cons, Nest.value_node, Nest.inside_node, hline, ih hrest]
    rfl
  | @pair top mark f w w' positions m v new hm hsilents hv h ih =>
    obtain ⟨text, radix, hname, hjudge, -⟩ := hv
    have hlines := ih (forall_mem_cons.mp (forall_mem_append.mp (forall_mem_cons.mp hw).2).2).2
    have hline : ({ kind := .number, text := new } : Piece).isNewline = false :=
      Piece.isNewline_eq_false (by simp)
    have hblank : ({ kind := .whitespace, text := [] } : Piece).isNewline = false := rfl
    have hends : (w'.map fun v => v.stretch.ends).sum = 0 := by
      rw [map_congr_left fun u hu => hsilent (hsilents u hu)]
      simp
    have hmark : m.stretch.ends = 0 := by rw [hm.1]; rfl
    have hnumber : v.stretch.ends = 0 := by rw [hname]; rfl
    simp [items, Row.lines_cons, hlines, hline, hblank, hends, hmark, hnumber]
  | @group top mark f inside w w' positions v e hv hinside he h ihinside ih =>
    obtain ⟨hin, hout⟩ := forall_mem_append.mp (forall_mem_cons.mp hw).2
    have hlines := ihinside hin
    have hlines' := ih (forall_mem_cons.mp hout).2
    rw [items, Row.lines_cons]
    simp [hv.1, he.1, hlines, hlines', Stretch.ends, Piece.isNewline_eq_false]
  | unclosed hv hinside ih =>
    have hlines := ih (forall_mem_cons.mp hw).2
    rw [items, Row.lines_cons]
    simp [items, hv.1, hlines, Stretch.ends, Piece.isNewline_eq_false]

end Forest

end Macro10
