import Macro10.Editor
import Macro10.Proofs.Brackets.Loose
import Macro10.Proofs.Source.Extent
import Macro10.Proofs.Source.Lockstep

/-!
# Diagnostics point at the source

All the columns that a diagnostic tells lie in its line of the source (`Diagnostic.PointsAt`); only
a comment block that does not end may be reported right after the end of a line. What is reported
while reading stands at a visit (`Record.exists_pointsAt`), and what is reported later complains
about a word.
-/

namespace Macro10

open List
open Text (ofInt ofString)

variable {top mark : Bool} {f : Forest} {w : List Visit} {source text : Text} {radix : Int}
  {d : Document} {g : Diagnostic} {positions : List Position}

variable {v : Visit}

/-- The problem is a comment block that does not end. -/
def Problem.isUnended : Problem → Bool
  | blockNeverClosed _ => true
  | _ => false

namespace Diagnostic

/-- The diagnostic is about columns of `line`, which has its number in the source. A comment block
that does not end is reported in one column, which may be the one after the line. -/
structure PointsAt (g : Diagnostic) (source : Text) (line : Line) : Prop where
  line_pos : 1 ≤ g.position.line
  line_le : g.position.line ≤ (Line.split source).length
  found : (Line.split source)[(g.position.line - 1).toNat]? = some line
  column_pos : 1 ≤ g.position.column
  length_pos : 1 ≤ g.length
  within : if g.problem.isUnended then
      g.length = 1 ∧ g.position.column ≤ line.content.length + 1
    else g.position.column + g.length - 1 ≤ line.content.length

/-- The lines of a report above the source line. -/
def heading (g : Diagnostic) (fileName : Text) : Text :=
  let number := ofInt g.position.line
  let gutter := repeated ' ' (number.length + 1)
  g.severity.word ++ ": " ++ g.message ++ "\n" ++
    gutter ++ "--> " ++ fileName ++ ":" ++ number ++
      ":" ++ ofInt g.position.column ++ "\n" ++
    gutter ++ "|" ++ "\n"

namespace PointsAt

variable {line : Line}

theorem of_getElem? {n : Nat} (hline : (Line.split source)[n - 1]? = some line) (hn : 1 ≤ n)
    (hposition : g.position.line = n) (hcolumn : 1 ≤ g.position.column) (hlength : 1 ≤ g.length)
    (hwithin : if g.problem.isUnended then
        g.length = 1 ∧ g.position.column ≤ line.content.length + 1
      else g.position.column + g.length - 1 ≤ line.content.length) :
    g.PointsAt source line where
  line_pos := by omega
  line_le := by
    have hlt := (List.getElem?_eq_some_iff.mp hline).1
    omega
  found := by rwa [hposition, show ((n : Int) - 1).toNat = n - 1 by omega]
  column_pos := hcolumn
  length_pos := hlength
  within := hwithin

theorem sourceLine_eq (h : g.PointsAt source line) :
    sourceLine (Line.split source) g.position.line = line.content := by
  rw [sourceLine, if_pos h.line_pos, h.found]
  rfl

theorem underlineLength_eq (h : g.PointsAt source line) :
    g.underlineLength line.content = g.length := by
  have hlength := h.length_pos
  have hwithin := h.within
  rw [underlineLength]
  split at hwithin <;> omega

/-- The report shows the line, and a caret below each of the columns. -/
theorem report_eq (h : g.PointsAt source line) (fileName : Text) :
    g.report source fileName = g.heading fileName ++ ofInt g.position.line ++
      " | " ++ line.content ++ "\n" ++
      repeated ' ' ((ofInt g.position.line).length + 1) ++ "|" ++
      " " ++ repeated ' ' (g.position.column - 1) ++ repeated '^' g.length := by
  unfold report heading
  dsimp only
  rw [h.sourceLine_eq, h.underlineLength_eq]

end PointsAt

end Diagnostic

/-! ## While reading -/

namespace Text

theorem trimEnd_ne_nil_of_words {t : Text} (h : words t ≠ []) : trimEnd t ≠ [] := by
  intro htrim
  refine h ?_
  rw [trimEnd, reverse_eq_nil_iff, dropWhile_eq_nil_iff] at htrim
  have hspace : ∀ s ∈ t, s.isSpace = true := fun s hs => htrim s (mem_reverse.mpr hs)
  simpa using words_append_of_isSpace hspace []

theorem length_trimEnd_le (t : Text) : (trimEnd t).length ≤ t.length := by
  have hlength : (t.reverse.dropWhile Symbol.isSpace).length ≤ t.reverse.length :=
    (dropWhile_suffix _).length_le
  rw [length_reverse] at hlength
  rwa [trimEnd, length_reverse]

end Text

theorem LineClass.words_ne_nil_of_setRadix {segment : Segment} {operand : Text}
    (h : ofSegment segment = .setRadix operand) : Text.words segment.text ≠ [] := by
  intro hwords
  rw [ofSegment, hwords] at h
  split at h <;> cases h

namespace Record

variable {kind : Kind}

section

variable (h : Record source radix d f w positions) (hv : v ∈ w)
include h hv

/-- A diagnostic within the columns of a visit, or before them in the same line. -/
theorem exists_pointsAt_of_mem (hne : ∀ t, v.stretch ≠ .terminator t)
    (hline : g.position.line = v.line) (hcolumn : 1 ≤ g.position.column) (hlength : 1 ≤ g.length)
    (hends : g.position.column + g.length ≤ v.column + v.stretch.source.length)
    (hproblem : g.problem.isUnended = false) : ∃ line, g.PointsAt source line := by
  obtain ⟨line, pre, post, hfound, hpos, hcontent, hcolumn'⟩ :=
    h.route.exists_line h.stretches hv hne
  refine ⟨line, .of_getElem? hfound hpos hline hcolumn hlength ?_⟩
  rw [hproblem, if_neg (by decide), hcontent, length_append, length_append]
  omega

theorem column_pos (hne : ∀ t, v.stretch ≠ .terminator t) : 1 ≤ v.column := by
  obtain ⟨line, pre, post, -, -, -, hcolumn⟩ := h.route.exists_line h.stretches hv hne
  omega

/-- A diagnostic at the start of a visit, no longer than its symbols. -/
theorem exists_pointsAt_start
    (hne : ∀ t, v.stretch ≠ .terminator t) (hposition : g.position = v.position)
    (hlength : 1 ≤ g.length) (hends : g.length ≤ v.stretch.source.length)
    (hproblem : g.problem.isUnended = false) : ∃ line, g.PointsAt source line := by
  have hcolumn := h.column_pos hv hne
  have hline : g.position.line = v.line ∧ g.position.column = v.column := by
    rw [hposition]
    exact ⟨rfl, rfl⟩
  exact h.exists_pointsAt_of_mem hv hne hline.1 (by omega) hlength (by omega) hproblem

theorem proper_of_mem : v.stretch.Proper :=
  Text.proper_of_mem_stretches (h.stretches ▸ mem_map_of_mem hv)

/-- What is reported at a visit that stands for no token. -/
theorem exists_pointsAt_silent
    (hsilent : v.Silent top) (hg : v.report = some g) : ∃ line, g.PointsAt source line := by
  rcases hsilent with ⟨marker, hs, hreport⟩ | ⟨-, hs, hreport⟩
  · rw [hs] at hreport
    cases hg.symm.trans hreport
    obtain ⟨line, pre, post, hfound, hpos, hcontent, hcolumn⟩ :=
      h.route.exists_line h.stretches hv (by simp [hs])
    refine ⟨line, .of_getElem? hfound hpos rfl ?_ (Int.le_refl _) ⟨rfl, ?_⟩⟩
    · show (1 : Int) ≤ v.column
      omega
    · show (v.column : Int) ≤ line.content.length + 1
      rw [hcontent, length_append, length_append]
      omega
  · cases hg.symm.trans hreport
    exact h.exists_pointsAt_start hv (by simp [hs]) rfl (Int.le_refl _)
      (by rw [hs]; exact Int.le_refl _) rfl

/-- What is reported at a visit that stands for a token of its own. -/
theorem exists_pointsAt_plain (hplain : v.stretch.plain? = some (kind, text))
    (hg : v.stretch.notice? v.position = some g) : ∃ line, g.PointsAt source line := by
  have hproper := h.proper_of_mem hv
  cases hs : v.stretch with
  | terminator | remark | opening | closing => rw [hs] at hg; cases hg
  | unended => rw [hs] at hplain; cases hplain
  | setRadix content operand =>
    rw [hs] at hg hproper
    simp only [Stretch.notice?] at hg
    split at hg
    · split at hg
      · cases hg
      · cases hg
        have hlength := Text.length_trimEnd_le content
        have hne := length_pos_of_ne_nil
          (Text.trimEnd_ne_nil_of_words (LineClass.words_ne_nil_of_setRadix hproper))
        have hcolumn := h.column_pos hv (by simp [hs])
        refine h.exists_pointsAt_of_mem hv (by simp [hs]) rfl (Int.le_refl _) ?_ ?_ rfl
        · exact Int.ofNat_le.mpr hne
        · simp only [hs, Stretch.source]
          omega
    · cases hg
  | lexeme l =>
    cases l with
    | comment | blank | operator | digits | name => rw [hs] at hg; cases hg
    | string body closed =>
      rw [hs] at hg hproper
      cases closed with
      | true => cases hg
      | false =>
        cases hg
        obtain ⟨rest, -, rfl⟩ := hproper
        exact h.exists_pointsAt_start hv (by simp [hs]) rfl (Int.le_refl _)
          (Int.ofNat_le.mpr (by rw [hs]; exact Nat.le_add_left 1 _)) rfl

/-- What is reported where a token is read. -/
theorem exists_pointsAt_reads (hreads : v.Reads mark kind text)
    (hg : v.report = some g) : ∃ line, g.PointsAt source line := by
  have hproper := h.proper_of_mem hv
  cases hreads with
  | plain hplain hreport => exact h.exists_pointsAt_plain hv hplain (hreport ▸ hg)
  | converted hs hbase hjudge hreport => rw [hreport] at hg; cases hg
  | name hs hjudge hreport => rw [hreport] at hg; cases hg
  | @refused digits point base problem hs hbase hjudge hreport =>
    cases hg.symm.trans hreport
    rw [hs] at hproper
    have hpos := length_pos_of_ne_nil hproper.1
    have hproblem : problem = .badNumeral text base := by
      rcases hproper.judgeNumber_cases hjudge with ⟨new, hverdict, -⟩ | ⟨hverdict, -⟩
      · cases hverdict
      · exact Numeral.Verdict.refused.inj hverdict
    refine h.exists_pointsAt_start hv (by simp [hs]) rfl (Int.ofNat_le.mpr hpos) ?_
      (by rw [hproblem]; rfl)
    simp only [hs, Stretch.source, Lexeme.source]
    split
    · rw [length_append]
      omega
    · exact Int.le_refl _
  | @refusedMark name problem hs hmark hjudge hreport =>
    cases hg.symm.trans hreport
    rw [hs] at hproper
    obtain ⟨s, rest, rfl, -⟩ := hproper
    obtain ⟨base, hjudge⟩ := hjudge
    have hproblem : ∃ base, problem = .badMarkedNumeral (s :: rest) base := by
      rcases Numeral.judgeMarked_cases hjudge with ⟨hverdict, -⟩ | ⟨base, hverdict, -⟩ | hverdict
      · cases hverdict
      · exact ⟨base, Numeral.Verdict.refusedMark.inj hverdict⟩
      · simp at hverdict
    obtain ⟨base, rfl⟩ := hproblem
    exact h.exists_pointsAt_start hv (by simp [hs]) rfl
      (Int.ofNat_le.mpr (Nat.le_add_left 1 _)) (by rw [hs]; exact Int.le_refl _) rfl

end

end Record

theorem Forest.Spelled.exists_opening (h : Spelled top mark f w positions) :
    ∀ p ∈ positions, ∃ v ∈ w, v.stretch = .opening ∧ v.position = p := by
  induction h with
  | nil => exact forall_mem_nil _
  | silent _ _ ih | leaf _ _ ih =>
    intro p hp
    obtain ⟨v, hv, hopening⟩ := ih p hp
    exact ⟨v, mem_cons_of_mem _ hv, hopening⟩
  | pair _ _ _ _ ih =>
    intro p hp
    obtain ⟨v, hv, hopening⟩ := ih p hp
    exact ⟨v, by simp [hv], hopening⟩
  | group _ _ _ _ _ ih =>
    intro p hp
    obtain ⟨v, hv, hopening⟩ := ih p hp
    exact ⟨v, by simp [hv], hopening⟩
  | unclosed hv _ ih =>
    refine forall_mem_cons.mpr ⟨⟨_, mem_cons_self, hv.1, rfl⟩, fun p hp => ?_⟩
    obtain ⟨v, hv, hopening⟩ := ih p hp
    exact ⟨v, mem_cons_of_mem _ hv, hopening⟩

/-- **What is reported while reading points at the source.** -/
theorem Record.exists_pointsAt (h : Record source radix d f w positions) :
    ∀ g ∈ d.diagnostics, ∃ line, g.PointsAt source line := by
  intro g hg
  rw [h.diagnostics] at hg
  rcases mem_append.mp hg with hg | hg
  · obtain ⟨v, hv, hreport⟩ := mem_filterMap.mp hg
    rcases h.spelled.mem_cases v hv with ⟨top, hsilent⟩ | ⟨mark, kind, text, hreads⟩ | hnone
    · exact h.exists_pointsAt_silent hv hsilent hreport
    · exact h.exists_pointsAt_reads hv hreads hreport
    · cases hnone.symm.trans hreport
  · obtain ⟨p, hp, rfl⟩ := mem_map.mp hg
    obtain ⟨v, hv, hs, rfl⟩ := h.spelled.exists_opening p (mem_reverse.mp hp)
    exact h.exists_pointsAt_start hv (by simp [hs]) rfl (Int.le_refl _)
      (by rw [hs]; exact Int.le_refl _) rfl

/-! ## Words -/

theorem Visit.Reads.stretch_eq_name (h : v.Reads mark .identifier text) :
    v.stretch = .lexeme (.name text) := by
  cases h with
  | name hs | refusedMark hs => exact hs
  | plain hplain =>
    cases hs : v.stretch with
    | lexeme l => cases l <;> simp [hs, Stretch.plain?] at hplain
    | terminator | remark | setRadix | opening | closing | unended =>
      simp [hs, Stretch.plain?] at hplain

theorem Forest.Spelled.exists_name
    (h : Spelled top mark f w positions) (parent : Option Id) (first : Id) (prev : Option Id) :
    ∀ t ∈ f.tokens parent first prev, t.kind = .identifier →
      ∃ v ∈ w, v.stretch = .lexeme (.name t.words) ∧ t.position = some v.position := by
  induction h generalizing parent first prev with
  | nil => exact forall_mem_nil _
  | silent _ _ ih =>
    intro t ht hkind
    obtain ⟨v, hv, hname⟩ := ih _ _ _ t ht hkind
    exact ⟨v, mem_cons_of_mem _ hv, hname⟩
  | leaf hv _ ih =>
    refine forall_mem_cons.mpr ⟨?_, fun t ht hkind => ?_⟩
    · rintro rfl
      exact ⟨_, mem_cons_self, hv.stretch_eq_name, rfl⟩
    · obtain ⟨v, hv, hname⟩ := ih _ _ _ t ht hkind
      exact ⟨v, mem_cons_of_mem _ hv, hname⟩
  | pair _ _ _ _ ih =>
    refine forall_mem_cons.mpr ⟨nofun, forall_mem_cons.mpr ⟨nofun, fun t ht hkind => ?_⟩⟩
    obtain ⟨v, hv, hname⟩ := ih _ _ _ t ht hkind
    exact ⟨v, by simp [hv], hname⟩
  | group _ _ _ _ ihinside ih =>
    refine forall_mem_cons.mpr ⟨nofun, forall_mem_append.mpr
      ⟨fun t ht hkind => ?_, fun t ht hkind => ?_⟩⟩
    · obtain ⟨v, hv, hname⟩ := ihinside _ _ _ t ht hkind
      exact ⟨v, by simp [hv], hname⟩
    · obtain ⟨v, hv, hname⟩ := ih _ _ _ t ht hkind
      exact ⟨v, by simp [hv], hname⟩
  | unclosed _ _ ih =>
    refine forall_mem_cons.mpr ⟨nofun, forall_mem_append.mpr
      ⟨fun t ht hkind => ?_, forall_mem_nil _⟩⟩
    obtain ⟨v, hv, hname⟩ := ih _ _ _ t ht hkind
    exact ⟨v, mem_cons_of_mem _ hv, hname⟩

/-- **A complaint about a word of a source points at it.** -/
theorem Record.exists_pointsAt_complaint
    (h : Record source radix d f w positions) {i : Id} {t : Token}
    (ht : d.tokens[i]? = some t) (hg : g.Complains t) : ∃ line, g.PointsAt source line := by
  have hmem : t ∈ f.tokens none 0 none := by
    rw [h.tokens_eq, getElem?_toArray] at ht
    exact mem_of_getElem? ht
  obtain ⟨v, hv, hs, hposition⟩ := h.spelled.exists_name none 0 none t hmem hg.kind
  have hproper := h.proper_of_mem hv
  rw [hs] at hproper
  obtain ⟨s, rest, hwords, -⟩ := hproper
  refine h.exists_pointsAt_start hv (by simp [hs]) ?_ ?_ ?_ ?_
  · rw [hg.position, hposition]
    rfl
  · rw [hg.length_eq, hwords]
    exact Int.ofNat_le.mpr (Nat.le_add_left 1 _)
  · rw [hg.length_eq, hs]
    exact Int.le_refl _
  · rcases hg.problem with ⟨-, hproblem, -⟩ | ⟨-, hproblem, -⟩ <;> rw [hproblem] <;> rfl

/-! ## Conversion -/

/-- **Every diagnostic of a conversion points at the source.** Its report shows the line that has
its number, with a caret below each of the columns that it is about, and an editor gets the same
columns of the same line, counted from zero. -/
theorem diagnostics_point_at_source {source : Text} {radix : Int} {d : Document}
    (h : convertDocument source radix = .ok d) :
    (∀ g ∈ d.diagnostics, ∃ line, g.PointsAt source line ∧
      (∀ fileName, g.report source fileName = g.heading fileName ++
        Text.ofInt g.position.line ++ " | " ++ line.content ++ "\n" ++
        Diagnostic.repeated ' ' ((Text.ofInt g.position.line).length + 1) ++
        "|" ++ " " ++
        Diagnostic.repeated ' ' (g.position.column - 1) ++ Diagnostic.repeated '^' g.length) ∧
      (Editor.Notice.ofDiagnostic g).start = ⟨g.position.line - 1, g.position.column - 1⟩ ∧
      (Editor.Notice.ofDiagnostic g).stop =
        ⟨g.position.line - 1, g.position.column - 1 + g.length⟩) ∧
    (radix = Numeral.defaultRadix →
      Editor.notices source = .ok (d.diagnostics.map Editor.Notice.ofDiagnostic)) := by
  refine ⟨fun g hg => ?_, ?_⟩
  · obtain ⟨d₀, hread, hconverted⟩ := bind_eq_ok.mp h
    obtain ⟨normal, hnormal, htarget⟩ := bind_eq_ok.mp hconverted
    obtain ⟨f, w, positions, hrecord⟩ := exists_record hread
    have hreports := (Edit.evolves_normalize hnormal).reports_trans
      (Retarget.evolves_retarget htarget)
    have hpoints : ∃ line, g.PointsAt source line := by
      rcases hreports g hg with hg | ⟨i, t, ht, hcomplains⟩
      · exact hrecord.exists_pointsAt g hg
      · exact hrecord.exists_pointsAt_complaint ht hcomplains
    obtain ⟨line, hline⟩ := hpoints
    exact ⟨line, hline, hline.report_eq, rfl, rfl⟩
  · rintro rfl
    rw [Editor.notices, h]
    rfl

/-- Seven diagnostics: a bad numeral, a string that does not end, a radix that is none, two words
that nothing follows, a bracket that closes nothing, and a comment block that does not end, which is
reported after the last symbol of the source. -/
theorem diagnostics_point_at_source_seven :
    ∃ d, convertDocument
        "9 \"A\r\nRADIX Q\nLDAI ;B\r printx >\nCOMMENT *" 8 = .ok d ∧
      d.diagnostics.length = 7 ∧
      (∀ g ∈ d.diagnostics, ∃ line, g.PointsAt
        "9 \"A\r\nRADIX Q\nLDAI ;B\r printx >\nCOMMENT *" line) ∧
      Editor.notices "9 \"A\r\nRADIX Q\nLDAI ;B\r printx >\nCOMMENT *" =
        .ok (d.diagnostics.map Editor.Notice.ofDiagnostic) := by
  obtain ⟨d, hd, hlength⟩ := exists_eq_ok_of_any
    (x := convertDocument "9 \"A\r\nRADIX Q\nLDAI ;B\r printx >\nCOMMENT *" 8)
    (p := fun d => d.diagnostics.length == 7) (by decide +kernel)
  obtain ⟨hpoints, hnotices⟩ := diagnostics_point_at_source hd
  refine ⟨d, hd, beq_iff_eq.mp hlength, fun g hg => ?_, hnotices (by decide)⟩
  obtain ⟨line, hline, -⟩ := hpoints g hg
  exact ⟨line, hline⟩

end Macro10
