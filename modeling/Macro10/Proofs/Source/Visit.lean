import Macro10.Proofs.Conversion

/-!
# What a source is read as

To read a source is to visit its stretches one after another (`Visit`). A visit knows where the
stretch starts, which radix is in force, and what is reported there. The pieces come from the visits
in order (`Forest.From`, `Reader.exists_visits`): a group comes from the stretches between two
brackets that belong together.
-/

namespace Macro10

open List

/-- One step of reading: a stretch, the place where it starts, the radix in force there, and what is
reported. -/
structure Visit where
  stretch : Stretch
  line : Nat
  column : Nat
  radix : Option Int
  report : Option Diagnostic

namespace Visit

/-- Where the stretch starts. -/
def position (v : Visit) : Position := ⟨v.line, v.column⟩

/-- The visits follow one another from the given place and radix on. -/
def Route (line column : Nat) (radix : Option Int) : List Visit → Prop
  | [] => True
  | v :: rest => v.line = line ∧ v.column = column ∧ v.radix = radix ∧
      Route (v.stretch.lineAfter line) (v.stretch.columnAfter column)
        (v.stretch.radixAfter radix) rest

end Visit

/-! ## Single pieces -/

namespace Stretch

/-- The token that the stretch is read as, unless it depends on a radix or on what stands before. -/
def plain? : Stretch → Option (Kind × Text)
  | lexeme (.comment text) => some (.comment, text)
  | lexeme (.string text _) => some (.string, text)
  | lexeme (.blank text) => some (.whitespace, text)
  | lexeme (.operator text) => some (.operator, text)
  | terminator t => some (.whitespace, t.text)
  | remark content | setRadix content _ => some (.comment, .char ';' :: content)
  | lexeme (.digits ..) | lexeme (.name _) | opening | closing | unended _ => none

/-- What is reported at the stretch, unless it depends on a radix or on what stands before. -/
def notice? (position : Position) : Stretch → Option Diagnostic
  | lexeme (.string _ false) => some ⟨.unterminatedString, position, .warning, 1⟩
  | setRadix content operand =>
    match Numeral.readDigits operand 10 with
    | .ok value =>
      if value.map Int.ofNat = some (Numeral.radixOf operand) then none
      else some ⟨.badRadix operand (Numeral.radixOf operand), { position with column := 1 }, .info,
        (Text.trimEnd content).length⟩
    | .error _ => none
  | unended marker => some ⟨.blockNeverClosed marker, position, .warning, 1⟩
  | _ => none

end Stretch

namespace Visit

/-- The visit is read as a token of the given kind and text; `mark` tells whether a `^` stands
directly before. -/
inductive Reads (v : Visit) (mark : Bool) : Kind → Text → Prop
  | plain {kind : Kind} {text : Text} (h : v.stretch.plain? = some (kind, text))
      (hreport : v.report = v.stretch.notice? v.position) : Reads v mark kind text
  | converted {digits new : Text} {point : Bool} {base : Int}
      (h : v.stretch = .lexeme (.digits digits point))
      (hbase : (if point then some 10 else v.radix) = some base)
      (hjudge : Numeral.judgeNumber digits base = .ok (.converted new))
      (hreport : v.report = none) : Reads v mark .number new
  | refused {digits : Text} {point : Bool} {base : Int} {problem : Problem}
      (h : v.stretch = .lexeme (.digits digits point))
      (hbase : (if point then some 10 else v.radix) = some base)
      (hjudge : Numeral.judgeNumber digits base = .ok (.refused problem))
      (hreport : v.report = some ⟨problem, v.position, .warning, digits.length⟩) :
      Reads v mark .number digits
  | name {text : Text} (h : v.stretch = .lexeme (.name text))
      (hjudge : mark = true → ∃ radix, Numeral.judgeMarked text radix = .ok .unconcerned)
      (hreport : v.report = none) : Reads v mark .identifier text
  | refusedMark {text : Text} {problem : Problem} (h : v.stretch = .lexeme (.name text))
      (hmark : mark = true)
      (hjudge : ∃ radix, Numeral.judgeMarked text radix = .ok (.refusedMark problem))
      (hreport : v.report = some ⟨problem, v.position, .warning, text.length⟩) :
      Reads v mark .identifier text

end Visit

theorem Visit.Reads.shows {v : Visit} {mark : Bool} {kind : Kind} {text : Text}
    (h : v.Reads mark kind text) : v.stretch.Shows kind text := by
  cases h with
  | plain hplain =>
    cases hs : v.stretch with
    | lexeme l =>
      rw [hs] at hplain
      cases l with
      | comment | string | blank | operator =>
        cases hplain
        exact .lexeme _
      | digits | name => cases hplain
    | terminator | remark | setRadix =>
      rw [hs] at hplain
      cases hplain
      constructor
    | opening | closing | unended =>
      rw [hs] at hplain
      cases hplain
  | converted hs _ hjudge => exact hs ▸ .numeral hjudge
  | refused hs => exact hs ▸ .lexeme (.digits _ _)
  | name hs | refusedMark hs => exact hs ▸ .lexeme (.name _)

/-! ## Pieces in their groups -/

namespace Forest

/-- The last of some pieces, which are given last one first, is the operator `^`. -/
def endsWithMark : Forest → Bool
  | leaf .operator [.char '^'] _ _ => true
  | _ => false

/-- The pieces, last one first, are what the visits are read as. Outside all groups (`top`) a
closing bracket is reported and nothing else. -/
inductive From : Bool → Forest → List Visit → Prop
  | nil (top : Bool) : From top .nil []
  | leaf {top : Bool} {f : Forest} {w : List Visit} {v : Visit} {kind : Kind} {text : Text}
      (h : From top f w) (hv : v.Reads f.endsWithMark kind text) :
      From top (.leaf kind text v.position f) (w ++ [v])
  | marked {top : Bool} {f : Forest} {w : List Visit} {v : Visit} {position : Position}
      {text new : Text} (h : From top (.leaf .operator [.char '^'] position f) w)
      (hv : v.stretch = .lexeme (.name text))
      (hjudge : ∃ radix, Numeral.judgeMarked text radix = .ok (.convertedMark new))
      (hreport : v.report = none) :
      From top (.leaf .number new v.position (.leaf .whitespace [] position f)) (w ++ [v])
  | group {top : Bool} {f inside : Forest} {w w' : List Visit} {v e : Visit} (h : From top f w)
      (hv : v.stretch = .opening ∧ v.report = none) (hinside : From false inside w')
      (he : e.stretch = .closing ∧ e.report = none) :
      From top (.group v.position true inside.reverse f) (w ++ v :: (w' ++ [e]))
  | unended {top : Bool} {f : Forest} {w : List Visit} {v : Visit} {marker : Text}
      (h : From top f w) (hv : v.stretch = .unended marker)
      (hreport : v.report = v.stretch.notice? v.position) : From top f (w ++ [v])
  | stray {f : Forest} {w : List Visit} {v : Visit} (h : From true f w)
      (hv : v.stretch = .closing)
      (hreport : v.report = some ⟨.unmatchedClose, v.position, .warning, 1⟩) :
      From true f (w ++ [v])

/-- As `From`, where groups at the end are not closed; these start at the given positions, the
outermost first. -/
inductive Read : Bool → Forest → List Visit → List Position → Prop
  | closed {top : Bool} {f : Forest} {w : List Visit} (h : From top f w) : Read top f w []
  | unclosed {top : Bool} {f inside : Forest} {w w' : List Visit} {v : Visit}
      {positions : List Position} (h : From top f w)
      (hv : v.stretch = .opening ∧ v.report = none) (hinside : Read false inside w' positions) :
      Read top (.group v.position false inside.reverse f) (w ++ v :: w') (v.position :: positions)

end Forest

namespace Reader

variable {frames : List Frame} {v : Visit} {text : Text}

/-- What was read before the innermost open group, its opening bracket included. -/
inductive Outer : List Frame → Bool → List Visit → Prop
  | root : Outer [] true []
  | group {frames : List Frame} {top : Bool} {w w' : List Visit} {v : Visit} {f : Forest}
      (h : Outer frames top w) (hf : Forest.From top f w')
      (hv : v.stretch = .opening ∧ v.report = none) :
      Outer (⟨v.position, f⟩ :: frames) false (w ++ (w' ++ [v]))

/-- What was read so far comes from the visits so far. -/
def Tracks (frames : List Frame) (scope : Forest) (w : List Visit) : Prop :=
  ∃ top before here, w = before ++ here ∧ Outer frames top before ∧ Forest.From top scope here

/-! ## Each step is a visit -/

variable {r r' : Reader} {line column : Nat} {s : Stretch} {w : List Visit}

theorem afterMark_eq_endsWithMark (r : Reader) : r.afterMark = r.scope.endsWithMark := rfl

theorem Tracks.snoc {scope scope' : Forest} (h : Tracks frames scope w)
    (hstep : ∀ {top here}, Forest.From top scope here → Forest.From top scope' (here ++ [v])) :
    Tracks frames scope' (w ++ [v]) := by
  obtain ⟨top, before, here, rfl, houter, hscope⟩ := h
  exact ⟨top, before, here ++ [v], append_assoc .., houter, hstep hscope⟩

/-- The reader `r'` is `r` after the visit `v`. -/
structure Visits (r r' : Reader) (v : Visit) : Prop where
  radix : r'.radix = v.stretch.radixAfter r.radix
  diagnostics : r'.diagnostics = r.diagnostics ++ v.report.toList
  tracks : ∀ {w : List Visit}, Tracks r.frames r.scope w → Tracks r'.frames r'.scope (w ++ [v])

/-- A step that adds one token, and possibly a diagnostic. -/
theorem visits_put {kind : Kind} (hradix : r'.radix = v.stretch.radixAfter r.radix)
    (hdiagnostics : r'.diagnostics = r.diagnostics ++ v.report.toList)
    (hframes : r'.frames = r.frames) (hscope : r'.scope = .leaf kind text v.position r.scope)
    (hv : v.Reads r.afterMark kind text) : Visits r r' v := by
  refine ⟨hradix, hdiagnostics, fun h => ?_⟩
  rw [hframes, hscope]
  exact h.snoc fun hfrom => .leaf hfrom (afterMark_eq_endsWithMark r ▸ hv)

theorem exists_visits_digits {digits : Text} {point : Bool} (hrun : Numeral.IsRun digits)
    (h : r.take line column (.lexeme (.digits digits point)) = .ok r') :
    ∃ report, Visits r r' ⟨.lexeme (.digits digits point), line, column, r.radix, report⟩ := by
  have hradix := radix_take h
  obtain ⟨base, hbase, h⟩ := bind_eq_ok.mp h
  obtain ⟨verdict, hjudge, h⟩ := bind_eq_ok.mp h
  cases h
  have hbase' : (if point then some 10 else r.radix) = some base := by
    unfold radixOf at hbase
    cases point with
    | true => exact congrArg some (Except.ok.inj hbase)
    | false =>
      cases hr : r.radix with
      | none => simp [hr] at hbase
      | some radix => simpa [hr] using hbase
  rw [Numeral.judge, hrun.judgeNumber_eq] at hjudge
  cases verdict with
  | converted new =>
    exact ⟨none, visits_put hradix (by simp [settle, put]) rfl rfl
      (.converted rfl hbase' ((hrun.judgeNumber_eq _).trans hjudge) rfl)⟩
  | refused problem =>
    exact ⟨some _, visits_put hradix rfl rfl rfl
      (.refused rfl hbase' ((hrun.judgeNumber_eq _).trans hjudge) rfl)⟩
  | unconcerned | refusedMark | convertedMark =>
    obtain ⟨value, -, hjudge⟩ := bind_eq_ok.mp hjudge
    cases value with
    | none => cases hjudge
    | some n =>
      obtain ⟨text, -, hjudge⟩ := bind_eq_ok.mp hjudge
      cases hjudge

theorem exists_visits_name (h : r.take line column (.lexeme (.name text)) = .ok r') :
    ∃ report, Visits r r' ⟨.lexeme (.name text), line, column, r.radix, report⟩ := by
  have hradix := radix_take h
  obtain ⟨verdict, hjudge, h⟩ := bind_eq_ok.mp h
  cases h
  rw [judgeName, Numeral.judge] at hjudge
  cases hmark : r.afterMark with
  | false =>
    rw [hmark, if_neg (by decide)] at hjudge
    cases hjudge
    exact ⟨none, visits_put hradix (by simp [settle, put]) rfl rfl
      (.name rfl (fun h => absurd (hmark.symm.trans h) (by decide)) rfl)⟩
  | true =>
    rw [hmark, if_pos rfl] at hjudge
    cases verdict with
    | unconcerned =>
      exact ⟨none, visits_put hradix (by simp [settle, put]) rfl rfl
        (.name rfl (fun _ => ⟨_, hjudge⟩) rfl)⟩
    | refusedMark problem =>
      exact ⟨some _, visits_put hradix rfl rfl rfl (.refusedMark rfl hmark ⟨_, hjudge⟩ rfl)⟩
    | convertedMark new =>
      obtain ⟨position, rest, hscope⟩ := exists_of_afterMark hmark
      have hblank : r.blankLast = { r with scope := .leaf .whitespace [] position rest } := by
        rw [blankLast, hscope]
      refine ⟨none, hradix, by simp [settle, put, hblank], fun htracks => ?_⟩
      rw [settle, hblank]
      rw [hscope] at htracks
      exact htracks.snoc fun hfrom =>
        .marked (v := ⟨.lexeme (.name text), line, column, r.radix, none⟩) hfrom rfl ⟨_, hjudge⟩ rfl
    | refused | converted => simpa using Numeral.judgeMarked_cases hjudge

theorem exists_visits_setRadix {content operand : Text}
    (h : r.take line column (.setRadix content operand) = .ok r') :
    ∃ report, Visits r r' ⟨.setRadix content operand, line, column, r.radix, report⟩ := by
  have hradix := radix_take h
  obtain ⟨r₁, hset, h⟩ := bind_eq_ok.mp h
  cases h
  obtain ⟨radix, hread, hset⟩ := bind_eq_ok.mp hset
  obtain ⟨value, hvalue, hset⟩ := bind_eq_ok.mp hset
  have hradixOf : Numeral.radixOf operand = radix := by
    rw [Numeral.radixOf, hread]
    rfl
  refine ⟨(Stretch.setRadix content operand).notice? ⟨line, column⟩, ?_⟩
  by_cases hequal : value.map Int.ofNat = some radix
  · simp only [if_pos hequal] at hset
    cases hset
    exact visits_put hradix (by simp [put, Stretch.notice?, hvalue, hradixOf, hequal]) rfl rfl
      (.plain rfl rfl)
  · simp only [if_neg hequal] at hset
    cases hset
    exact visits_put hradix (by simp [put, report, Stretch.notice?, hvalue, hradixOf, hequal]) rfl
      rfl (.plain rfl rfl)

/-- **Each step of reading is a visit.** -/
theorem exists_visits_take (hproper : s.Proper) (h : r.take line column s = .ok r') :
    ∃ report, Visits r r' ⟨s, line, column, r.radix, report⟩ := by
  cases s with
  | lexeme l =>
    cases l with
    | comment text | blank text | operator text =>
      cases h
      exact ⟨none, visits_put rfl (by simp [put]) rfl rfl (.plain rfl rfl)⟩
    | string text closed =>
      cases closed with
      | true =>
        cases h
        exact ⟨none, visits_put rfl (by simp [put]) rfl rfl (.plain rfl rfl)⟩
      | false =>
        cases h
        exact ⟨some _, visits_put rfl rfl rfl rfl (.plain rfl rfl)⟩
    | digits text point => exact exists_visits_digits hproper h
    | name text => exact exists_visits_name h
  | terminator t =>
    cases h
    exact ⟨none, visits_put rfl (by simp [put]) rfl rfl (.plain rfl rfl)⟩
  | remark content =>
    cases h
    exact ⟨none, visits_put rfl (by simp [put]) rfl rfl (.plain rfl rfl)⟩
  | setRadix content operand => exact exists_visits_setRadix h
  | opening =>
    cases h
    refine ⟨none, rfl, by simp [openGroup], ?_⟩
    rintro w ⟨top, before, here, rfl, houter, hscope⟩
    exact ⟨false, _, [], by simp,
      .group (v := ⟨.opening, line, column, r.radix, none⟩) houter hscope ⟨rfl, rfl⟩, .nil false⟩
  | closing =>
    have hradix := radix_take h
    cases h
    cases hframes : r.frames with
    | nil =>
      have hclose : r.closeGroup ⟨line, column⟩ =
          r.report .unmatchedClose ⟨line, column⟩ 1 .warning := by rw [closeGroup, hframes]
      refine ⟨some _, hradix, by rw [hclose]; rfl, ?_⟩
      rw [hclose]
      rintro w ⟨top, before, here, rfl, houter, hscope⟩
      cases hframes ▸ houter
      exact ⟨true, [], _, by simp, hframes ▸ .root,
        .stray (v := ⟨.closing, line, column, r.radix,
          some ⟨.unmatchedClose, ⟨line, column⟩, .warning, 1⟩⟩) hscope rfl rfl⟩
    | cons frame frames =>
      have hclose : r.closeGroup ⟨line, column⟩ =
          { r with scope := .group frame.position true r.scope.reverse frame.before, frames } := by
        rw [closeGroup, hframes]
      refine ⟨none, hradix, by simp [hclose], ?_⟩
      rw [hclose]
      rintro w ⟨top, before, here, rfl, houter, hscope⟩
      rw [hframes] at houter
      cases houter with
      | group houter hbefore hv =>
        exact ⟨_, _, _, by simp, houter,
          .group (e := ⟨.closing, line, column, r.radix, none⟩) hbefore hv hscope ⟨rfl, rfl⟩⟩
  | unended marker =>
    cases h
    exact ⟨some _, rfl, rfl, fun htracks => htracks.snoc fun hfrom => .unended hfrom rfl rfl⟩

/-! ## A whole source -/

theorem exists_visits_takeAll {stretches : List Stretch} (hproper : ∀ s ∈ stretches, s.Proper)
    (h : r.takeAll line column stretches = .ok r') :
    ∃ w, w.map Visit.stretch = stretches ∧ Visit.Route line column r.radix w ∧
      r'.diagnostics = r.diagnostics ++ w.filterMap Visit.report ∧
      ∀ w₀, Tracks r.frames r.scope w₀ → Tracks r'.frames r'.scope (w₀ ++ w) := by
  induction stretches generalizing r line column with
  | nil =>
    cases h
    exact ⟨[], rfl, trivial, by simp, fun w₀ h => by simpa using h⟩
  | cons s rest ih =>
    obtain ⟨hs, hrest⟩ := forall_mem_cons.mp hproper
    obtain ⟨r₁, htake, h⟩ := bind_eq_ok.mp h
    obtain ⟨report, hvisit⟩ := exists_visits_take hs htake
    obtain ⟨w, hstretches, hroute, hdiagnostics, htracks⟩ := ih hrest h
    refine ⟨⟨s, line, column, r.radix, report⟩ :: w, by rw [map_cons, hstretches],
      ⟨rfl, rfl, rfl, hvisit.radix ▸ hroute⟩, ?_, fun w₀ h => ?_⟩
    · rw [hdiagnostics, hvisit.diagnostics]
      cases report <;> simp
    · have h' := htracks _ (hvisit.tracks h)
      rwa [append_assoc, singleton_append] at h'

theorem read_endGroups {top : Bool} {before here : List Visit} {positions : List Position}
    (houter : Outer frames top before) (h : Forest.Read top r.scope here positions) :
    ∃ positions', Forest.Read true (r.endGroups frames).scope (before ++ here)
        (positions' ++ positions) ∧
      (r.endGroups frames).diagnostics = r.diagnostics ++
        positions'.reverse.map fun p => ⟨.neverClosed, p, .warning, 1⟩ := by
  induction houter generalizing r here positions with
  | root => exact ⟨[], h, by simp [endGroups]⟩
  | @group frames top w w' v f houter hf hv ih =>
    obtain ⟨positions', hread, hdiagnostics⟩ := ih
      (r := { r.report .neverClosed v.position 1 .warning with
        scope := .group v.position false (r.report .neverClosed v.position 1 .warning).scope.reverse
          f })
      (.unclosed hf hv h)
    refine ⟨positions' ++ [v.position], ?_, ?_⟩
    · rw [endGroups]
      simpa using hread
    · rw [endGroups]
      simpa [report] using hdiagnostics

/-- **What a source is read as comes from its stretches in order.** -/
theorem exists_visits {source : Text} {radix : Option Int}
    (h : Reads radix source r) :
    ∃ w positions, w.map Visit.stretch = source.stretches ∧ Visit.Route 1 1 radix w ∧
      Forest.Read true (r.endGroups r.frames).scope w positions ∧
      (r.endGroups r.frames).diagnostics = w.filterMap Visit.report ++
        positions.reverse.map fun p => ⟨.neverClosed, p, .warning, 1⟩ := by
  obtain ⟨w, hstretches, hroute, hdiagnostics, htracks⟩ :=
    exists_visits_takeAll (fun s hs => Text.proper_of_mem_stretches hs) (readLines_split_eq_ok.mp h)
  obtain ⟨top, before, here, hsplit, houter, hscope⟩ :=
    htracks [] ⟨true, [], [], rfl, .root, .nil true⟩
  rw [nil_append] at hsplit
  obtain ⟨positions, hread, hclosed⟩ := read_endGroups houter (.closed hscope)
  rw [append_nil, ← hsplit] at hread
  refine ⟨w, positions, hstretches, hroute, hread, ?_⟩
  rw [hclosed, hdiagnostics]
  simp

end Reader

end Macro10
