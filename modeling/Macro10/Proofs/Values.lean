import Macro10.Proofs.Document.WellFormed
import Macro10.Proofs.Settled
import Macro10.Proofs.Source.Place

/-!
# The numerals of a source

A numeral of a source is read in base ten if a point follows it, in the base of its mark if it has
one, and else in the radix in force (`Text.HasNumeral`). Its token has a text that denotes the same
value in the target, or keeps its digits and is reported (`read_numerals`).
-/

namespace Macro10

open List
open Numeral (markBase? maxRadix radixOf readRadix)

variable {source : Text} {radix base : Int} {d : Document} {before after : List Visit} {v : Visit}
  {f : Forest} {positions : List Position} {stretches : List Stretch}

variable {text : Text} {w : List Visit}
  {mark : Bool}

/-! ## The radix in force -/

theorem Numeral.bounds_of_readRadix {operand : Text} (h : readRadix operand = .ok base) :
    2 ≤ base ∧ base ≤ maxRadix := by
  obtain ⟨value, -, h⟩ := bind_eq_ok.mp h
  have hten : 2 ≤ (10 : Int) ∧ (10 : Int) ≤ maxRadix := by decide
  cases value with
  | none =>
    cases h
    exact hten
  | some n =>
    cases h
    split
    · next hn =>
      simp only [Bool.and_eq_true, decide_eq_true_eq] at hn
      omega
    · exact hten

namespace Stretch

/-- The operand of a line that sets the radix. -/
def operand? : Stretch → Option Text
  | setRadix _ operand => some operand
  | _ => none

/-- `base` is the radix in force after the stretches if `radix` was before them: the last line that
sets one decides. -/
def InForce (radix : Int) (stretches : List Stretch) (base : Int) : Prop :=
  match (stretches.filterMap operand?).getLast? with
  | none => base = radix
  | some operand => readRadix operand = .ok base

theorem radixesAfter_eq (radix : Int) (stretches : List Stretch) :
    radixesAfter (some radix) stretches =
      some (((stretches.filterMap operand?).getLast?.map radixOf).getD radix) := by
  induction stretches using List.reverseRecOn with
  | nil => rfl
  | append_singleton stretches s ih =>
    rw [radixesAfter, foldl_append]
    show radixAfter (radixesAfter _ _) s = _
    rw [ih, filterMap_append]
    cases s <;> simp [radixAfter, operand?]

theorem exists_inForce (radix : Int)
    (h : ∀ operand ∈ stretches.filterMap operand?, ∃ base, readRadix operand = .ok base) :
    ∃ base, radixesAfter (some radix) stretches = some base ∧ InForce radix stretches base := by
  rw [radixesAfter_eq]
  unfold InForce
  cases hlast : (stretches.filterMap operand?).getLast? with
  | none => exact ⟨radix, rfl, rfl⟩
  | some operand =>
    obtain ⟨base, hbase⟩ := h operand (mem_of_getLast? hlast)
    exact ⟨base, by simp [radixOf, hbase, Except.toOption], hbase⟩

theorem InForce.bounds (h : InForce radix stretches base)
    (hradix : 2 ≤ radix ∧ radix ≤ maxRadix) : 2 ≤ base ∧ base ≤ maxRadix := by
  unfold InForce at h
  split at h
  · rwa [h]
  · exact Numeral.bounds_of_readRadix h

end Stretch

namespace Reader

variable {r r' : Reader} {line column : Nat}

theorem radix_takeAll (h : r.takeAll line column stretches = .ok r') :
    r'.radix = Stretch.radixesAfter r.radix stretches := by
  induction stretches generalizing r line column with
  | nil =>
    cases h
    rfl
  | cons s rest ih =>
    obtain ⟨r₁, htake, h⟩ := bind_eq_ok.mp h
    rw [ih h, radix_take htake]
    rfl

theorem exists_readRadix_of_takeAll (h : r.takeAll line column stretches = .ok r') :
    ∀ operand ∈ stretches.filterMap Stretch.operand?, ∃ base, readRadix operand = .ok base := by
  induction stretches generalizing r line column with
  | nil => exact forall_mem_nil _
  | cons s rest ih =>
    obtain ⟨r₁, htake, h⟩ := bind_eq_ok.mp h
    intro operand hoperand
    obtain ⟨s', hs', hsome⟩ := mem_filterMap.mp hoperand
    rcases mem_cons.mp hs' with rfl | hs'
    · cases s' with
      | setRadix content operand' =>
        cases hsome
        obtain ⟨r₂, hset, -⟩ := bind_eq_ok.mp htake
        obtain ⟨base, hread, -⟩ := bind_eq_ok.mp hset
        exact ⟨base, hread⟩
      | lexeme | terminator | remark | opening | closing | unended => cases hsome
    · exact ih h operand (mem_filterMap.mpr ⟨s', hs', hsome⟩)

end Reader

theorem exists_takeAll_of_read (h : read source radix = .ok d) :
    ∃ r reading, ({ radix := some radix } : Reader).takeAll 1 1 source.stretches = .ok r ∧
      Reading.ofSource source (some radix) = .ok reading ∧ reading.radix = r.radix := by
  obtain ⟨reading, hreading, -⟩ := read_eq_ok.mp h
  obtain ⟨r, hr, rfl⟩ := Reading.ofSource_eq_ok.mp hreading
  exact ⟨r, _, Reader.readLines_split_eq_ok.mp hr, hreading, Reader.radix_endGroups r r.frames⟩

/-! ## Where numerals stand -/

/-- The stretch leaves no token: a closing bracket that closes nothing, or the place where a comment
block starts that does not end. -/
def Stretch.isSilent : Stretch → Bool
  | closing | unended _ => true
  | _ => false

/-- At the given position of the source there are the digits of a numeral, which are to be read in
the given base, if `radix` is in force at the start. -/
inductive Text.HasNumeral (source : Text) (radix : Int) : Position → Text → Int → Prop
  | point {before after : List Stretch} {digits : Text}
      (h : source.stretches = before ++ .lexeme (.digits digits true) :: after) :
      HasNumeral source radix (positionAfter (before.flatMap Stretch.source)) digits 10
  | plain {before after : List Stretch} {digits : Text} {base : Int}
      (h : source.stretches = before ++ .lexeme (.digits digits false) :: after)
      (hbase : Stretch.InForce radix before base) :
      HasNumeral source radix (positionAfter (before.flatMap Stretch.source)) digits base
  | marked {before silent after : List Stretch} {letter : Symbol} {digits : Text} {base : Int}
      (h : source.stretches = before ++ .mark ::
        (silent ++ .lexeme (.name (letter :: digits)) :: after))
      (hsilent : ∀ s ∈ silent, s.isSilent = true) (hdigits : digits ≠ [])
      (hbase : markBase? [letter] = some base) :
      HasNumeral source radix (positionAfter
        ((before ++ .mark :: silent).flatMap Stretch.source)) digits base

/-- The text is what the visit is read as, as a numeral; `before` are the visits before it. -/
def Visit.Counts (before : List Visit) (v : Visit) (text : Text) : Prop :=
  (∃ mark, v.Reads mark .number text) ∨
    v.IsMarked text ∧ ∃ earlier m silent, before = earlier ++ m :: silent ∧ m.IsMark ∧
      ∀ u ∈ silent, ∃ top, u.Silent top

theorem Visit.Counts.append
    (h : v.Counts before text) (w : List Visit) : v.Counts (w ++ before) text := by
  rcases h with hreads | ⟨hmarked, earlier, m, silent, rfl, hm, hsilent⟩
  · exact .inl hreads
  · exact .inr ⟨hmarked, w ++ earlier, m, silent, by simp, hm, hsilent⟩

/-- The token is the numeral that one of the visits is read as. -/
def Token.CountedIn (t : Token) (w : List Visit) : Prop :=
  ∃ before v after text, w = before ++ v :: after ∧ t.position = some v.position ∧
    t.text = some text ∧ v.Counts before text

theorem Token.CountedIn.append {t : Token} (h : t.CountedIn w)
    (w₁ w₂ : List Visit) : t.CountedIn (w₁ ++ (w ++ w₂)) := by
  obtain ⟨before, v, after, text, rfl, hposition, htext, hcounts⟩ := h
  exact ⟨w₁ ++ before, v, after ++ w₂, text, by simp, hposition, htext, hcounts.append w₁⟩

/-- **Each numeral among the tokens is read from a visit.** -/
theorem Forest.Spelled.countedIn {top : Bool} (h : Forest.Spelled top mark f w positions)
    {parent prev : Option Id} {first : Id} :
    ∀ t ∈ f.tokens parent first prev, t.kind = .number → t.CountedIn w := by
  induction h generalizing parent prev first with
  | nil => exact forall_mem_nil _
  | @silent top mark f w positions v hv h ih =>
    intro t ht hkind
    simpa using (ih t ht hkind).append [v] []
  | @leaf top mark f w positions v kind text hv h ih =>
    rw [Forest.tokens]
    refine forall_mem_cons.mpr ⟨fun hkind => ?_, fun t ht hkind => ?_⟩
    · obtain rfl : kind = .number := hkind
      exact ⟨[], v, w, text, rfl, rfl, rfl, .inl ⟨mark, hv⟩⟩
    · simpa using (ih t ht hkind).append [v] []
  | @pair top mark f w w' positions m v new hm hsilent hv h ih =>
    rw [Forest.tokens, Forest.tokens]
    refine forall_mem_cons.mpr ⟨fun hkind => (by cases hkind),
      forall_mem_cons.mpr ⟨fun _ => ?_, fun t ht hkind => ?_⟩⟩
    · exact ⟨m :: w', v, w, new, rfl, rfl, rfl,
        .inr ⟨hv, [], m, w', rfl, hm, fun u hu => ⟨top, hsilent u hu⟩⟩⟩
    · simpa using (ih t ht hkind).append (m :: (w' ++ [v])) []
  | @group top mark f inside w w' positions v e hv hinside he h ihinside ih =>
    rw [Forest.tokens]
    refine forall_mem_cons.mpr ⟨fun hkind => (by cases hkind),
      forall_mem_append.mpr ⟨fun t ht hkind => ?_, fun t ht hkind => ?_⟩⟩
    · simpa using (ihinside t ht hkind).append [v] (e :: w)
    · simpa using (ih t ht hkind).append (v :: (w' ++ [e])) []
  | @unclosed top mark inside w positions v hv hinside ih =>
    rw [Forest.tokens]
    refine forall_mem_cons.mpr ⟨fun hkind => (by cases hkind),
      forall_mem_append.mpr ⟨fun t ht hkind => ?_, forall_mem_nil _⟩⟩
    simpa using (ih t ht hkind).append [v] []

/-! ## What is reported -/

/-- A text that is meant as a numeral is none. -/
def Problem.isBadNumeral : Problem → Bool
  | badNumeral .. | badMarkedNumeral .. => true
  | _ => false

/-- What is wrong with numerals at a position. -/
def Document.numeralProblems (d : Document) (p : Position) : List Diagnostic :=
  d.diagnostics.filter fun r => r.problem.isBadNumeral && decide (r.position = p)

theorem Lexeme.source_digits_ne_nil {digits : Text} (h : Numeral.IsRun digits) (point : Bool) :
    (Lexeme.digits digits point).source ≠ [] := by
  cases point with
  | true => exact append_ne_nil_of_right_ne_nil _ (cons_ne_nil _ _)
  | false => exact h.1

/-- A number is read from a digit string, and reported just if it is refused. -/
theorem Visit.Reads.exists_digits (h : v.Reads mark .number text) :
    ∃ digits point base verdict, v.stretch = .lexeme (.digits digits point) ∧
      (if point then some 10 else v.radix) = some base ∧
      Numeral.judgeNumber digits base = .ok verdict ∧
      (verdict = .converted text ∧ v.report = none ∨
        text = digits ∧ ∃ problem, verdict = .refused problem ∧
          v.report = some ⟨problem, v.position, .warning, digits.length⟩) := by
  cases h with
  | plain hplain =>
    cases hs : v.stretch with
    | lexeme l => cases l <;> simp [hs, Stretch.plain?] at hplain
    | terminator | remark | setRadix | opening | closing | unended =>
      simp [hs, Stretch.plain?] at hplain
  | converted hv hbase hjudge hreport =>
    exact ⟨_, _, _, _, hv, hbase, hjudge, .inl ⟨rfl, hreport⟩⟩
  | refused hv hbase hjudge hreport =>
    exact ⟨_, _, _, _, hv, hbase, hjudge, .inr ⟨rfl, _, rfl, hreport⟩⟩

theorem Visit.Reads.of_isBadNumeral {kind : Kind} (h : v.Reads mark kind text)
    (hproper : v.stretch.Proper) {r : Diagnostic} (hr : v.report = some r)
    (hbad : r.problem.isBadNumeral = true) : r.position = v.position ∧ v.stretch.source ≠ [] := by
  cases h with
  | plain hplain hreport =>
    rw [hreport] at hr
    unfold Stretch.notice? at hr
    split at hr
    · cases hr
      cases hbad
    · split at hr
      · split at hr
        · cases hr
        · cases hr
          cases hbad
      · cases hr
    · cases hr
      cases hbad
    · cases hr
  | converted _ _ _ hreport | name _ _ hreport => cases hr.symm.trans hreport
  | @refused _ point _ _ hv _ _ hreport =>
    rw [hv] at hproper ⊢
    cases hr.symm.trans hreport
    exact ⟨rfl, Lexeme.source_digits_ne_nil hproper point⟩
  | refusedMark hv _ _ hreport =>
    rw [hv] at hproper ⊢
    cases hr.symm.trans hreport
    obtain ⟨s, rest, rfl, -⟩ := hproper
    exact ⟨rfl, cons_ne_nil _ _⟩

namespace Record

variable {w : List Visit}
  (h : Record source radix d f (before ++ v :: after) positions)

include h

theorem proper : ∀ u ∈ before ++ v :: after, u.stretch.Proper := fun _ hu =>
  Text.proper_of_mem_stretches (h.stretches ▸ mem_map_of_mem hu)

theorem of_isBadNumeral : ∀ u ∈ before ++ v :: after, ∀ r, u.report = some r →
    r.problem.isBadNumeral = true → r.position = u.position ∧ u.stretch.source ≠ [] := by
  intro u hu r hr hbad
  rcases h.spelled.mem_cases u hu with ⟨_, hsilent⟩ | ⟨_, _, _, hreads⟩ | hnone
  · rcases hsilent.problem_cases hr with hproblem | ⟨marker, hproblem⟩
    · rw [hproblem] at hbad
      cases hbad
    · rw [hproblem] at hbad
      cases hbad
  · exact hreads.of_isBadNumeral (h.proper u hu) hr hbad
  · cases hr.symm.trans hnone

/-- What is reported of bad numerals at the place of a visit is what is reported at the visit: no
other visit stands there. -/
theorem numeralProblems_eq (hv : v.stretch.source ≠ []) :
    d.numeralProblems v.position = v.report.toList.filter fun r => r.problem.isBadNumeral := by
  have hbad := h.of_isBadNumeral
  obtain ⟨-, hafter, hbefore⟩ := pairwise_append.mp h.route.pairwise
  have hcross : ∀ u ∈ before ++ after, ∀ r, u.report = some r → r.problem.isBadNumeral = true →
      r.position ≠ v.position := by
    intro u hu r hr hr'
    rcases mem_append.mp hu with hu | hu
    · obtain ⟨hposition, hne⟩ := hbad u (mem_append_left _ hu) r hr hr'
      rw [hposition]
      exact (hbefore u hu v mem_cons_self hne).ne
    · obtain ⟨hposition, -⟩ := hbad u (mem_append_right _ (mem_cons_of_mem _ hu)) r hr hr'
      rw [hposition]
      exact ((pairwise_cons.mp hafter).1 u hu hv).ne.symm
  have hothers : ∀ xs : List Visit, xs ⊆ before ++ after →
      (xs.filterMap Visit.report).filter
        (fun r => r.problem.isBadNumeral && decide (r.position = v.position)) = [] := by
    intro xs hxs
    refine filter_eq_nil_iff.mpr fun r hr => ?_
    obtain ⟨u, hu, hreport⟩ := mem_filterMap.mp hr
    simpa using hcross u (hxs hu) r hreport
  have hself : v.report.toList.filter
      (fun r => r.problem.isBadNumeral && decide (r.position = v.position)) =
      v.report.toList.filter fun r => r.problem.isBadNumeral := by
    refine filter_congr fun r hr => ?_
    cases hr' : r.problem.isBadNumeral with
    | false => rfl
    | true =>
      obtain ⟨hposition, -⟩ := hbad v (by simp) r (Option.mem_toList.mp hr) hr'
      simp [hposition]
  have hclosed : (positions.reverse.map fun p =>
      (⟨.neverClosed, p, .warning, 1⟩ : Diagnostic)).filter
      (fun r => r.problem.isBadNumeral && decide (r.position = v.position)) = [] := by
    refine filter_eq_nil_iff.mpr fun r hr => ?_
    obtain ⟨p, -, rfl⟩ := mem_map.mp hr
    simp [Problem.isBadNumeral]
  have hreports : (before ++ v :: after).filterMap Visit.report =
      before.filterMap Visit.report ++ (v.report.toList ++ after.filterMap Visit.report) := by
    rw [filterMap_append]
    cases hreport : v.report with
    | none => rw [filterMap_cons_none hreport]; rfl
    | some r => rw [filterMap_cons_some hreport]; rfl
  rw [Document.numeralProblems, h.diagnostics, hreports, filter_append, filter_append,
    filter_append, hothers before (subset_append_left _ _),
    hothers after (subset_append_right _ _), hself, hclosed, nil_append, append_nil,
    append_nil]

theorem stretches_eq : source.stretches =
    before.map Visit.stretch ++ v.stretch :: after.map Visit.stretch := by
  rw [← h.stretches, map_append, map_cons]

theorem inForce (hradix : v.radix = some base)
    (hread : ∀ operand ∈ source.stretches.filterMap Stretch.operand?,
      ∃ base, readRadix operand = .ok base) :
    Stretch.InForce radix (before.map Visit.stretch) base := by
  have hbefore : ∀ operand ∈ (before.map Visit.stretch).filterMap Stretch.operand?,
      ∃ base, readRadix operand = .ok base := by
    intro operand hoperand
    refine hread operand ?_
    rw [h.stretches_eq, filterMap_append]
    exact mem_append_left _ hoperand
  obtain ⟨base', hafter, hforce⟩ := Stretch.exists_inForce radix hbefore
  rw [h.route.place.2.2, hafter] at hradix
  rwa [← Option.some.inj hradix]

end Record

/-- The text is right for the digits, which are to be read in `base`, and `problems` are what is to
be reported: nothing if the digits are a numeral. -/
def Numeral.Settles (digits : Text) (base : Int) (text : Text)
    (problems : List Diagnostic) : Prop :=
  if digits.all (below base.toNat) then
    targetValue? text = some (valueOf base.toNat (digitValues digits)) ∧ problems = []
  else text = digits ∧ problems.length = 1

/-- **What a numeral is read as.** -/
theorem Record.exists_numeral
    (h : Record source radix d f (before ++ v :: after) positions)
    (hradix : 2 ≤ radix ∧ radix ≤ maxRadix)
    (hread : ∀ operand ∈ source.stretches.filterMap Stretch.operand?,
      ∃ base, readRadix operand = .ok base)
    (hv : v.Counts before text) :
    ∃ digits base, source.HasNumeral radix v.position digits base ∧
      (2 ≤ base ∧ base ≤ maxRadix) ∧
      Numeral.Settles digits base text (d.numeralProblems v.position) := by
  have hproper := h.proper v (by simp)
  have hposition := h.route.position_eq h.stretches
  have hstretches := h.stretches_eq
  rcases hv with ⟨mark, hreads⟩ |
    ⟨⟨name, radix', hname, hjudge, hreport⟩, earlier, m, silent, rfl, hm,
    hsilent⟩
  · -- a digit string
    obtain ⟨digits, point, base, verdict, hv, hbase, hjudge, hverdict⟩ := hreads.exists_digits
    rw [hv] at hstretches
    have hrun : Numeral.IsRun digits := by
      rw [hv] at hproper
      exact hproper
    have hnumeral : source.HasNumeral radix v.position digits base ∧
        2 ≤ base ∧ base ≤ maxRadix := by
      rw [hposition]
      cases point with
      | true =>
        cases hbase
        exact ⟨.point hstretches, by decide⟩
      | false =>
        have hforce := h.inForce hbase hread
        exact ⟨.plain hstretches hforce, hforce.bounds hradix⟩
    have hne : v.stretch.source ≠ [] := by
      rw [hv]
      exact Lexeme.source_digits_ne_nil hrun point
    refine ⟨digits, base, hnumeral.1, hnumeral.2, ?_⟩
    rw [Numeral.Settles, h.numeralProblems_eq hne]
    rcases hrun.judgeNumber_cases hjudge with ⟨new, rfl, hvalue, hall⟩ | ⟨rfl, hall⟩
    · rw [if_pos (hall hnumeral.2)]
      rcases hverdict with ⟨heq, hreport⟩ | ⟨-, problem, heq, -⟩
      · obtain rfl := Numeral.Verdict.converted.inj heq
        rw [hreport]
        exact ⟨hvalue, rfl⟩
      · cases heq
    · rw [if_neg (by rw [hall hnumeral.2]; exact Bool.false_ne_true)]
      rcases hverdict with ⟨heq, -⟩ | ⟨htext, problem, heq, hreport⟩
      · cases heq
      · obtain rfl := Numeral.Verdict.refused.inj heq
        rw [hreport]
        exact ⟨htext, rfl⟩
  · -- a name after a mark
    rcases Numeral.judgeMarked_cases hjudge with
      ⟨hnew, -⟩ | ⟨base, hnew, -⟩ | ⟨base, digits, new, hnew, hmarked, -, hvalue⟩
    · cases hnew
    · cases hnew
    obtain rfl := Numeral.Verdict.convertedMark.inj hnew
    obtain ⟨letter, rfl, hdigits, hbase, hall⟩ := Numeral.exists_of_marked? hmarked
    refine ⟨digits, base, ?_, ?_, ?_⟩
    · rw [hposition, map_append, map_cons, hm.1]
      rw [hname, map_append, map_cons, hm.1, append_assoc] at hstretches
      refine .marked hstretches (fun s hs => ?_) hdigits hbase
      obtain ⟨u, hu, rfl⟩ := mem_map.mp hs
      obtain ⟨top, hu⟩ := hsilent u hu
      rcases hu with ⟨marker, hu, -⟩ | ⟨-, hu, -⟩
      · rw [hu]
        rfl
      · rw [hu]
        rfl
    · rcases Numeral.markBase?_cases hbase with rfl | rfl | rfl | rfl <;> decide
    · have hne : v.stretch.source ≠ [] := by
        rw [hname]
        exact cons_ne_nil _ _
      rw [Numeral.Settles, if_pos hall, h.numeralProblems_eq hne, hreport]
      exact ⟨hvalue, rfl⟩

/-! ## The numerals of a document -/

/-- The numerals of `d` are still there in `d'` with their texts, but for those blanked out. -/
def Document.KeepsNumerals (d d' : Document) : Prop :=
  ∀ (i : Id) (t : Token), d.tokens[i]? = some t → t.kind = .number →
    ∃ t', d'.tokens[i]? = some t' ∧ (t'.kind = .number ∧ t'.text = t.text ∨ t'.kind = .whitespace)

theorem Document.Evolves.keepsNumerals {marks : Bool} {d' : Document}
    (h : d.Evolves marks d') : d.KeepsNumerals d' := by
  intro i t ht hkind
  obtain ⟨t', ht', hevolves⟩ := h.tokens ht
  refine ⟨t', ht', ?_⟩
  rcases hevolves.kind with heq | heq
  · have hkind' : t'.kind = .number := heq.trans hkind
    exact .inl ⟨hkind', hevolves.numeral hkind hkind'⟩
  · exact .inr heq

/-- **Numerals keep their value.** Each number among the tokens is read from the digits of a numeral
in the source, in the base that is meant there, which is between 2 and 36. If the digits are a
numeral in that base, the text of the token denotes its value in the target and nothing is reported;
otherwise the text is the digits, and one problem is reported. The radix at the end is the one in
force, and no later stage changes the text of a number, but for blanking it out. -/
theorem read_numerals {source : Text} {radix : Int} {d : Document}
    (hradix : 2 ≤ radix ∧ radix ≤ 36) (h : read source radix = .ok d) :
    (∀ (i : Id) (t : Token), d.tokens[i]? = some t → t.kind = .number →
      ∃ position digits base text, t.position = some position ∧ t.text = some text ∧
        source.HasNumeral radix position digits base ∧ (2 ≤ base ∧ base ≤ 36) ∧
        Numeral.Settles digits base text (d.numeralProblems position)) ∧
    (∃ reading base, Reading.ofSource source (some radix) = .ok reading ∧
      reading.radix = some base ∧ Stretch.InForce radix source.stretches base ∧
      2 ≤ base ∧ base ≤ 36) ∧
    ∃ normal target, d.edit Edit.normalize = .ok normal ∧
      normal.edit Retarget.retarget = .ok target ∧
      d.KeepsNumerals normal ∧ normal.KeepsNumerals target := by
  obtain ⟨r, reading, htake, hreading, hlast⟩ := exists_takeAll_of_read h
  have hread := Reader.exists_readRadix_of_takeAll htake
  obtain ⟨f, w, positions, hrecord⟩ := exists_record h
  refine ⟨fun i t ht hkind => ?_, ?_, ?_⟩
  · have hmem : t ∈ f.tokens none 0 none := by
      rw [hrecord.tokens_eq] at ht
      exact mem_of_getElem? (by simpa using ht)
    obtain ⟨before, v, after, text, rfl, hposition, htext, hcounts⟩ :=
      hrecord.spelled.countedIn t hmem hkind
    obtain ⟨digits, base, hnumeral, hbounds, hsettles⟩ :=
      hrecord.exists_numeral hradix hread hcounts
    exact ⟨v.position, digits, base, text, hposition, htext, hnumeral, hbounds, hsettles⟩
  · obtain ⟨base, hafter, hforce⟩ := Stretch.exists_inForce radix hread
    refine ⟨reading, base, hreading, ?_, hforce, hforce.bounds hradix⟩
    rw [hlast, Reader.radix_takeAll htake, hafter]
  · obtain ⟨f, normal, cs, hnormal⟩ := exists_normalized h
    obtain ⟨target, out, htarget, -⟩ := hnormal.exists_retargeted
    exact ⟨normal, target, hnormal.edit, htarget,
      (Edit.evolves_normalize hnormal.edit).keepsNumerals,
      (Retarget.evolves_retarget htarget).keepsNumerals⟩

/-- Digits with a point, digits that the radix does not have, a nested line that sets the radix, and
a marked numeral. -/
theorem read_numerals_radix :
    ∃ d, read "19 19.\n<\nRADIX 16\n>19 ^O17 ^O9" 8 = .ok d ∧
      (∀ (i : Id) (t : Token), d.tokens[i]? = some t → t.kind = .number →
        ∃ position digits base text, t.position = some position ∧ t.text = some text ∧
          ("19 19.\n<\nRADIX 16\n>19 ^O17 ^O9" : Text).HasNumeral 8 position digits base ∧
          (2 ≤ base ∧ base ≤ 36) ∧
          Numeral.Settles digits base text (d.numeralProblems position)) ∧
      ∃ normal target, d.edit Edit.normalize = .ok normal ∧
        normal.edit Retarget.retarget = .ok target ∧
        d.KeepsNumerals normal ∧ normal.KeepsNumerals target := by
  refine exists_eq_ok_and (by decide +kernel) fun hd => ?_
  obtain ⟨hnumerals, -, hstages⟩ := read_numerals (by decide) hd
  exact ⟨hnumerals, hstages⟩

end Macro10
