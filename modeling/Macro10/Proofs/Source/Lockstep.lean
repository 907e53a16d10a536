import Macro10.Proofs.Values

/-!
# A source read in two radixes

Until a line sets the radix, two readings of a source may make different numerals of the same
digits; after it they read alike. So they differ in nothing but digit strings without a point before
such a line (`Text.HasBareRun`, `exists_alike_records`).
-/

namespace Macro10

open List
open Stretch (columnsAfter lexeme linesAfter operand?)

variable {digits source : Text} {f : Forest} {position p : Position} {radix : Int} {d : Document}
  {w : List Visit} {positions : List Position} {t : Token}

/-! ## Where the radix of the source is still in force -/

/-- A digit string without a point starts at the position, and no line before it sets the radix. -/
def Text.HasBareRun (source : Text) (p : Position) : Prop :=
  ∃ before digits after, source.stretches = before ++ .lexeme (.digits digits false) :: after ∧
    before.filterMap operand? = [] ∧
    p = positionAfter (before.flatMap Stretch.source)

/-- The position comes before every line that sets the radix. -/
def Text.BeforeRadix (source : Text) (p : Position) : Prop :=
  ∀ before content operand after, source.stretches = before ++ .setRadix content operand :: after →
    p.Before (positionAfter (before.flatMap Stretch.source))

/-! ## Numerals -/

theorem Symbol.mem_literalMarks_of_isDigit {s : Symbol} (h : s.isDigit = true) :
    s ∈ Text.literalMarks := by
  cases s with
  | stray b => cases h
  | char c =>
    simp only [Symbol.isDigit, Bool.and_eq_true, decide_eq_true_eq, Char.le_def,
      UInt32.le_iff_toNat_le] at h
    have hall : ∀ n ∈ List.range' 0x30 10, Symbol.char (Char.ofNat n) ∈ Text.literalMarks := by
      decide
    have hc := hall c.toNat (mem_range'_1.mpr ⟨h.1, Nat.lt_succ_of_le h.2⟩)
    rwa [Char.ofNat_toNat] at hc

namespace Numeral

theorem IsRun.opensLiteral (h : IsRun digits) : digits.opensLiteral = true := by
  cases digits with
  | nil => exact absurd rfl h.1
  | cons s rest =>
    exact elem_iff.mpr (Symbol.mem_literalMarks_of_isDigit (h.2 s mem_cons_self))

theorem opensLiteral_of_targetValue? {t : Text} {n : Nat} (h : targetValue? t = some n) :
    t.opensLiteral = true := by
  unfold targetValue? at h
  split at h
  · rfl
  · split at h
    · next hcond =>
      simp only [Bool.and_eq_true, Bool.not_eq_true', isEmpty_eq_false_iff] at hcond
      cases t with
      | nil => exact absurd rfl hcond.1
      | cons s rest =>
        have hs := isDigit_of_below (all_eq_true.mp hcond.2 s mem_cons_self)
        exact elem_iff.mpr (Symbol.mem_literalMarks_of_isDigit hs)
    · cases h

/-- Only its own mark tells the base of a marked numeral. -/
theorem judgeMarked_congr (text : Text) (radix radix' : Int) :
    judgeMarked text radix = judgeMarked text radix' := by
  match text with
  | [] | [_] => rfl
  | letter :: digit :: rest =>
    cases hmark : markBase? [letter] with
    | none =>
      rw [judgeMarked, judgeMarked]
      simp only [hmark]
    | some base => rw [judgeMarked_eq hmark, judgeMarked_eq hmark]

end Numeral

/-! ## Forests -/

variable {P : Position → Prop}

namespace Forest

/-- The forests differ in nothing but the texts of numerals at the positions that `P` allows. -/
inductive Alike (P : Position → Prop) : Forest → Forest → Prop
  | nil : Alike P .nil .nil
  | leaf {kind : Kind} {text text' : Text} {position : Position} {f g : Forest}
      (htext : text' = text ∨ (kind = .number ∧ P position) ∧ text.opensLiteral = true ∧
        text'.opensLiteral = true)
      (h : Alike P f g) : Alike P (.leaf kind text position f) (.leaf kind text' position g)
  | group {position : Position} {closed : Bool} {inside inside' f g : Forest}
      (hinside : Alike P inside inside') (h : Alike P f g) :
      Alike P (.group position closed inside f) (.group position closed inside' g)

namespace Alike

variable {g : Forest}

section

variable (h : f.Alike P g)
include h

theorem reverseOnto {done done' : Forest} (hdone : done.Alike P done') :
    (f.reverseOnto done).Alike P (g.reverseOnto done') := by
  induction h generalizing done done' with
  | nil => exact hdone
  | leaf htext _ ih => exact ih (.leaf htext hdone)
  | group hinside _ _ ih => exact ih (.group hinside hdone)

theorem reverse : f.reverse.Alike P g.reverse := h.reverseOnto .nil

theorem size : g.size = f.size := by
  induction h with
  | nil => rfl
  | leaf _ _ ih => rw [Forest.size, Forest.size, ih]
  | group _ _ ihinside ih => rw [Forest.size, Forest.size, ihinside, ih]

theorem ids (first : Id) : g.ids first = f.ids first := by
  induction h generalizing first with
  | nil => rfl
  | leaf _ _ ih => rw [Forest.ids, Forest.ids, ih]
  | group hinside _ _ ih => rw [Forest.ids, Forest.ids, hinside.size, ih]

theorem head? (first : Id) : g.head? first = f.head? first := by
  cases h <;> rfl

theorem endsWithMark : g.endsWithMark = f.endsWithMark := by
  cases h with
  | nil | group => rfl
  | @leaf kind text text' position f g htext h =>
    rcases htext with rfl | ⟨⟨rfl, -⟩, -⟩
    · unfold Forest.endsWithMark
      split <;> split <;> simp_all
    · rfl

/-- The tokens of the forests are alike one by one. -/
theorem tokens (parent : Option Id) (first : Id) (prev : Option Id) :
    List.Forall₂ (Token.Alike P) (f.tokens parent first prev) (g.tokens parent first prev) := by
  induction h generalizing parent first prev with
  | nil => exact .nil
  | @leaf kind text text' position f g htext h ih =>
    refine .cons ⟨by rw [h.head?], ?_⟩ (ih _ _ _)
    rcases htext with rfl | ⟨⟨hkind, hposition⟩, ht, ht'⟩
    · exact .inl rfl
    · exact .inr ⟨.inl ⟨hkind, position, rfl, hposition⟩, ht, ht'⟩
  | group hinside h ihinside ih =>
    simp only [Forest.tokens, hinside.size, hinside.ids, h.head?]
    exact .cons (.refl _) (rel_append (ihinside _ _ _) (ih _ _ _))

theorem ofForest {newline : Text} {ds es : List Diagnostic}
    (hlasting : es.filter (fun x => !x.problem.isBareNumeral) =
      ds.filter fun x => !x.problem.isBareNumeral) :
    (Document.ofForest f newline ds).Alike P (.ofForest g newline es) where
  size := by simp [h.size]
  root := h.ids 0
  newline := rfl
  lasting := hlasting
  tokens := by
    intro i t u ht hu
    simp only [Document.ofForest, getElem?_toArray] at ht hu
    have htokens := h.tokens none 0 none
    obtain ⟨hi, rfl⟩ := List.getElem?_eq_some_iff.mp ht
    obtain ⟨hi', rfl⟩ := List.getElem?_eq_some_iff.mp hu
    exact htokens.get hi hi'

end

end Alike

end Forest

/-! ## Readers -/

namespace Reader

/-- What was read so far differs in nothing but the texts of numerals at the positions that `P`
allows, and in the warnings about digit strings. -/
structure Alike (P : Position → Prop) (r s : Reader) : Prop where
  scope : r.scope.Alike P s.scope
  frames : List.Forall₂ (fun f g => g.position = f.position ∧ f.before.Alike P g.before)
    r.frames s.frames
  lasting : s.diagnostics.filter (fun x => !x.problem.isBareNumeral) =
    r.diagnostics.filter fun x => !x.problem.isBareNumeral

variable {r r' s s' : Reader} {line column : Nat}

namespace Alike

section

variable (h : r.Alike P s)
include h

theorem put (kind : Kind) (text : Text) (position : Position) :
    (r.put kind text position).Alike P (s.put kind text position) :=
  ⟨.leaf (.inl rfl) h.scope, h.frames, h.lasting⟩

theorem report (problem : Problem) (position : Position) (length : Int) (severity : Severity) :
    (r.report problem position length severity).Alike P
      (s.report problem position length severity) := by
  refine ⟨h.scope, h.frames, ?_⟩
  simp only [Reader.report, filter_append, h.lasting]

theorem afterMark : s.afterMark = r.afterMark := by
  rw [afterMark_eq_endsWithMark, afterMark_eq_endsWithMark, h.scope.endsWithMark]

theorem blankLast : r.blankLast.Alike P s.blankLast := by
  obtain ⟨hscope, hframes, hlasting⟩ := h
  unfold Reader.blankLast
  cases hr : r.scope with
  | nil =>
    rw [hr] at hscope
    cases hs : s.scope with
    | nil => exact ⟨by rw [hr, hs]; exact .nil, hframes, hlasting⟩
    | leaf | group => rw [hs] at hscope; cases hscope
  | group position closed inside rest =>
    rw [hr] at hscope
    cases hs : s.scope with
    | group => rw [hs] at hscope; exact ⟨by rw [hr, hs]; exact hscope, hframes, hlasting⟩
    | nil | leaf => rw [hs] at hscope; cases hscope
  | leaf kind text position rest =>
    rw [hr] at hscope
    cases hs : s.scope with
    | nil | group => rw [hs] at hscope; cases hscope
    | leaf =>
      rw [hs] at hscope
      cases hscope with
      | leaf _ hrest => exact ⟨.leaf (.inl rfl) hrest, hframes, hlasting⟩

theorem closeGroup (position : Position) :
    (r.closeGroup position).Alike P (s.closeGroup position) := by
  obtain ⟨hscope, hframes, hlasting⟩ := h
  unfold Reader.closeGroup
  cases hr : r.frames with
  | nil =>
    rw [hr] at hframes
    rw [forall₂_nil_left_iff.mp hframes]
    exact Alike.report ⟨hscope, by rw [hr]; exact hframes, hlasting⟩ ..
  | cons f frames =>
    rw [hr] at hframes
    obtain ⟨g, frames', ⟨hposition, hbefore⟩, hrest, hs⟩ := forall₂_cons_left_iff.mp hframes
    rw [hs]
    dsimp only
    rw [hposition]
    exact ⟨.group hscope.reverse hbefore, hrest, hlasting⟩

theorem endGroups {fs gs : List Frame}
    (hframes : List.Forall₂ (fun f g => g.position = f.position ∧ f.before.Alike P g.before) fs
      gs) :
    (r.endGroups fs).Alike P (s.endGroups gs) := by
  induction hframes generalizing r s with
  | nil => exact ⟨h.scope, .nil, h.lasting⟩
  | @cons f g fs gs hfg _ ih =>
    obtain ⟨hposition, hbefore⟩ := hfg
    rw [Reader.endGroups, Reader.endGroups, hposition]
    have hreport := h.report .neverClosed f.position 1 .warning
    exact ih ⟨.group hreport.scope.reverse hbefore, hreport.frames, hreport.lasting⟩

omit h in
theorem parallel : Parallel Eq (Alike P) where
  lineStart hp := by rw [hp]
  put h hp _ _ text := hp ▸ h.put _ text _
  report h hp _ _ _ := hp ▸ h.report ..
  blankLast h _ _ := h.blankLast
  openGroup h hp := hp ▸ ⟨.nil, .cons ⟨rfl, h.scope⟩ h.frames, h.lasting⟩
  noteRadix h _ _ := ⟨h.scope, h.frames, h.lasting⟩

/-- A digit string. In the same radix it becomes the same; in any radix it starts like a literal. -/
theorem readLexeme_digits {point : Bool}
    (hrun : Numeral.IsRun digits) (hradix : s.radix = r.radix ∨ point = true ∨ P position)
    (hr : r.readLexeme position (.digits digits point) = .ok r')
    (hs : s.readLexeme position (.digits digits point) = .ok s') : r'.Alike P s' := by
  by_cases hsame : s.radixOf point = r.radixOf point
  · refine (parallel.readLexeme h rfl ?_).of_eq_ok hr hs
    rw [verdictOn, verdictOn, hsame, h.afterMark]
  · have hP : P position := by
      rcases hradix with heq | rfl | hP
      · exact absurd (by rw [radixOf, radixOf, heq]) hsame
      · exact absurd rfl hsame
      · exact hP
    obtain ⟨base, -, hr⟩ := bind_eq_ok.mp hr
    obtain ⟨base', -, hs⟩ := bind_eq_ok.mp hs
    obtain ⟨verdict, hverdict, hr⟩ := bind_eq_ok.mp hr
    obtain ⟨verdict', hverdict', hs⟩ := bind_eq_ok.mp hs
    cases hr
    cases hs
    -- each side adds a numeral, and possibly a warning about it
    have hside {r : Reader} {base : Int} {verdict : Numeral.Verdict}
        (hverdict : Numeral.judgeNumber digits base = .ok verdict) :
        ∃ new ds, r.settle .number digits position verdict =
            { r with scope := .leaf .number new position r.scope,
                     diagnostics := r.diagnostics ++ ds } ∧
          new.opensLiteral = true ∧ ds.filter (fun x => !x.problem.isBareNumeral) = [] := by
      rcases hrun.judgeNumber_cases hverdict with ⟨new, rfl, hvalue, -⟩ | ⟨rfl, -⟩
      · exact ⟨new, [], by simp [Reader.settle, Reader.put],
          Numeral.opensLiteral_of_targetValue? hvalue, rfl⟩
      · exact ⟨digits, [⟨.badNumeral digits base, position, .warning, digits.length⟩],
          by simp [Reader.settle, Reader.put, Reader.report], hrun.opensLiteral, rfl⟩
    obtain ⟨a, ds, hr, ha, hds⟩ := hside hverdict
    obtain ⟨b, es, hs, hb, hes⟩ := hside hverdict'
    rw [hr, hs]
    refine ⟨.leaf (.inr ⟨⟨rfl, hP⟩, ha, hb⟩) h.scope, h.frames, ?_⟩
    simp only [filter_append, hds, hes, h.lasting]

/-- **Two readers take a stretch in step.** -/
theorem take {x : Stretch} (hproper : x.Proper)
    (hradix : s.radix = r.radix ∨ ∀ digits, x = .lexeme (.digits digits false) → P ⟨line, column⟩)
    (hr : r.take line column x = .ok r') (hs : s.take line column x = .ok s') : r'.Alike P s' := by
  by_cases hdigits : ∃ digits point, x = .lexeme (.digits digits point)
  · obtain ⟨digits, point, rfl⟩ := hdigits
    refine h.readLexeme_digits hproper (hradix.imp_right fun hP => ?_) hr hs
    cases point with
    | true => exact .inl rfl
    | false => exact .inr (hP digits rfl)
  · refine (parallel.take h rfl ?_ fun _ => h.closeGroup _).of_eq_ok hr hs
    rintro l rfl
    cases l with
    | comment | string | blank | operator => rfl
    | digits digits point => exact absurd ⟨digits, point, rfl⟩ hdigits
    | name text =>
      simp only [verdictOn, judgeName, Numeral.judge, h.afterMark]
      split
      · exact Numeral.judgeMarked_congr ..
      · rfl

end

end Alike

/-- **Two readers take the stretches of a source in step.** The radixes agree from the first line on
that sets one. -/
theorem alike_takeAll (before : List Stretch) {rest : List Stretch}
    (hsource : source.stretches = before ++ rest) (h : r.Alike source.HasBareRun s)
    (hradix : s.radix = r.radix ∨ before.filterMap operand? = [])
    (hr : r.takeAll (linesAfter 1 before) (columnsAfter 1 before) rest = .ok r')
    (hs : s.takeAll (linesAfter 1 before) (columnsAfter 1 before) rest = .ok s') :
    r'.Alike source.HasBareRun s' := by
  induction rest generalizing r s before with
  | nil =>
    cases hr
    cases hs
    exact h
  | cons x rest ih =>
    obtain ⟨r₁, hr₁, hr⟩ := bind_eq_ok.mp hr
    obtain ⟨s₁, hs₁, hs⟩ := bind_eq_ok.mp hs
    have hmem : x ∈ source.stretches := hsource ▸ mem_append_right _ mem_cons_self
    have hplace : Text.positionAfter (before.flatMap Stretch.source) =
        ⟨linesAfter 1 before, columnsAfter 1 before⟩ := by
      rw [Text.positionAfter, Text.place_stretches hsource]
    have halike : r₁.Alike source.HasBareRun s₁ := by
      refine h.take (Text.proper_of_mem_stretches hmem)
        (hradix.imp_right fun hunset digits hx => ?_) hr₁ hs₁
      exact ⟨before, digits, rest, hx ▸ hsource, hunset, hplace.symm⟩
    refine ih (before ++ [x]) (by simp [hsource]) halike ?_
      (by rw [Stretch.linesAfter_append, Stretch.columnsAfter_append]; exact hr)
      (by rw [Stretch.linesAfter_append, Stretch.columnsAfter_append]; exact hs)
    rw [radix_take hr₁, radix_take hs₁, filterMap_append]
    cases x with
    | setRadix content operand => exact .inl rfl
    | lexeme | terminator | remark | opening | closing | unended =>
      simpa [Stretch.radixAfter, operand?] using hradix

end Reader

/-- **A source read in two radixes.** The documents differ in nothing but the numerals of digit
strings without a point before the first line that sets the radix, and in the warnings about digit
strings. -/
theorem exists_alike_records {radix' : Int} {e : Document}
    (hd : read source radix = .ok d) (he : read source radix' = .ok e) :
    ∃ f w positions g w' positions', Record source radix d f w positions ∧
      Record source radix' e g w' positions' ∧ f.Alike source.HasBareRun g ∧
      d.Alike source.HasBareRun e := by
  obtain ⟨r, hr, -, rfl⟩ := exists_forest_of_read hd
  obtain ⟨s, hs, -, rfl⟩ := exists_forest_of_read he
  obtain ⟨w, positions, hrecord⟩ := exists_record_of_readLines hr
  obtain ⟨w', positions', hrecord'⟩ := exists_record_of_readLines hs
  have hstart : ({ radix := some radix } : Reader).Alike source.HasBareRun
      { radix := some radix' } := ⟨.nil, .nil, rfl⟩
  have halike := Reader.alike_takeAll [] rfl hstart (.inr rfl)
    (Reader.readLines_split_eq_ok.mp hr) (Reader.readLines_split_eq_ok.mp hs)
  have hend := halike.endGroups halike.frames
  exact ⟨_, w, positions, _, w', positions', hrecord, hrecord', hend.scope.reverse,
    hend.scope.reverse.ofForest hend.lasting⟩

/-! ## The order of positions -/

theorem Position.Before.of_not_before {q r : Position} (h : q.Before r) (hqp : ¬q.Before p) :
    p.Before r := by
  unfold Position.Before at *
  omega

/-- No visit on a route stands before an earlier one. -/
theorem Visit.Route.pairwise_not_before {line column : Nat} {radix : Option Int}
    (h : Visit.Route line column radix w) :
    w.Pairwise fun u v => ¬v.position.Before u.position := by
  induction w generalizing line column radix with
  | nil => exact .nil
  | cons u w ih =>
    obtain ⟨hline, hcolumn, hradix, hrest⟩ := h
    refine .cons (fun v hv => ?_) (ih hrest)
    have hroute : Visit.Route line column radix (u :: w) := ⟨hline, hcolumn, hradix, hrest⟩
    have hstart := hroute.start_le v (mem_cons_of_mem _ hv)
    unfold Position.Before Visit.position
    simp only
    omega

theorem Forest.Spelled.positions_sublist {top mark : Bool} (h : Spelled top mark f w positions)
    (parent : Option Id) (first : Id) (prev : Option Id) :
    ((f.tokens parent first prev).map Token.position).Sublist (w.map fun v => some v.position) := by
  induction h generalizing parent first prev with
  | nil => exact .slnil
  | silent _ _ ih => exact (ih _ _ _).cons _
  | leaf _ _ ih => exact (ih _ _ _).cons_cons _
  | pair _ _ _ _ ih =>
    simp only [Forest.tokens, map_cons, map_append]
    refine .cons_cons _ (.trans ?_ (sublist_append_right _ _))
    exact (ih _ _ _).cons_cons _
  | group _ _ _ _ ihinside ih =>
    simp only [Forest.tokens, map_cons, map_append]
    exact .cons_cons _ ((ihinside _ _ _).append ((ih _ _ _).cons _))
  | unclosed _ _ ih =>
    simp only [Forest.tokens, map_cons, append_nil]
    exact .cons_cons _ (ih _ _ _)

namespace Record

section

variable (h : Record source radix d f w positions)
include h

theorem exists_position {i : Id} (ht : d.tokens[i]? = some t) : ∃ p, t.position = some p := by
  rw [h.tokens_eq, getElem?_toArray] at ht
  have hmem := (h.spelled.positions_sublist none 0 none).subset
    (mem_map_of_mem (mem_of_getElem? ht))
  obtain ⟨v, -, hv⟩ := mem_map.mp hmem
  exact ⟨v.position, hv.symm⟩

/-- No token stands before an earlier one. -/
theorem not_before {i j : Id} {u : Token}
    {q : Position} (ht : d.tokens[i]? = some t) (hu : d.tokens[j]? = some u) (hij : i < j)
    (hp : t.position = some p) (hq : u.position = some q) : ¬q.Before p := by
  have hsorted : ((f.tokens none 0 none).map Token.position).Pairwise
      fun a b => ∀ p q, a = some p → b = some q → ¬q.Before p := by
    refine List.Pairwise.sublist (h.spelled.positions_sublist none 0 none) ?_
    refine pairwise_map.mpr (h.route.pairwise_not_before.imp ?_)
    rintro u v huv _ _ ⟨⟩ ⟨⟩
    exact huv
  rw [h.tokens_eq, getElem?_toArray] at ht hu
  obtain ⟨hi, rfl⟩ := List.getElem?_eq_some_iff.mp ht
  obtain ⟨hj, rfl⟩ := List.getElem?_eq_some_iff.mp hu
  have hpair := pairwise_iff_getElem.mp hsorted i j (by simpa using hi) (by simpa using hj) hij
  simp only [getElem_map] at hpair
  exact hpair p q hp hq

/-- A digit string with no line before it that sets the radix stands before all such lines. -/
theorem beforeRadix (hp : source.HasBareRun p) : source.BeforeRadix p := by
  obtain ⟨before, digits, after, hrun, hunset, rfl⟩ := hp
  intro before' content operand after' hset
  -- the digits come first, because no line before them sets the radix
  obtain ⟨mid, rfl⟩ : ∃ mid, before' = before ++ .lexeme (.digits digits false) :: mid := by
    rcases append_eq_append_iff.mp (hrun.symm.trans hset) with
      ⟨mid, rfl, heq⟩ | ⟨mid, rfl, heq⟩
    · cases mid with
      | nil => cases heq
      | cons x mid =>
        obtain ⟨rfl, -⟩ := List.cons.inj heq
        exact ⟨mid, rfl⟩
    · cases mid with
      | nil => cases heq
      | cons x mid =>
        obtain ⟨rfl, -⟩ := List.cons.inj heq
        simp [operand?] at hunset
  have hw := h.stretches.trans hset
  rw [append_assoc, cons_append] at hw
  obtain ⟨w₁, _, rfl, rfl, hrest⟩ := map_eq_append_iff.mp hw
  obtain ⟨v, _, rfl, hv, hrest'⟩ := map_eq_cons_iff.mp hrest
  obtain ⟨w₂, _, rfl, rfl, hlast⟩ := map_eq_append_iff.mp hrest'
  obtain ⟨u, w₃, rfl, -, -⟩ := map_eq_cons_iff.mp hlast
  have hpv := h.route.position_eq h.stretches
  have hroute := h.route
  have hstretches := h.stretches
  rw [← cons_append, ← append_assoc] at hroute hstretches
  have hpu := hroute.position_eq hstretches
  rw [map_append, map_cons, hv] at hpu
  rw [← hpv, ← hpu]
  have hpairwise := (pairwise_append.mp h.route.pairwise).2.1
  refine (pairwise_cons.mp hpairwise).1 u (by simp) ?_
  rw [hv]
  have hproper : (lexeme (.digits digits false)).Proper :=
    Text.proper_of_mem_stretches (hrun ▸ mem_append_right _ mem_cons_self)
  simpa [Stretch.source, Lexeme.source] using hproper.1

end

end Record

end Macro10
