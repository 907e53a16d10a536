import Macro10.Proofs.Conversion

/-!
# Conversion always gives an answer

Conversion gives a text, unless the source holds a run of more decimal digits than are read
(`convert_total`). Only reading can fail, and it fails in one stretch of the source
(`exists_of_takeAll_eq_error`): a digit string, a name after a `^`, or a radix directive.
-/

namespace Macro10

open List

namespace Text

variable {t : Text}

/-- The text holds a run of more decimal digits than are read. -/
def HasLongRun (t : Text) : Prop :=
  ∃ run, run <:+: t ∧ (∀ s ∈ run, s.isDigit = true) ∧ digitLimit < run.length

theorem HasLongRun.of_isInfix {u : Text} (h : HasLongRun t) (htu : t <:+: u) : HasLongRun u := by
  obtain ⟨run, hrun, hdigits, hlength⟩ := h
  exact ⟨run, hrun.trans htu, hdigits, hlength⟩

/-! ## Words -/

theorem isInfix_splitWords (t : Text) :
    (splitWords t).1 <+: t ∧ ∀ word ∈ (splitWords t).2, word <:+: t := by
  induction t with
  | nil => exact ⟨prefix_rfl, fun _ h => (nomatch h)⟩
  | cons s t ih =>
    obtain ⟨hfirst, hrest⟩ := ih
    have htail : t <:+: s :: t := (suffix_cons s t).isInfix
    simp only [splitWords]
    split
    · refine ⟨List.nil_prefix, fun word hword => ?_⟩
      split at hword
      · exact (hrest word hword).trans htail
      · rcases mem_cons.mp hword with rfl | hword
        · exact hfirst.isInfix.trans htail
        · exact (hrest word hword).trans htail
    · exact ⟨cons_prefix_cons.mpr ⟨rfl, hfirst⟩, fun word hword =>
        (hrest word hword).trans htail⟩

/-- The words of a text are parts of it. -/
theorem infix_of_mem_words {word : Text} (h : word ∈ words t) : word <:+: t := by
  obtain ⟨hfirst, hrest⟩ := isInfix_splitWords t
  simp only [words] at h
  split at h
  · exact hrest word h
  · rcases mem_cons.mp h with rfl | h
    · exact hfirst.isInfix
    · exact hrest word h

end Text

/-! ## Reading fails in a long numeral only -/

namespace Numeral

variable {e : Failure} {digits : Text} {radix : Int}

/-- The failure is that of a numeral within `text` that is too long. -/
def TooLong (text : Text) (e : Failure) : Prop :=
  (∃ count, e = .tooManyDigits count ∧ Text.digitLimit < count) ∧ text.HasLongRun

theorem TooLong.of_isInfix {t u : Text} (h : TooLong t e) (htu : t <:+: u) : TooLong u e :=
  ⟨h.1, h.2.of_isInfix htu⟩

/-- Reading fails for too many digits only. -/
theorem tooLong_of_readDigits (h : readDigits digits 10 = .error e) : TooLong digits e := by
  obtain ⟨rfl, hlength, -, hall⟩ := readDigits_eq_error (.inl (by decide)) h
  exact ⟨⟨_, rfl, hlength⟩, digits, infix_rfl,
    fun s hs => isDigit_of_below (all_eq_true.mp hall s hs), hlength⟩

/-- A digit string that cannot be judged has too many digits. -/
theorem IsRun.tooLong_of_judgeNumber (h : IsRun digits)
    (he : judgeNumber digits radix = .error e) : TooLong digits e := by
  rw [h.judgeNumber_eq] at he
  cases hread : readDigits digits radix with
  | error e' =>
    obtain ⟨rfl, hlength, -⟩ := readDigits_eq_error (.inr h.2) hread
    rw [hread] at he
    cases he
    exact ⟨⟨_, rfl, hlength⟩, digits, infix_rfl, h.2, hlength⟩
  | ok value =>
    rw [hread] at he
    cases value with
    | none => cases he
    | some n =>
      obtain ⟨-, text, htext, -⟩ := exists_render_readDigits (.inr h.2) hread
      simp [bind, Except.bind, htext] at he

/-- A marked numeral that cannot be judged has too many digits. -/
theorem tooLong_of_judgeMarked {text : Text}
    (he : judgeMarked text radix = .error e) : TooLong text e := by
  match text with
  | [] | [_] => cases he
  | letter :: digit :: rest =>
    cases hmark : markBase? [letter] with
    | none =>
      rw [judgeMarked] at he
      simp [hmark] at he
    | some base =>
      rw [judgeMarked_eq hmark] at he
      have hbase := markBase?_cases hmark
      have hle : base ≤ 16 := by omega
      cases hread : readDigits (digit :: rest) base with
      | error e' =>
        rw [hread] at he
        cases he
        -- of the bases of marks only ten is not a power of two
        have hten : base = 10 := by
          obtain ⟨-, -, hlimited, -⟩ := readDigits_eq_error (.inl hle) hread
          rcases hbase with rfl | rfl | rfl | rfl
          · rfl
          all_goals exact absurd hlimited (by decide)
        subst hten
        exact (tooLong_of_readDigits hread).of_isInfix (suffix_cons _ _).isInfix
      | ok value =>
        rw [hread] at he
        cases value with
        | none => cases he
        | some n =>
          obtain ⟨-, new, hnew, -⟩ := exists_render_readDigits (.inl hle) hread
          simp [bind, Except.bind, hnew] at he

end Numeral

namespace Reader

variable {r : Reader} {line column : Nat} {e : Failure}

/-- An operand that cannot be judged has too many digits. -/
theorem tooLong_of_setRadix {content operand : Text}
    (he : r.setRadix line ⟨content, none⟩ operand = .error e) : Numeral.TooLong operand e := by
  cases hread : Numeral.readDigits operand 10 with
  | error e' =>
    have hradix : Numeral.readRadix operand = .error e' := by
      rw [Numeral.readRadix, hread]
      rfl
    rw [setRadix, hradix] at he
    cases he
    exact Numeral.tooLong_of_readDigits hread
  | ok value =>
    obtain ⟨radix, hradix⟩ : ∃ radix, Numeral.readRadix operand = .ok radix := by
      rw [Numeral.readRadix, hread]
      cases value <;> exact ⟨_, rfl⟩
    rw [setRadix, hradix] at he
    simp only [bind, Except.bind, hread] at he
    cases he

theorem tooLong_of_readLexeme {position : Position} {lexeme : Lexeme} (hproper : lexeme.Proper)
    (hradix : r.radix.isSome) (he : r.readLexeme position lexeme = .error e) :
    Numeral.TooLong lexeme.source e := by
  cases lexeme with
  | comment text | blank text | operator text => cases he
  | string text closed => cases closed <;> cases he
  | digits text point =>
    obtain ⟨radix, hradix⟩ : ∃ radix, r.radixOf point = .ok radix := by
      obtain ⟨radix, hradix⟩ := Option.isSome_iff_exists.mp hradix
      cases point with
      | true => exact ⟨10, rfl⟩
      | false => exact ⟨radix, by simp [radixOf, hradix]⟩
    rw [readLexeme, hradix] at he
    cases hjudge : Numeral.judgeNumber text radix with
    | error e' =>
      simp only [bind, Except.bind, Numeral.judge, hjudge] at he
      cases he
      refine (hproper.tooLong_of_judgeNumber hjudge).of_isInfix ?_
      cases point with
      | true => exact (prefix_append text _).isInfix
      | false => exact infix_rfl
    | ok verdict =>
      simp only [bind, Except.bind, Numeral.judge, hjudge] at he
      cases he
  | name text =>
    cases hjudge : r.judgeName text with
    | error e' =>
      rw [readLexeme, hjudge] at he
      cases he
      rw [judgeName, Numeral.judge] at hjudge
      split at hjudge
      · exact Numeral.tooLong_of_judgeMarked hjudge
      · cases hjudge
    | ok verdict =>
      rw [readLexeme, hjudge] at he
      cases he

/-- A stretch that cannot be read has too many digits. -/
theorem tooLong_of_take {s : Stretch} (hproper : s.Proper) (hradix : r.radix.isSome)
    (he : r.take line column s = .error e) : Numeral.TooLong s.source e := by
  cases s with
  | lexeme l => exact tooLong_of_readLexeme hproper hradix he
  | setRadix content operand =>
    cases hset : r.setRadix line ⟨content, none⟩ operand with
    | error e' =>
      rw [take, hset] at he
      cases he
      exact (tooLong_of_setRadix hset).of_isInfix
        (Text.infix_of_mem_words (LineClass.mem_words (.inr hproper)))
    | ok r' =>
      rw [take, hset] at he
      cases he
  | terminator | remark | opening | closing | unended => cases he

theorem exists_of_takeAll_eq_error {stretches : List Stretch} (hproper : ∀ s ∈ stretches, s.Proper)
    (hradix : r.radix.isSome) (he : r.takeAll line column stretches = .error e) :
    ∃ s ∈ stretches, Numeral.TooLong s.source e := by
  induction stretches generalizing r line column with
  | nil => cases he
  | cons s rest ih =>
    obtain ⟨hs, hrest⟩ := forall_mem_cons.mp hproper
    cases htake : r.take line column s with
    | error e' =>
      rw [takeAll, htake] at he
      cases he
      exact ⟨s, mem_cons_self, tooLong_of_take hs hradix htake⟩
    | ok r' =>
      rw [takeAll, htake] at he
      have hradix' : r'.radix.isSome := by
        rw [radix_take htake]
        cases s with
        | setRadix => rfl
        | lexeme | terminator | remark | opening | closing | unended => exact hradix
      obtain ⟨s', hs', hlong⟩ := ih hrest hradix' he
      exact ⟨s', mem_cons_of_mem _ hs', hlong⟩

/-- A source that cannot be read has too many digits in a row. -/
theorem tooLong_of_readLines {source : Text} {radix : Int} {i : Interruption}
    (h : ({ radix := some radix } : Reader).readLines 1 none (Line.split source) = .error i) :
    Numeral.TooLong source i.cause := by
  have htake := readLines_eq { radix := some radix } 1 none (Line.ended_split source)
  rw [h] at htake
  obtain ⟨s, hs, hlong⟩ := exists_of_takeAll_eq_error
    (fun s hs => Text.proper_of_mem_stretches hs) rfl htake.symm
  refine hlong.of_isInfix ?_
  obtain ⟨before, after, hsplit⟩ := append_of_mem hs
  have hsource := Text.flatMap_source_stretches source
  rw [hsplit, flatMap_append, flatMap_cons, ← append_assoc] at hsource
  exact ⟨_, _, hsource⟩

end Reader

/-- **Conversion gives a text, or the source holds more consecutive digits than are read.** Nothing
else can stop it: neither malformed input, nor a document whose links do not fit. -/
theorem convert_total (source : Text) (includes : List Text) (radix : Int) :
    (∃ out, convert source includes radix = .ok out) ∨
      ∃ count, convert source includes radix = .error (.tooManyDigits count) ∧
        Text.digitLimit < count ∧ source.HasLongRun := by
  cases h : ({ radix := some radix } : Reader).readLines 1 none (Line.split source) with
  | ok r => exact .inl ⟨_, convert_of_readLines h includes⟩
  | error i =>
    obtain ⟨⟨count, hcause, hcount⟩, hlong⟩ := Reader.tooLong_of_readLines h
    refine .inr ⟨count, ?_, hcount, hlong⟩
    have hread : read source radix = .error (.tooManyDigits count) := by
      rw [read, Reading.ofSource, h, ← hcause]
      rfl
    rw [convert, convertDocument, hread]
    rfl

end Macro10
