import Macro10.Numeral.Reading
import Mathlib.Data.List.TakeWhile
import Mathlib.Data.Nat.Digits.Lemmas

/-!
# Numerals keep their value

A symbol passes for a digit if its capital is one; two letters without a value do so too
(`admits_eq`), but not in bases up to 16. There reading can fail for the number of digits only
(`readDigits_eq`). What is written for a value denotes that value in the target (`exists_render`).
-/

namespace Macro10

open List
open Text (digitLimit upperChar)

variable {n : Nat} {base : Int}

/-! ## Capitals -/

namespace Text

variable {c : Char}

theorem exists_of_capitalOf {m : Nat} {runs : List CaseRun} (h : capitalOf n runs = some m) :
    ∃ run ∈ runs, run.first ≤ n ∧ n ≤ run.last ∧ m = run.capital + (n - run.first) := by
  induction runs with
  | nil => cases h
  | cons run rest ih =>
    rw [capitalOf] at h
    split at h
    · cases h
    · next hfirst =>
      split at h
      · next hlast =>
        simp only [Bool.and_eq_true, decide_eq_true_eq] at hlast
        exact ⟨run, mem_cons_self, by omega, hlast.1, (Option.some.inj h).symm⟩
      · obtain ⟨run', hrun', hbounds⟩ := ih h
        exact ⟨run', mem_cons_of_mem _ hrun', hbounds⟩

/-- Of the letters with an ASCII capital only the dotless i and the long s are no ASCII letters. -/
theorem caseRuns_ascii : ∀ run ∈ caseRuns,
    (run.first = 0x61 ∧ run.last = 0x7A ∧ run.capital = 0x41) ∨
      (run.first = run.last ∧ (run.first = 0x131 ∧ run.capital = 0x49 ∨
        run.first = 0x17F ∧ run.capital = 0x53)) ∨
      0x80 ≤ run.capital := by
  decide +kernel

theorem two_le_length_expansions : ∀ e ∈ expansions, 2 ≤ e.2.length := by
  decide +kernel

theorem mem_of_expansionOf {points : List Nat} {table : List (Nat × List Nat)}
    (h : expansionOf n table = some points) : (n, points) ∈ table := by
  induction table with
  | nil => cases h
  | cons e rest ih =>
    obtain ⟨m, points'⟩ := e
    rw [expansionOf] at h
    split at h
    · cases h
    · split at h
      · next heq =>
        cases h
        rw [heq]
        exact mem_cons_self
      · exact mem_cons_of_mem _ (ih h)

theorem upperChar_of_lt (h : c.toNat < 0x61) : upperChar c = [c] := by
  have hcapital : capitalOf c.toNat caseRuns = none := by
    rw [caseRuns, capitalOf, if_pos h]
  have hexpansion : expansionOf c.toNat expansions = none := by
    rw [expansions, expansionOf, if_pos (by omega)]
  rw [upperChar, hcapital]
  simp only [hexpansion]

theorem upperChar_of_small (h : 0x61 ≤ c.toNat) (h' : c.toNat ≤ 0x7A) :
    upperChar c = [Char.ofNat (0x41 + (c.toNat - 0x61))] := by
  have hcapital : capitalOf c.toNat caseRuns = some (0x41 + (c.toNat - 0x61)) := by
    rw [caseRuns, capitalOf, if_neg (not_lt.mpr h), if_pos (by simp [h', Nat.mod_one])]
  rw [upperChar, hcapital]

end Text

namespace Numeral

variable {c : Char} {s letter digit : Symbol} {k : Nat} {rest : List Nat} {text t new : Text}
  {verdict : Verdict} {radix : Int}

/-! ## The symbols that pass for digits -/

/-- The symbol is a digit below `base`. -/
def below (base : Nat) (s : Symbol) : Bool := (digitValue? s).any (· < base)

theorem charValue?_of_isDigit (h : (Symbol.char c).isDigit = true) :
    charValue? c = some (c.toNat - 0x30) := by
  simp only [Symbol.isDigit, Bool.and_eq_true, decide_eq_true_eq, Char.le_def,
    UInt32.le_iff_toNat_le] at h
  rw [charValue?]
  exact if_pos (by simpa using h)

theorem admits_of_upperChar {u : Char} (h : upperChar c = [u]) (base : Nat) :
    admits base (.char c) = below base (.char u) := by
  rw [admits, Text.upperSymbol, h]
  simp only [map_cons, map_nil, below]
  cases digitValue? (.char u) <;> rfl

/-- A digit from ten on is a letter of either case. -/
theorem charValue?_eq_some {v : Nat} (h : charValue? c = some v) :
    (0x30 ≤ c.toNat ∧ c.toNat ≤ 0x39 ∧ v = c.toNat - 0x30) ∨
      (0x41 ≤ c.toNat ∧ c.toNat ≤ 0x5A ∧ v = c.toNat - 0x41 + 10) ∨
      (0x61 ≤ c.toNat ∧ c.toNat ≤ 0x7A ∧ v = c.toNat - 0x61 + 10) := by
  simp only [charValue?, Bool.and_eq_true, decide_eq_true_eq] at h
  split at h
  · next hc => exact .inl ⟨hc.1, hc.2, (Option.some.inj h).symm⟩
  · split at h
    · next hc => exact .inr (.inl ⟨hc.1, hc.2, (Option.some.inj h).symm⟩)
    · split at h
      · next hc => exact .inr (.inr ⟨hc.1, hc.2, (Option.some.inj h).symm⟩)
      · cases h

theorem isDigit_of_below (h : below 10 s = true) : s.isDigit = true := by
  cases s with
  | stray b => cases h
  | char c =>
    obtain ⟨v, hv, hlt⟩ := (Option.any_eq_true _ _).mp h
    have hlt : v < 10 := by simpa using hlt
    have hbounds : 0x30 ≤ c.toNat ∧ c.toNat ≤ 0x39 := by
      have := charValue?_eq_some hv
      omega
    simpa [Symbol.isDigit, Char.le_def, UInt32.le_iff_toNat_le] using hbounds

theorem charValue?_capital (h : 0x61 ≤ c.toNat) (h' : c.toNat ≤ 0x7A) :
    charValue? (Char.ofNat (0x41 + (c.toNat - 0x61))) = charValue? c := by
  have hall : ∀ n ∈ List.range 26,
      charValue? (Char.ofNat (0x41 + n)) = charValue? (Char.ofNat (0x61 + n)) := by decide
  have hc := hall (c.toNat - 0x61) (mem_range.mpr (by omega))
  rwa [show 0x61 + (c.toNat - 0x61) = c.toNat by omega, Char.ofNat_toNat] at hc

/-- The symbol passes for a digit below `base` and has no value: the capital of the dotless i is the
digit `I`, that of the long s the digit `S`. -/
def foreign (base : Nat) (s : Symbol) : Bool :=
  (s = .char '\u0131' && 18 < base) || (s = .char '\u017F' && 28 < base)

theorem foreign_eq_false {base : Nat} (h : base ≤ 16 ∨ s.isDigit = true) :
    foreign base s = false := by
  refine Bool.eq_false_iff.mpr fun hforeign => ?_
  simp only [foreign, Bool.or_eq_true, Bool.and_eq_true, decide_eq_true_eq] at hforeign
  rcases h with hbase | hdigit
  · omega
  · rcases hforeign with ⟨rfl, -⟩ | ⟨rfl, -⟩ <;> cases hdigit

/-- A character that is no ASCII letter has no capital that is a digit, the two letters apart. -/
theorem not_below_of_capitalOf {m base : Nat} (hforeign : foreign base (.char c) = false)
    (hc : 0x7A < c.toNat) (h : Text.capitalOf c.toNat Text.caseRuns = some m) :
    below base (.char (Char.ofNat m)) = false := by
  obtain ⟨run, hrun, hfirst, hlast, rfl⟩ := Text.exists_of_capitalOf h
  refine Bool.eq_false_iff.mpr fun hbelow => ?_
  obtain ⟨v, hv, hlt⟩ : ∃ v, charValue? (Char.ofNat (run.capital + (c.toNat - run.first))) =
      some v ∧ v < base := by
    simpa [below, Option.any_eq_true, digitValue?] using hbelow
  have hn : (Char.ofNat (run.capital + (c.toNat - run.first))).toNat =
      run.capital + (c.toNat - run.first) ∨
      (Char.ofNat (run.capital + (c.toNat - run.first))).toNat = 0 := by
    by_cases hvalid : (run.capital + (c.toNat - run.first)).isValidChar
    · rw [Char.ofNat, dif_pos hvalid]
      exact .inl rfl
    · rw [Char.ofNat, dif_neg hvalid]
      exact .inr rfl
  have hbase : (c.toNat = 0x131 → base ≤ 18) ∧ (c.toNat = 0x17F → base ≤ 28) := by
    constructor
    · intro hi
      obtain rfl : c = '\u0131' := Char.toNat_inj.mp hi
      simpa [foreign] using hforeign
    · intro hs
      obtain rfl : c = '\u017F' := Char.toNat_inj.mp hs
      simpa [foreign] using hforeign
  have hvalue := charValue?_eq_some hv
  rcases Text.caseRuns_ascii run hrun with h | h | h <;> omega

theorem admits_eq_below {base : Nat} (h : foreign base s = false) :
    admits base s = below base s := by
  cases s with
  | stray b => rfl
  | char c =>
    by_cases hsmall : c.toNat < 0x61
    · exact admits_of_upperChar (Text.upperChar_of_lt hsmall) base
    · by_cases hlarge : c.toNat ≤ 0x7A
      · rw [admits_of_upperChar (Text.upperChar_of_small (by omega) hlarge), below, below,
          digitValue?, digitValue?, charValue?_capital (by omega) hlarge]
      · -- neither the symbol nor its capital is a digit
        have hnone : charValue? c = none := by
          cases hv : charValue? c with
          | none => rfl
          | some v =>
            have hvalue := charValue?_eq_some hv
            omega
        have hbelow : below base (.char c) = false := by simp [below, digitValue?, hnone]
        rw [hbelow]
        cases hcapital : Text.capitalOf c.toNat Text.caseRuns with
        | some m =>
          rw [admits_of_upperChar (u := Char.ofNat m) (by rw [upperChar, hcapital])]
          exact not_below_of_capitalOf h (by omega) hcapital
        | none =>
          cases hexpansion : Text.expansionOf c.toNat Text.expansions with
          | none =>
            rw [admits_of_upperChar (u := c) (by rw [upperChar, hcapital]; simp [hexpansion]),
              hbelow]
          | some points =>
            have hlength := Text.two_le_length_expansions _ (Text.mem_of_expansionOf hexpansion)
            rw [admits, Text.upperSymbol, upperChar, hcapital]
            simp only [hexpansion]
            obtain _ | ⟨_, _ | ⟨_, _⟩⟩ := points
            · simp at hlength
            · simp at hlength
            · rfl

/-- **The symbols that pass for digits** are the digits and two letters. -/
theorem admits_eq (base : Nat) (s : Symbol) : admits base s = (below base s || foreign base s) := by
  cases hforeign : foreign base s with
  | false => rw [admits_eq_below hforeign, Bool.or_false]
  | true =>
    have hletters : (18 < base → admits base (.char '\u0131') = true) ∧
        (28 < base → admits base (.char '\u017F') = true) := by
      rw [admits_of_upperChar (u := 'I') (by decide), admits_of_upperChar (u := 'S') (by decide)]
      simp [below, digitValue?, charValue?]
    simp only [foreign, Bool.or_eq_true, Bool.and_eq_true, decide_eq_true_eq] at hforeign
    rw [Bool.or_true]
    rcases hforeign with ⟨rfl, hbase⟩ | ⟨rfl, hbase⟩
    · exact hletters.1 hbase
    · exact hletters.2 hbase

/-! ## Reading -/

/-- The values of the digits of a text. -/
def digitValues (digits : Text) : List Nat := digits.filterMap digitValue?

theorem length_digitValues {base : Nat} {digits : Text} (h : digits.all (below base) = true) :
    (digitValues digits).length = digits.length := by
  induction digits with
  | nil => rfl
  | cons s digits ih =>
    rw [all_cons, Bool.and_eq_true, below, Option.any_eq_true] at h
    obtain ⟨⟨v, hv, -⟩, hrest⟩ := h
    rw [digitValues, filterMap_cons_some hv]
    exact congrArg (· + 1) (ih hrest)

/-- Digits below the base have a value, unless there are too many of them. -/
theorem readDigits_of_below {digits : Text} (hne : digits ≠ []) (hlow : 2 ≤ base)
    (hhigh : base ≤ maxRadix) (hdigits : digits.all (below base.toNat) = true) :
    readDigits digits base =
      if isLimited base.toNat && digitLimit < digits.length then
        .error (.tooManyDigits digits.length)
      else .ok (some (valueOf base.toNat (digitValues digits))) := by
  have hbase : ¬(digits.isEmpty || base < 2 || (maxRadix : Int) < base) = true := by
    simp [hne, Int.not_lt.mpr hlow, Int.not_lt.mpr hhigh]
  have hadmits : digits.all (admits base.toNat) = true := by
    rw [all_eq_true] at hdigits ⊢
    intro s hs
    rw [admits_eq, hdigits s hs, Bool.true_or]
  have htake : digits.takeWhile (fun s => (digitValue? s).isSome) = digits := by
    refine takeWhile_eq_self_iff.mpr fun s hs => ?_
    obtain ⟨v, hv, -⟩ := (Option.any_eq_true _ _).mp (all_eq_true.mp hdigits s hs)
    rw [hv]
    rfl
  have hlength : (digits.filterMap digitValue?).length = digits.length :=
    length_digitValues hdigits
  rw [readDigits, if_neg hbase, if_neg (by simp [hadmits])]
  simp only [htake, hlength, Nat.lt_irrefl, if_false, digitValues]

/-- **Reading digits can fail for their number only,** unless a letter passes for a digit. -/
theorem readDigits_eq {digits : Text} (h : base ≤ 16 ∨ ∀ s ∈ digits, s.isDigit = true) :
    readDigits digits base =
      if digits.isEmpty || base < 2 || (maxRadix : Int) < base ||
          !digits.all (below base.toNat) then
        .ok none
      else if isLimited base.toNat && digitLimit < digits.length then
        .error (.tooManyDigits digits.length)
      else .ok (some (valueOf base.toNat (digitValues digits))) := by
  have hall : digits.all (admits base.toNat) = digits.all (below base.toNat) := by
    rw [Bool.eq_iff_iff, all_eq_true, all_eq_true]
    refine forall₂_congr fun s hs => ?_
    rw [admits_eq_below (foreign_eq_false (h.imp (by omega) fun h => h s hs))]
  split
  · next hnone =>
    rw [readDigits, hall]
    split
    · rfl
    · next hbase => rw [if_pos ((Bool.or_eq_true_iff.mp hnone).resolve_left hbase)]
  · next hsome =>
    simp only [Bool.or_eq_true, decide_eq_true_eq, Bool.not_eq_true', not_or, Bool.not_eq_false,
      List.isEmpty_iff, Int.not_lt] at hsome
    obtain ⟨⟨⟨hne, hlow⟩, hhigh⟩, hdigits⟩ := hsome
    exact readDigits_of_below hne hlow hhigh hdigits

/-! ## Writing -/

theorem valueOf_eq_ofDigits (base : Nat) (ds : List Nat) :
    valueOf base ds = Nat.ofDigits base ds.reverse := by
  rw [Nat.ofDigits_eq_foldr, foldr_reverse, valueOf]
  simp only [Nat.mul_comm, Nat.add_comm, Nat.cast_id]

section

variable {base : Nat} (hbase : 2 ≤ base)
include hbase

theorem valueOf_lt {digits : List Nat} (h : ∀ d ∈ digits, d < base) :
    valueOf base digits < base ^ digits.length := by
  rw [valueOf_eq_ofDigits, ← length_reverse]
  exact Nat.ofDigits_lt_base_pow_length hbase fun d hd => h d (mem_reverse.mp hd)

theorem digitsOnto_eq {fuel : Nat} (hn : n < fuel) (rest : List Nat) :
    digitsOnto base fuel n rest = (n % base :: Nat.digits base (n / base)).reverse ++ rest := by
  induction fuel generalizing n rest with
  | zero => cases hn
  | succ fuel ih =>
    rw [digitsOnto]
    split
    · next hsmall => simp [Nat.div_eq_of_lt hsmall, Nat.mod_eq_of_lt hsmall]
    · next hlarge =>
      have hpos : 0 < n / base := Nat.div_pos (not_lt.mp hlarge) (by omega)
      have hless : n / base < n := Nat.div_lt_self (by omega) hbase
      rw [ih (by omega), Nat.digits_def' hbase hpos]
      simp

/-- The digits of a number, from the last one on. Zero has a digit, too. -/
theorem digits_eq (n : Nat) : digits base n = (n % base :: Nat.digits base (n / base)).reverse := by
  rw [digits, digitsOnto_eq hbase n.lt_succ_self, append_nil]

/-- The digits of a number spell the number. -/
theorem valueOf_digits (n : Nat) : valueOf base (digits base n) = n := by
  rw [valueOf_eq_ofDigits, digits_eq hbase, reverse_reverse, Nat.ofDigits_cons, Nat.ofDigits_digits]
  exact Nat.mod_add_div n base

/-- A number below a power of the base has no more digits than the exponent says. -/
theorem length_digits_le (hk : 0 < k) (hn : n < base ^ k) : (digits base n).length ≤ k := by
  obtain ⟨k, rfl⟩ := Nat.exists_eq_succ_of_ne_zero hk.ne'
  rw [digits_eq hbase, length_reverse, length_cons, Nat.add_le_add_iff_right,
    Nat.digits_length_le_iff hbase]
  exact Nat.div_lt_of_lt_mul (by rwa [← Nat.pow_succ'])

theorem forall_lt_digits (n : Nat) : ∀ d ∈ digits base n, d < base := by
  intro d hd
  rw [digits_eq hbase, mem_reverse] at hd
  rcases mem_cons.mp hd with rfl | hd
  · exact Nat.mod_lt n (by omega)
  · exact Nat.digits_lt_base hbase hd

theorem digits_ne_nil (n : Nat) : digits base n ≠ [] := by
  rw [digits_eq hbase]
  simp

theorem digitText_ne_nil (n : Nat) : digitText base n ≠ [] :=
  map_eq_nil_iff.not.mpr (digits_ne_nil hbase n)

end

theorem decimalText_of_lt (h : n < 10 ^ digitLimit) :
    decimalText n = .ok (digitText 10 n) := by
  have hlength : (digitText 10 n).length ≤ digitLimit := by
    rw [digitText, length_map]
    exact length_digits_le (by decide) (by decide) h
  rw [decimalText]
  simp only [Int.natAbs_natCast]
  rw [if_neg (by omega), signText, if_neg (by omega)]
  rfl

/-! ## The value in the target -/

/-- The value of a numeral of the target: hexadecimal after a `$`, otherwise decimal. -/
def targetValue? : Text → Option Nat
  | .char '$' :: digits =>
    if !digits.isEmpty && digits.all (below 16) then some (valueOf 16 (digitValues digits))
    else none
  | digits =>
    if !digits.isEmpty && digits.all (below 10) then some (valueOf 10 (digitValues digits))
    else none

section

variable {base : Nat} (hpos : 2 ≤ base) (hmax : base ≤ maxRadix)
include hpos hmax

theorem digitValues_digitText (n : Nat) : digitValues (digitText base n) = digits base n := by
  have hdigits : ∀ d ∈ digits base n, digitValue? (.char (digitChar d)) = some d := fun d hd =>
    digitValue_digitChar ((forall_lt_digits hpos n d hd).trans_le hmax)
  rw [digitValues, digitText]
  generalize digits base n = ds at hdigits ⊢
  induction ds with
  | nil => rfl
  | cons d ds ih =>
    obtain ⟨hd, hds⟩ := forall_mem_cons.mp hdigits
    rw [map_cons, filterMap_cons_some hd, ih hds]

theorem all_below_digitText (n : Nat) : (digitText base n).all (below base) = true := by
  rw [digitText, all_map, all_eq_true]
  intro d hd
  have hlt := forall_lt_digits hpos n d hd
  simp [below, digitValue_digitChar (hlt.trans_le hmax), hlt]

end

theorem targetValue?_digitText (n : Nat) : targetValue? (digitText 10 n) = some n := by
  have hne : digitText 10 n ≠ [] := digitText_ne_nil (by decide) n
  have hall : (digitText 10 n).all (below 10) = true :=
    all_below_digitText (by decide) (by decide) n
  have hvalue : valueOf 10 (digitValues (digitText 10 n)) = n := by
    rw [digitValues_digitText (by decide) (by decide), valueOf_digits (by decide)]
  have hdollar : ∀ rest, digitText 10 n ≠ .char '$' :: rest := by
    intro rest heq
    rw [heq] at hall
    simp [below, digitValue?, charValue?] at hall
  unfold targetValue?
  split
  · next rest heq => exact absurd heq (hdollar rest)
  · rw [if_pos (by simp [hne, hall]), hvalue]

theorem valueOf_replicate_zero_append (base k : Nat) (digits : List Nat) :
    valueOf base (List.replicate k 0 ++ digits) = valueOf base digits := by
  induction k with
  | zero => rfl
  | succ k ih => simpa [valueOf, replicate_succ] using ih

/-- A hexadecimal numeral is filled with zeros. -/
theorem exists_hexText_eq (width n : Nat) :
    ∃ k, hexText width n = List.replicate k (.char '0') ++ digitText 16 n := by
  have hsign : signText n = [] := if_neg (by omega)
  exact ⟨width - (digitText 16 n).length, by simp [hexText, hsign]⟩

theorem targetValue?_hexText (width n : Nat) :
    targetValue? (.char '$' :: hexText width n) = some n := by
  obtain ⟨k, hk⟩ := exists_hexText_eq width n
  have hne : digitText 16 n ≠ [] := digitText_ne_nil (by decide) n
  have hall : (digitText 16 n).all (below 16) = true :=
    all_below_digitText (by decide) (by decide) n
  have hzero : below 16 (.char '0') = true := by decide
  have hvalues : digitValues (List.replicate k (.char '0') ++ digitText 16 n) =
      List.replicate k 0 ++ digits 16 n := by
    rw [digitValues, filterMap_append, filterMap_replicate_of_some (b := 0) (by decide)]
    exact congrArg _ (digitValues_digitText (by decide) (by decide) n)
  rw [hk, targetValue?, if_pos (by simp [hne, hall, hzero]), hvalues,
    valueOf_replicate_zero_append, valueOf_digits (by decide)]

/-- **A value that is written denotes itself in the target.** -/
theorem exists_render (h : base = 10 → n < 10 ^ digitLimit) :
    ∃ text, render n base = .ok text ∧ targetValue? text = some n := by
  rw [render]
  split
  · next hdecimal =>
    have hn : n < 10 ^ digitLimit := by
      by_cases hbase : base = 10
      · exact h hbase
      · have hsmall : n < 10 ^ 1 := by simp [hbase] at hdecimal; omega
        exact hsmall.trans_le (Nat.pow_le_pow_right (by decide) (by decide))
    exact ⟨_, decimalText_of_lt hn, targetValue?_digitText n⟩
  · exact ⟨_, rfl, targetValue?_hexText _ n⟩

/-! ## Verdicts -/

/-- Digits that are a numeral of a base, and not too many of them, have a numeral of the target. -/
theorem exists_render_readDigits {digits : Text} (h : base ≤ 16 ∨ ∀ s ∈ digits, s.isDigit = true)
    (hread : readDigits digits base = .ok (some n)) :
    n = valueOf base.toNat (digitValues digits) ∧
      ∃ text, render n base = .ok text ∧ targetValue? text = some n := by
  rw [readDigits_eq h] at hread
  split at hread
  · cases hread
  · next hdigits =>
    split at hread
    · cases hread
    · next hlength =>
      cases Except.ok.inj hread
      refine ⟨rfl, exists_render ?_⟩
      rintro rfl
      have hall : digits.all (below 10) = true := by simpa using And.right (by simpa using hdigits)
      have hlt : ∀ d ∈ digitValues digits, d < 10 := by
        intro d hd
        obtain ⟨s, hs, hsd⟩ := mem_filterMap.mp hd
        obtain ⟨v, hv, hv10⟩ := (Option.any_eq_true _ _).mp (all_eq_true.mp hall s hs)
        cases hsd.symm.trans hv
        simpa using hv10
      have hle : digits.length ≤ digitLimit := by
        simpa [show isLimited 10 = true by decide] using hlength
      calc valueOf 10 (digitValues digits) < 10 ^ (digitValues digits).length :=
          valueOf_lt (by decide) hlt
        _ ≤ 10 ^ digitLimit := by
          rw [length_digitValues hall]
          exact Nat.pow_le_pow_right (by decide) hle

/-- Digits with a value in the base `base`, of which there are too many. -/
theorem readDigits_eq_error {digits : Text} {e : Failure}
    (h : base ≤ 16 ∨ ∀ s ∈ digits, s.isDigit = true) (hread : readDigits digits base = .error e) :
    e = .tooManyDigits digits.length ∧ digitLimit < digits.length ∧
      isLimited base.toNat = true ∧ digits.all (below base.toNat) = true := by
  rw [readDigits_eq h] at hread
  split at hread
  · cases hread
  · next hdigits =>
    split at hread
    · next hlength =>
      obtain ⟨hlimited, hlength⟩ : isLimited base.toNat = true ∧
          digitLimit < digits.length := by
        simpa using hlength
      exact ⟨(Except.error.inj hread).symm, hlength, hlimited,
        by simpa using And.right (by simpa using hdigits)⟩
    · cases hread

/-- A run of decimal digits. -/
def IsRun (digits : Text) : Prop := digits ≠ [] ∧ ∀ s ∈ digits, s.isDigit = true

instance (digits : Text) : Decidable (IsRun digits) := inferInstanceAs (Decidable (_ ∧ _))

theorem IsRun.targetText_eq {digits : Text} (h : IsRun digits) (radix : Int) :
    targetText digits radix =
      readDigits digits radix >>= fun
        | some n => render n radix
        | none => .ok digits := by
  have hsplit : split? digits radix = some (radix, digits) := by
    unfold split?
    split
    · next rest => exact absurd (h.2 (.char '^') mem_cons_self) (by decide)
    · rfl
  rw [targetText, hsplit]
  rfl

theorem IsRun.judgeNumber_eq {digits : Text} (h : IsRun digits) (radix : Int) :
    judgeNumber digits radix =
      readDigits digits radix >>= fun
        | some n => render n radix >>= fun text => .ok (.converted text)
        | none => .ok (.refused (.badNumeral digits radix)) := by
  unfold judgeNumber
  split
  · next rest => exact absurd (h.2 (.char '$') mem_cons_self) (by decide)
  · rw [h.targetText_eq]
    cases hread : readDigits digits radix with
    | error e => rfl
    | ok value =>
      cases value with
      | none => simp [bind, Except.bind, pure, Except.pure]
      | some n =>
        cases hrender : render n radix with
        | error e => simp [bind, Except.bind, hrender]
        | ok text => simp [bind, Except.bind, pure, Except.pure, hrender]

theorem markBase?_cases {letter : Text} (h : markBase? letter = some base) :
    base = 10 ∨ base = 8 ∨ base = 16 ∨ base = 2 := by
  simp only [markBase?] at h
  split at h
  · exact .inl (Option.some.inj h).symm
  · split at h
    · exact .inr (.inl (Option.some.inj h).symm)
    · split at h
      · exact .inr (.inr (.inl (Option.some.inj h).symm))
      · split at h
        · exact .inr (.inr (.inr (Option.some.inj h).symm))
        · cases h

theorem targetText_marked {rest : Text} (h : markBase? [letter] = some base) (radix : Int) :
    targetText (.char '^' :: letter :: digit :: rest) radix =
      readDigits (digit :: rest) base >>= fun
        | some n => render n base
        | none => .ok (.char '^' :: letter :: digit :: rest) := by
  rw [targetText, split?]
  simp only [take_succ_cons, take_zero, h, drop_succ_cons, drop_zero, Option.map_some]
  rfl

theorem judgeMarked_eq {rest : Text} (h : markBase? [letter] = some base) (radix : Int) :
    judgeMarked (letter :: digit :: rest) radix =
      readDigits (digit :: rest) base >>= fun
        | some n => render n base >>= fun text => .ok (.convertedMark text)
        | none => .ok (.refusedMark (.badMarkedNumeral (letter :: digit :: rest) base)) := by
  rw [judgeMarked]
  simp only [h, targetText_marked h]
  cases hread : readDigits (digit :: rest) base with
  | error e => rfl
  | ok value =>
    cases value with
    | none => rfl
    | some n =>
      cases hrender : render n base with
      | error e => simp [bind, Except.bind, hrender]
      | ok text => simp [bind, Except.bind, pure, Except.pure, hrender]

/-- Digits that can be read are a numeral of the base just if all of them are below it. -/
theorem all_below_of_readDigits {digits : Text} {value : Option Nat}
    (h : base ≤ 16 ∨ ∀ s ∈ digits, s.isDigit = true) (hbase : 2 ≤ base ∧ base ≤ maxRadix)
    (hne : digits ≠ []) (hread : readDigits digits base = .ok value) :
    digits.all (below base.toNat) = value.isSome := by
  have hbase' : ¬base < 2 ∧ ¬(maxRadix : Int) < base := by omega
  rw [readDigits_eq h] at hread
  split at hread
  · next hnone =>
    cases hread
    simpa [hne, hbase'] using hnone
  · next hsome =>
    split at hread
    · cases hread
    · cases hread
      simpa using And.right (by simpa using hsome)

/-- The base and the digits of a name that is a numeral after a `^`: a letter that stands for the
base, and at least one digit. -/
def marked? : Text → Option (Int × Text)
  | letter :: digit :: rest =>
    (markBase? [letter]).bind fun base =>
      if (digit :: rest).all (below base.toNat) then some (base, digit :: rest) else none
  | _ => none

theorem exists_of_marked? {digits : Text} (h : marked? text = some (base, digits)) :
    ∃ letter, text = letter :: digits ∧ digits ≠ [] ∧ markBase? [letter] = some base ∧
      digits.all (below base.toNat) = true := by
  unfold marked? at h
  split at h
  · next letter digit rest =>
    obtain ⟨base', hbase, h⟩ := Option.bind_eq_some_iff.mp h
    split at h
    · next hall =>
      cases h
      exact ⟨letter, rfl, cons_ne_nil _ _, hbase, hall⟩
    · cases h
  · cases h

/-- **What becomes of a digit string.** It is converted just if it is a numeral, and then it keeps
its value. -/
theorem IsRun.judgeNumber_cases {digits : Text} (h : IsRun digits)
    (hjudge : judgeNumber digits base = .ok verdict) :
    (∃ text, verdict = .converted text ∧
      targetValue? text = some (valueOf base.toNat (digitValues digits)) ∧
      (2 ≤ base ∧ base ≤ maxRadix → digits.all (below base.toNat) = true)) ∨
    (verdict = .refused (.badNumeral digits base) ∧
      (2 ≤ base ∧ base ≤ maxRadix → digits.all (below base.toNat) = false)) := by
  rw [h.judgeNumber_eq] at hjudge
  cases hread : readDigits digits base with
  | error e => rw [hread] at hjudge; cases hjudge
  | ok value =>
    have hall := fun hbase => all_below_of_readDigits (.inr h.2) hbase h.1 hread
    rw [hread] at hjudge
    cases value with
    | none => exact .inr ⟨(Except.ok.inj hjudge).symm, hall⟩
    | some n =>
      obtain ⟨rfl, text, hrender, hvalue⟩ := exists_render_readDigits (.inr h.2) hread
      change render _ base >>= _ = _ at hjudge
      rw [hrender] at hjudge
      exact .inl ⟨text, (Except.ok.inj hjudge).symm, hvalue, hall⟩

/-- **What becomes of a name after a `^`.** It is converted just if it is a marked numeral, and then
it keeps its value. -/
theorem judgeMarked_cases (h : judgeMarked text radix = .ok verdict) :
    (verdict = .unconcerned ∧ marked? text = none) ∨
      (∃ base, verdict = .refusedMark (.badMarkedNumeral text base) ∧ marked? text = none) ∨
      ∃ base digits new, verdict = .convertedMark new ∧ marked? text = some (base, digits) ∧
        (∀ radix, targetText (.char '^' :: text) radix = .ok new) ∧
        targetValue? new = some (valueOf base.toNat (digitValues digits)) := by
  match text with
  | [] | [_] =>
    cases h
    exact .inl ⟨rfl, rfl⟩
  | letter :: digit :: rest =>
    cases hmark : markBase? [letter] with
    | none =>
      rw [judgeMarked] at h
      simp only [hmark] at h
      cases h
      exact .inl ⟨rfl, by rw [marked?, hmark]; rfl⟩
    | some base =>
      have hbase := markBase?_cases hmark
      have hle : base ≤ 16 ∨ ∀ s ∈ digit :: rest, s.isDigit = true := .inl (by omega)
      rw [judgeMarked_eq hmark] at h
      cases hread : readDigits (digit :: rest) base with
      | error e => rw [hread] at h; cases h
      | ok value =>
        have hall := all_below_of_readDigits hle (by simp only [maxRadix]; omega)
          (cons_ne_nil _ _) hread
        rw [hread] at h
        cases value with
        | none =>
          cases h
          refine .inr (.inl ⟨base, rfl, ?_⟩)
          rw [marked?, hmark, Option.bind_some, if_neg (by simp [hall])]
        | some n =>
          obtain ⟨hn, new, hrender, hvalue⟩ := exists_render_readDigits hle hread
          simp only [bind, Except.bind, hrender] at h
          cases h
          refine .inr (.inr ⟨base, digit :: rest, new, rfl, ?_, fun radix => ?_, hn ▸ hvalue⟩)
          · rw [marked?, hmark, Option.bind_some, if_pos (by simp [hall])]
          · rw [targetText_marked hmark, hread]
            exact hrender

theorem eq_badNumeral_of_judgeNumber {problem : Problem}
    (h : judgeNumber text radix = .ok (.refused problem)) : problem = .badNumeral text radix := by
  unfold judgeNumber at h
  split at h
  · cases h
  · cases htarget : targetText text radix with
    | error e => rw [htarget] at h; cases h
    | ok new =>
      cases hread : readDigits text radix with
      | error e =>
        simp only [htarget, hread, bind, Except.bind] at h
        cases h
      | ok value =>
        simp only [htarget, hread, bind, Except.bind, pure, Except.pure] at h
        split at h <;> cases h
        rfl

/-! ## Symbols of numerals -/

/-- The symbol can stand in a numeral of the target. -/
def isNumeralSymbol (s : Symbol) : Bool := s = .char '$' || (digitValue? s).isSome

theorem isNumeralSymbol_of_below {base : Nat} (h : below base s = true) :
    isNumeralSymbol s = true := by
  obtain ⟨v, hv, -⟩ := (Option.any_eq_true _ _).mp h
  rw [isNumeralSymbol, hv, Option.isSome_some, Bool.or_true]

theorem isSpace_of_isNumeralSymbol (h : isNumeralSymbol s = true) : s.isSpace = false := by
  cases s with
  | stray b => rfl
  | char c =>
    have hbounds : 0x24 ≤ c.toNat ∧ c.toNat ≤ 0x7A := by
      simp only [isNumeralSymbol, Bool.or_eq_true, decide_eq_true_eq] at h
      rcases h with hdollar | hdigit
      · obtain rfl := Symbol.char.inj hdollar
        decide
      · obtain ⟨v, hv⟩ := Option.isSome_iff_exists.mp hdigit
        have hvalue := charValue?_eq_some hv
        omega
    have hranges : ∀ r ∈ Text.spaceRanges, r.2 < 0x24 ∨ 0x7A < r.1 := by decide
    by_contra hspace
    obtain ⟨r, hr, hlow, hhigh⟩ := Text.exists_of_inRanges ((Bool.not_eq_false _).mp hspace)
    have hr := hranges r hr
    omega

theorem all_isSpace_of_isNumeralSymbol
    (h : t ≠ [] ∧ ∀ s ∈ t, isNumeralSymbol s = true) : t.all Symbol.isSpace = false := by
  obtain ⟨s, t, rfl⟩ := exists_cons_of_ne_nil h.1
  rw [all_cons, isSpace_of_isNumeralSymbol (h.2 s mem_cons_self), Bool.false_and]

theorem isNumeralSymbol_of_targetValue? (h : targetValue? t = some n) :
    t ≠ [] ∧ ∀ s ∈ t, isNumeralSymbol s = true := by
  have hdigits {base : Nat} {digits : Text} (hall : digits.all (below base) = true) :
      ∀ s ∈ digits, isNumeralSymbol s = true := fun s hs =>
    isNumeralSymbol_of_below (all_eq_true.mp hall s hs)
  unfold targetValue? at h
  split at h
  · split at h
    · next hcond =>
      simp only [Bool.and_eq_true] at hcond
      exact ⟨cons_ne_nil _ _, forall_mem_cons.mpr ⟨rfl, hdigits hcond.2⟩⟩
    · cases h
  · split at h
    · next hcond =>
      simp only [Bool.and_eq_true, Bool.not_eq_true', isEmpty_eq_false_iff] at hcond
      exact ⟨hcond.1, hdigits hcond.2⟩
    · cases h

theorem IsRun.isNumeralSymbol {digits : Text} (h : IsRun digits) :
    ∀ s ∈ digits, isNumeralSymbol s = true := by
  intro s hs
  have hdigit := h.2 s hs
  cases s with
  | char c =>
    rw [Numeral.isNumeralSymbol, digitValue?, charValue?_of_isDigit hdigit]
    simp
  | stray b => cases hdigit

theorem IsRun.of_judgeNumber {digits : Text} (h : IsRun digits)
    (hjudge : judgeNumber digits base = .ok (.converted new)) :
    new ≠ [] ∧ ∀ s ∈ new, Numeral.isNumeralSymbol s = true := by
  rcases h.judgeNumber_cases hjudge with ⟨text, hverdict, hvalue, -⟩ | ⟨hverdict, -⟩
  · cases hverdict
    exact isNumeralSymbol_of_targetValue? hvalue
  · cases hverdict

theorem isNumeralSymbol_of_judgeMarked (h : judgeMarked text radix = .ok (.convertedMark new)) :
    new ≠ [] ∧ ∀ s ∈ new, isNumeralSymbol s = true := by
  rcases judgeMarked_cases h with ⟨hv, -⟩ | ⟨base, hv, -⟩ | ⟨base, digits, new', hv, -, -, hvalue⟩
  · cases hv
  · cases hv
  · cases hv
    exact isNumeralSymbol_of_targetValue? hvalue

end Numeral

end Macro10
