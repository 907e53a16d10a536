import Macro10.Proofs.Numeral.Stability

/-!
# What is read and written, exactly

A text has a value in a base just if all its symbols are digits of the base and there are not too
many. What is written for a value has the symbols of target numerals only, and no other value is
written so (`numerals_exact`).
-/

namespace Macro10.Numeral

open List

variable {v : Nat} {base : Int} {digits : Text} {c : Char} {s u : Symbol}

/-- The digits in order; those of a base come first. -/
def alphabet : Text := "0123456789ABCDEFGHIJKLMNOPQRSTUVWXYZ"

/-- There is a digit, the base has digits, and every symbol of the text is as required. -/
def Consists (required : Symbol → Prop) (digits : Text) (base : Int) : Prop :=
  digits ≠ [] ∧ 2 ≤ base ∧ base ≤ 36 ∧ ∀ s ∈ digits, required s

/-- Every symbol of the text is a digit below the base. -/
def IsNumeral (digits : Text) (base : Int) : Prop :=
  Consists (fun s => ∃ v : Nat, digitValue? s = some v ∧ v < base) digits base

/-- Every symbol of the text has a capital that is a single digit of the base. -/
def Passes (digits : Text) (base : Int) : Prop :=
  Consists (fun s => ∃ u ∈ alphabet.take base.toNat, Text.upperSymbol s = [u]) digits base

/-- The text holds the dotless i or the long s, whose capitals are digits. -/
def HasForeign (digits : Text) : Prop := .char '\u0131' ∈ digits ∨ .char '\u017F' ∈ digits

/-- The text is too long for a numeral, and its base is no power of two. -/
def IsTooLong (digits : Text) (base : Int) : Prop :=
  (∀ k : Nat, base ≠ 2 ^ k) ∧ Text.digitLimit < digits.length

/-! ## Capitals -/

theorem mem_take_alphabet {base : Nat} (h : base ≤ maxRadix) :
    u ∈ alphabet.take base ↔ ∃ d < base, u = .char (digitChar d) := by
  have halphabet : alphabet = (List.range maxRadix).map fun d => .char (digitChar d) := by decide
  rw [halphabet, ← map_take, take_range, Nat.min_eq_left h]
  simp [eq_comm]

/-- The capital of a digit is the digit of its value. -/
theorem upperChar_of_charValue? (h : charValue? c = some v) : Text.upperChar c = [digitChar v] := by
  have hself {m : Nat} (hm : c.toNat = m) : c = Char.ofNat m := by rw [← hm, Char.ofNat_toNat]
  rcases charValue?_eq_some h with ⟨hlow, hhigh, rfl⟩ | ⟨hlow, hhigh, rfl⟩ | ⟨hlow, hhigh, rfl⟩
  · rw [Text.upperChar_of_lt (by omega), digitChar, if_pos (by omega), ← hself (by omega)]
  · rw [Text.upperChar_of_lt (by omega), digitChar, if_neg (by omega), ← hself (by omega)]
  · rw [Text.upperChar_of_small hlow hhigh, digitChar, if_neg (by omega)]
    congr 2
    omega

/-- A symbol passes for a digit just if its capital is a single digit. -/
theorem admits_iff {base : Nat} (h : base ≤ maxRadix) :
    admits base s = true ↔ ∃ u ∈ alphabet.take base, Text.upperSymbol s = [u] := by
  constructor
  · intro hadmits
    have hcapital {d : Nat} {c : Char} (hd : d < base) (hc : Text.upperChar c = [digitChar d]) :
        ∃ u ∈ alphabet.take base, Text.upperSymbol (.char c) = [u] :=
      ⟨_, (mem_take_alphabet h).mpr ⟨d, hd, rfl⟩, by rw [Text.upperSymbol, hc]; rfl⟩
    rw [admits_eq, Bool.or_eq_true] at hadmits
    rcases hadmits with hbelow | hforeign
    · obtain ⟨v, hv, hlt⟩ := (Option.any_eq_true _ _).mp hbelow
      cases s with
      | stray b => cases hv
      | char c => exact hcapital (by simpa using hlt) (upperChar_of_charValue? hv)
    · simp only [foreign, Bool.or_eq_true, Bool.and_eq_true, decide_eq_true_eq] at hforeign
      rcases hforeign with ⟨rfl, hbase⟩ | ⟨rfl, hbase⟩
      · exact hcapital hbase (by decide)
      · exact hcapital hbase (by decide)
  · rintro ⟨u, hu, hupper⟩
    obtain ⟨d, hd, rfl⟩ := (mem_take_alphabet h).mp hu
    rw [admits, hupper]
    simp [digitValue_digitChar (hd.trans_le h), hd]

/-! ## Reading -/

theorem isLimited_iff (hlow : 2 ≤ base) (hhigh : base ≤ 36) :
    isLimited base.toNat = true ↔ ∀ k : Nat, base ≠ 2 ^ k := by
  obtain ⟨n, rfl⟩ := Int.eq_ofNat_of_zero_le (Int.le_trans (by decide) hlow)
  have hpowers : ∀ n ∈ List.range 37, 2 ≤ n →
      (isLimited n = true ↔ ∀ k ∈ List.range 6, n ≠ 2 ^ k) := by decide
  rw [Int.toNat_natCast, hpowers n (mem_range.mpr (by omega)) (by omega)]
  refine ⟨fun h k hk => ?_, fun h k _ hk => h k (by exact_mod_cast hk)⟩
  have hk : n = 2 ^ k := by exact_mod_cast hk
  refine h k (mem_range.mpr ?_) hk
  by_contra hlarge
  have hpow : 2 ^ 6 ≤ 2 ^ k := Nat.pow_le_pow_right (by decide) (by omega)
  omega

theorem passes_iff : Passes digits base ↔
    ¬(digits.isEmpty || base < 2 || (maxRadix : Int) < base) = true ∧
      digits.all (admits base.toNat) = true := by
  simp only [Bool.or_eq_true, List.isEmpty_iff, decide_eq_true_eq, not_or, Int.not_lt, and_assoc,
    all_eq_true]
  refine and_congr_right fun _ => and_congr_right fun _ => and_congr_right fun hhigh => ?_
  exact forall₂_congr fun s _ => (admits_iff (Int.toNat_le.mpr hhigh)).symm

theorem isNumeral_iff : IsNumeral digits base ↔ Passes digits base ∧ ¬HasForeign digits := by
  constructor
  · rintro ⟨hne, hlow, hhigh, hdigits⟩
    refine ⟨⟨hne, hlow, hhigh, fun s hs => ?_⟩, ?_⟩
    · obtain ⟨v, hv, hlt⟩ := hdigits s hs
      exact (admits_iff (Int.toNat_le.mpr hhigh)).mp (by simp [admits_eq, below, hv, hlt])
    · rintro (hmem | hmem) <;> obtain ⟨v, hv, -⟩ := hdigits _ hmem <;> cases hv
  · rintro ⟨⟨hne, hlow, hhigh, hcapital⟩, hforeign⟩
    refine ⟨hne, hlow, hhigh, fun s hs => ?_⟩
    have hletters : s ≠ .char '\u0131' ∧ s ≠ .char '\u017F' :=
      ⟨fun h => hforeign (.inl (h ▸ hs)), fun h => hforeign (.inr (h ▸ hs))⟩
    have hadmits := (admits_iff (Int.toNat_le.mpr hhigh)).mpr (hcapital s hs)
    rw [admits_eq_below (by simp [foreign, hletters]), below, Option.any_eq_true] at hadmits
    simpa using hadmits

/-- A letter that has no value makes reading fail. -/
theorem exists_readDigits_eq_error (h : Passes digits base) (hforeign : HasForeign digits) :
    ∃ e, readDigits digits base = .error e := by
  obtain ⟨hbase, hall⟩ := passes_iff.mp h
  -- the values end where the letter stands
  have hshort : ((digits.takeWhile fun s => (digitValue? s).isSome).filterMap digitValue?).length <
      digits.length := by
    refine (length_filterMap_le ..).trans_lt (Nat.lt_of_not_le fun hle => ?_)
    have hvalues := takeWhile_eq_self_iff.mp ((List.takeWhile_prefix _).eq_of_length_le hle)
    rcases hforeign with hmem | hmem <;> cases hvalues _ hmem
  rw [readDigits, if_neg hbase, if_neg (by simp [hall])]
  simp only [hshort, if_true]
  split <;> exact ⟨_, rfl⟩

theorem IsNumeral.readDigits_eq (h : IsNumeral digits base) :
    (IsTooLong digits base → ∃ e, readDigits digits base = .error e) ∧
      (¬IsTooLong digits base → readDigits digits base =
        .ok (some (Nat.ofDigits base.toNat (digitValues digits).reverse))) := by
  obtain ⟨hne, hlow, hhigh, hdigits⟩ := h
  have hall : digits.all (below base.toNat) = true := by
    refine all_eq_true.mpr fun s hs => ?_
    obtain ⟨v, hv, hlt⟩ := hdigits s hs
    simpa [below, hv] using hlt
  have hlong : (isLimited base.toNat && decide (Text.digitLimit < digits.length)) = true ↔
      IsTooLong digits base := by
    rw [Bool.and_eq_true, isLimited_iff hlow hhigh, decide_eq_true_eq, IsTooLong]
  rw [readDigits_of_below hne hlow hhigh hall, ← valueOf_eq_ofDigits]
  exact ⟨fun htoo => ⟨_, if_pos (hlong.mpr htoo)⟩, fun hfits => if_neg (mt hlong.mp hfits)⟩

/-! ## Writing -/

/-- The symbols of numerals of the target. -/
def targetAlphabet : Text := "$0123456789ABCDEF"

theorem mem_targetAlphabet_of_render {n : Nat} {text : Text} (h : render n base = .ok text) :
    ∀ s ∈ text, s ∈ targetAlphabet := by
  have hdigits {b : Nat} (hpos : 2 ≤ b) (hmax : b ≤ 16) :
      ∀ s ∈ digitText b n, s ∈ targetAlphabet := by
    have hall : ∀ d ∈ List.range 16, .char (digitChar d) ∈ targetAlphabet := by decide
    intro s hs
    obtain ⟨d, hd, rfl⟩ := mem_map.mp hs
    exact hall d (mem_range.mpr ((forall_lt_digits hpos n d hd).trans_le hmax))
  rcases render_cases h with ⟨-, -, rfl⟩ | ⟨-, rfl⟩
  · exact hdigits (by decide) (by decide)
  · obtain ⟨k, hk⟩ := exists_hexText_eq (if (n : Int) < 0x100 then 2 else 4) n
    rw [hexadecimal, hk]
    refine forall_mem_cons.mpr ⟨by decide, forall_mem_append.mpr ⟨fun s hs => ?_,
      hdigits (by decide) (by decide)⟩⟩
    rw [eq_of_mem_replicate hs]
    decide

/-- **Numerals are read and written exactly.** -/
theorem numerals_exact :
    (∀ (digits : Text) (base : Int),
      (∀ v, readDigits digits base = .ok (some v) ↔
        IsNumeral digits base ∧ ¬IsTooLong digits base ∧
          v = Nat.ofDigits base.toNat (digitValues digits).reverse) ∧
      ((∃ e, readDigits digits base = .error e) ↔
        Passes digits base ∧ (HasForeign digits ∨ IsTooLong digits base)) ∧
      (readDigits digits base = .ok none ↔ ¬Passes digits base)) ∧
    ∀ base : Int,
      (∀ v : Nat, (base = 10 → v < 10 ^ Text.digitLimit) →
        ∃ text, render v base = .ok text ∧ targetValue? text = some v ∧
          ∀ s ∈ text, s ∈ targetAlphabet) ∧
      ∀ v w : Nat, (base = 10 → v < 10 ^ Text.digitLimit ∧ w < 10 ^ Text.digitLimit) →
        render v base = render w base → v = w := by
  refine ⟨fun digits base => ?_, fun base => ⟨fun v hv => ?_, fun v w hlimit heq => ?_⟩⟩
  · by_cases hpasses : Passes digits base
    · by_cases hforeign : HasForeign digits
      · obtain ⟨e, he⟩ := exists_readDigits_eq_error hpasses hforeign
        simp [he, hpasses, hforeign, isNumeral_iff]
      · have hnumeral := isNumeral_iff.mpr ⟨hpasses, hforeign⟩
        by_cases hlong : IsTooLong digits base
        · obtain ⟨e, he⟩ := hnumeral.readDigits_eq.1 hlong
          simp [he, hpasses, hlong]
        · simp [hnumeral.readDigits_eq.2 hlong, hpasses, hforeign, hlong, hnumeral, eq_comm]
    · have hnone : readDigits digits base = .ok none := by
        rw [readDigits]
        split
        · rfl
        · next hbase => rw [if_pos (by simpa using mt (passes_iff.mpr ⟨hbase, ·⟩) hpasses)]
      simp [hnone, hpasses, isNumeral_iff]
  · obtain ⟨text, hrender, hvalue⟩ := exists_render hv
    exact ⟨text, hrender, hvalue, mem_targetAlphabet_of_render hrender⟩
  · obtain ⟨text, hrender, hvalue⟩ := exists_render fun h => (hlimit h).1
    obtain ⟨text', hrender', hvalue'⟩ := exists_render fun h => (hlimit h).2
    cases hrender.symm.trans (heq.trans hrender')
    exact Option.some.inj (hvalue.symm.trans hvalue')

/-- Digits of both cases, a letter that passes for a digit, and a value written for the target. -/
theorem numerals_exact_hexadecimal :
    readDigits ("fF" : Text) 16 = .ok (some 255) ∧
      (∃ e, readDigits ("7\u0131" : Text) 19 = .error e) ∧
      ∃ text, render 255 8 = .ok text ∧ targetValue? text = some 255 := by
  have hdigits : ∀ s ∈ Text.ofString "fF", ∃ v : Nat, digitValue? s = some v ∧ (v : Int) < 16 :=
    forall_mem_cons.mpr ⟨⟨15, by decide⟩, forall_mem_singleton.mpr ⟨15, by decide⟩⟩
  obtain ⟨text, hrender, hvalue, -⟩ := (numerals_exact.2 8).1 255 nofun
  exact ⟨((numerals_exact.1 _ 16).1 255).mpr ⟨⟨by decide, by decide, by decide, hdigits⟩,
      fun h => h.1 4 rfl, by decide⟩,
    (numerals_exact.1 _ 19).2.1.mpr ⟨⟨by decide, by decide, by decide, by decide⟩,
      .inl (.inl (by decide))⟩, text, hrender, hvalue⟩

end Macro10.Numeral
