import Macro10.Proofs.Numeral

/-!
# Numerals that are converted twice

A hexadecimal numeral of the target is no numeral of the source, and a decimal one is read in the
radix in force. So a text that is converted twice is another one than after the first time only if
it was a decimal numeral behind a mark (`targetText_targetText`).
-/

namespace Macro10.Numeral

open List

variable {n : Nat} {base radix : Int} {text new : Text}

/-! ## The first digit -/

/-- Digits of a number of at least two of them spell no single digit in any base. -/
theorem le_valueOf_digits {b b' : Nat} (hb : 2 ≤ b) (hb' : 2 ≤ b') (hn : b ≤ n) :
    b' ≤ valueOf b' (digits b n) := by
  have hquotient : n / b ≠ 0 := (Nat.div_pos hn (by omega)).ne'
  have hne : Nat.digits b (n / b) ≠ [] := Nat.digits_ne_nil_iff_ne_zero.mpr hquotient
  obtain ⟨c, rfl⟩ := Nat.exists_eq_add_of_le' hb'
  rw [valueOf_eq_ofDigits, digits_eq hb, reverse_reverse, Nat.ofDigits_cons]
  calc c + 2 ≤ (c + 2) ^ (Nat.digits b (n / b)).length :=
        Nat.le_self_pow (length_eq_zero_iff.not.mpr hne) _
    _ ≤ (c + 2) * Nat.ofDigits (c + 2) (Nat.digits b (n / b)) :=
        Nat.pow_length_le_mul_ofDigits hne (Nat.getLast_digit_ne_zero b hquotient)
    _ ≤ _ := Nat.le_add_left _ _

/-! ## Numerals of the target -/

theorem isRun_digitText (n : Nat) : IsRun (digitText 10 n) := by
  refine ⟨digitText_ne_nil (by decide) n, fun s hs => isDigit_of_below ?_⟩
  exact all_eq_true.mp (all_below_digitText (by decide) (by decide) n) s hs

/-- A hexadecimal numeral of the target stays as it is. -/
theorem targetText_hexadecimal (rest : Text) (radix : Int) :
    targetText (.char '$' :: rest) radix = .ok (.char '$' :: rest) := by
  have hdollar (b : Nat) : admits b (.char '$') = false := rfl
  have hread : readDigits (.char '$' :: rest) radix = .ok none := by
    rw [readDigits, all_cons, hdollar]
    simp
  rw [targetText, split?]
  · simp only [hread]
    rfl
  · intro rest h
    cases h

theorem all_below_decimal (b n : Nat) :
    (digitText 10 n).all (below b) = (digits 10 n).all (· < b) := by
  rw [digitText, all_map, Bool.eq_iff_iff, all_eq_true, all_eq_true]
  refine forall₂_congr fun d hd => ?_
  have hlt : d < 10 := forall_lt_digits (by decide) n d hd
  have hvalue := digitValue_digitChar (hlt.trans (by decide : 10 < maxRadix))
  simp [below, hvalue]

theorem digits_of_lt {b : Nat} (h : n < b) : digits b n = [n] := by
  rw [digits, digitsOnto, if_pos h]

/-- The hexadecimal numeral of a value. -/
def hexadecimal (n : Nat) : Text := .char '$' :: hexText (if (n : Int) < 0x100 then 2 else 4) n

/-- The value that a decimal numeral has in another radix, if it is a numeral there. A single digit
has the same value. -/
def misreading? (n : Nat) (radix : Int) : Option Nat :=
  if radix ≠ 10 ∧ 2 ≤ radix ∧ radix ≤ maxRadix ∧ 10 ≤ n ∧
      (digits 10 n).all (· < radix.toNat) = true then
    some (valueOf radix.toNat (digits 10 n))
  else none

/-- **What becomes of a decimal numeral of the target.** -/
theorem targetText_decimal (hlimit : n < 10 ^ Text.digitLimit) (radix : Int) :
    targetText (digitText 10 n) radix =
      .ok (match misreading? n radix with
        | some m => hexadecimal m
        | none => digitText 10 n) := by
  have hrun := isRun_digitText n
  have hlength : (digitText 10 n).length ≤ Text.digitLimit := by
    rw [digitText, length_map]
    exact length_digits_le (by decide) (by decide) hlimit
  have hvalues : digitValues (digitText 10 n) = digits 10 n :=
    digitValues_digitText (by decide) (by decide) n
  rw [hrun.targetText_eq, readDigits_eq (.inr hrun.2), all_below_decimal, hvalues]
  split
  · next hnone =>
    have hmisreading : misreading? n radix = none := by
      refine if_neg ?_
      rintro ⟨-, hlow, hhigh, -, hall⟩
      simp only [hall, isEmpty_eq_false_iff.mpr hrun.1, Bool.false_or, Bool.not_true,
        Bool.or_false, Bool.or_eq_true, decide_eq_true_eq] at hnone
      omega
    rw [hmisreading]
    rfl
  · next hsome =>
    simp only [isEmpty_eq_false_iff.mpr hrun.1, Bool.false_or, Bool.or_eq_true,
      decide_eq_true_eq, Bool.not_eq_true', not_or, Bool.not_eq_false, Int.not_lt] at hsome
    obtain ⟨⟨hlow, hhigh⟩, hall⟩ := hsome
    rw [if_neg (by simp; omega)]
    show render _ radix = _
    by_cases hsame : radix = 10 ∨ n < 10
    · have hmisreading : misreading? n radix = none := if_neg fun h => by omega
      have hvalue : valueOf radix.toNat (digits 10 n) = n := by
        rcases hsame with rfl | hdigit
        · exact valueOf_digits (by decide) n
        · rw [digits_of_lt hdigit]
          simp [valueOf]
      have hdigit : n < 10 → n < radix.toNat := by
        intro hn
        simpa [digits_of_lt hn] using hall
      rw [hmisreading, hvalue, render, if_pos (by simp; omega), decimalText_of_lt hlimit]
    · have hmisreading : misreading? n radix = some (valueOf radix.toNat (digits 10 n)) :=
        if_pos ⟨by omega, hlow, hhigh, by omega, hall⟩
      have hlarge := le_valueOf_digits (b := 10) (by decide) (by omega : 2 ≤ radix.toNat)
        (by omega : 10 ≤ n)
      rw [hmisreading, render, if_neg (by simp; omega)]
      rfl

theorem lt_of_decimalText {shown : Text} (h : decimalText n = .ok shown) :
    n < 10 ^ Text.digitLimit ∧ shown = digitText 10 n := by
  rw [decimalText] at h
  split at h
  · cases h
  · next hlength =>
    simp only [Int.natAbs_natCast, digitText, length_map] at hlength
    have hlt := valueOf_lt (by decide) (forall_lt_digits (by decide : 2 ≤ 10) n)
    rw [valueOf_digits (by decide)] at hlt
    refine ⟨hlt.trans_le (Nat.pow_le_pow_right (by decide) (by omega)), ?_⟩
    rw [← Except.ok.inj h, signText, if_neg (by omega)]
    rfl

/-- What is written for a value. -/
theorem render_cases (h : render n base = .ok new) :
    ((base = 10 ∨ n < 10) ∧ n < 10 ^ Text.digitLimit ∧ new = digitText 10 n) ∨
      (base ≠ 10 ∧ new = hexadecimal n) := by
  rw [render] at h
  split at h
  · next hdecimal =>
    obtain ⟨hlimit, hnew⟩ := lt_of_decimalText h
    refine .inl ⟨?_, hlimit, hnew⟩
    simp only [Bool.or_eq_true, Bool.and_eq_true, decide_eq_true_eq] at hdecimal
    omega
  · next hdecimal =>
    refine .inr ⟨fun hbase => hdecimal (by simp [hbase]), (Except.ok.inj h).symm⟩

/-! ## The second conversion -/

/-- The value that a text gets if it is converted twice: it is a decimal numeral behind a mark, and
becomes a numeral of the radix. -/
def misread? (text : Text) (radix : Int) : Option Nat :=
  match text with
  | .char '^' :: rest =>
    (marked? rest).bind fun numeral =>
      if numeral.1 = 10 then misreading? (valueOf 10 (digitValues numeral.2)) radix else none
  | _ => none

theorem misread?_of_marked? {rest : Text} (h : marked? rest = none) (radix : Int) :
    misread? (.char '^' :: rest) radix = none := by
  rw [misread?, h, Option.bind_none]

theorem misread?_of_ne (h : ∀ rest, text ≠ .char '^' :: rest) (radix : Int) :
    misread? text radix = none := by
  unfold misread?
  split
  · next rest => exact absurd rfl (h rest)
  · rfl

theorem misreading?_eq_none (h : radix = 10 ∨ n < 10) : misreading? n radix = none :=
  if_neg fun hcond => by omega

/-- Behind a mark, digits that can be read are those of a marked numeral or of none. -/
theorem marked?_of_readDigits {rest digits : Text} {value : Option Nat}
    (hsplit : split? (.char '^' :: rest) radix = some (base, digits))
    (hread : readDigits digits base = .ok value) :
    marked? rest = value.map fun _ => (base, digits) := by
  rw [split?] at hsplit
  obtain ⟨base', hmark, hsplit⟩ := Option.map_eq_some_iff.mp hsplit
  obtain ⟨rfl, rfl⟩ := Prod.mk.inj hsplit
  obtain _ | ⟨letter, _ | ⟨digit, rest⟩⟩ := rest
  · cases hmark
  · cases hread
    rfl
  · have hbase := markBase?_cases hmark
    have hall := all_below_of_readDigits (.inl (by omega)) (by simp only [maxRadix]; omega)
      (cons_ne_nil digit rest) hread
    have hmark : markBase? [letter] = some base' := hmark
    rw [marked?, hmark, Option.bind_some, hall]
    cases value <;> rfl

/-- A text with digits that can be read is misread as its value is, or it has no mark. -/
theorem misread?_cases {digits : Text} {value : Option Nat}
    (hsplit : split? text radix = some (base, digits))
    (hread : readDigits digits base = .ok value) :
    misread? text radix = none ∧ base = radix ∨ misread? text radix =
      value.bind fun n => if base = 10 then misreading? n radix else none := by
  by_cases hmark : ∃ rest, text = .char '^' :: rest
  · obtain ⟨rest, rfl⟩ := hmark
    rw [misread?, marked?_of_readDigits hsplit hread]
    cases value with
    | none => exact .inr rfl
    | some n =>
      refine .inr ?_
      by_cases hbase : base = 10
      · subst hbase
        rw [(exists_render_readDigits (.inl (by decide)) hread).1]
        rfl
      · simp [hbase]
  · have hne : ∀ rest, text ≠ .char '^' :: rest := fun rest heq => hmark ⟨rest, heq⟩
    have hbare : split? text radix = some (radix, text) := by
      unfold split?
      split
      · next rest => exact absurd rfl (hne rest)
      · rfl
    obtain ⟨rfl, -⟩ := Prod.mk.inj (Option.some.inj (hbare.symm.trans hsplit))
    exact .inl ⟨misread?_of_ne hne radix, rfl⟩

theorem misread?_of_split? (h : split? text radix = none) : misread? text radix = none := by
  unfold split? at h
  split at h
  · next rest =>
    refine misread?_of_marked? ?_ radix
    rw [Option.map_eq_none_iff] at h
    obtain _ | ⟨letter, _ | ⟨digit, rest⟩⟩ := rest
    · rfl
    · rfl
    · have hmark : markBase? [letter] = none := h
      rw [marked?, hmark, Option.bind_none]
  · cases h

/-- The second conversion gives a result, which is another one only if it reads decimal digits. -/
theorem targetText_again (h : targetText text radix = .ok new) :
    (misread? text radix = none ∧ targetText new radix = .ok new) ∨
      ∃ m, misread? text radix = some m ∧ IsRun new ∧
        targetText new radix = .ok (hexadecimal m) := by
  have hfirst := h
  unfold targetText at h
  split at h
  · next hsplit =>
    cases h
    exact .inl ⟨misread?_of_split? hsplit, hfirst⟩
  · next base digits hsplit =>
    cases hread : readDigits digits base with
    | error e =>
      rw [hread] at h
      cases h
    | ok value =>
    rw [hread] at h
    have hcases := misread?_cases hsplit hread
    cases value with
    | none =>
      cases h
      exact .inl ⟨hcases.elim And.left id, hfirst⟩
    | some n =>
      rcases render_cases h with ⟨hdecimal, hlimit, rfl⟩ | ⟨hbase, rfl⟩
      · have hmisread : misread? text radix = misreading? n radix := by
          rcases hcases with ⟨hnone, rfl⟩ | hmarked
          · rw [hnone, misreading?_eq_none hdecimal]
          · rw [hmarked, Option.bind_some]
            by_cases hbase : base = 10
            · rw [if_pos hbase]
            · rw [if_neg hbase, misreading?_eq_none (.inr (hdecimal.resolve_left hbase))]
        rw [targetText_decimal hlimit, hmisread]
        cases misreading? n radix with
        | none => exact .inl ⟨rfl, rfl⟩
        | some m => exact .inr ⟨m, rfl, isRun_digitText n, rfl⟩
      · refine .inl ⟨?_, targetText_hexadecimal _ radix⟩
        rcases hcases with ⟨hnone, -⟩ | hmarked
        · exact hnone
        · rw [hmarked, Option.bind_some, if_neg hbase]

/-- **A text that has been converted stays as it is,** unless it was a decimal numeral behind a mark
whose digits are those of a numeral of the radix. Then these are converted once more. -/
theorem targetText_targetText (h : targetText text radix = .ok new) :
    (targetText new radix = .ok new ↔ misread? text radix = none) ∧
      ∀ n, misread? text radix = some n → targetText new radix = .ok (hexadecimal n) := by
  rcases targetText_again h with ⟨hnone, hsame⟩ | ⟨m, hsome, hrun, hother⟩
  · refine ⟨iff_of_true hsame hnone, fun n hn => ?_⟩
    rw [hnone] at hn
    cases hn
  · have hne : hexadecimal m ≠ new := by
      rintro rfl
      exact absurd (hrun.2 (.char '$') mem_cons_self) (by decide)
    refine ⟨iff_of_false ?_ (by rw [hsome]; exact Option.some_ne_none m), fun n hn => ?_⟩
    · rw [hother]
      exact fun heq => hne (Except.ok.inj heq)
    · cases hsome.symm.trans hn
      exact hother

/-- An octal numeral behind a mark is converted once. -/
theorem targetText_targetText_octal :
    targetText "^O37" 8 = .ok "$1F" ∧ targetText "$1F" 8 = .ok "$1F" :=
  have hfirst : targetText "^O37" 8 = .ok "$1F" := by decide
  ⟨hfirst, (targetText_targetText hfirst).1.mpr (by decide)⟩

/-- A decimal numeral behind a mark is converted again as an octal one. -/
theorem targetText_twice :
    targetText "^D20" 8 = .ok "20" ∧ targetText "20" 8 = .ok "$10" := by
  decide

end Macro10.Numeral
