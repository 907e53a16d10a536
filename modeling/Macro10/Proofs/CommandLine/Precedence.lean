import Macro10.CommandLine.Settings
import Macro10.Proofs.Numeral

/-!
# Precedence of the arguments

A setting that the arguments give does not depend on the configuration. But the radix of the
configuration is looked at even if the arguments give another: an integer that is no radix is a
fault of its own (`radixFault?`), and a run depends on the configured radix by that fault only
(`resolve_precedence`).
-/

namespace Macro10

open List

variable {n : Int} {text : Text} {fault : SettingsFault} {extension : Option Text}

open Numeral (decimalText digitChar digitText signText)

/-! ## Decimal notation -/

namespace Text

/-- A digit has its value, and it is no sign, no separator and no padding. -/
theorem digitChar_plain {d : Nat} (h : d < 10) :
    decimalValue? (digitChar d) = some d ∧ digitChar d ≠ '-' ∧ digitChar d ≠ '+' ∧
      Symbol.is (digitChar d) '_' = false ∧ isPadding (digitChar d) = false := by
  have hall : ∀ e ∈ List.range 10, decimalValue? (digitChar e) = some e ∧ digitChar e ≠ '-' ∧
      digitChar e ≠ '+' ∧ Symbol.is (digitChar e) '_' = false ∧
      isPadding (digitChar e) = false := by
    decide
  exact hall d (mem_range.mpr h)

theorem groupedDigits?_digitChars {digits : List Nat} (hne : digits ≠ [])
    (h : ∀ d ∈ digits, d < 10) :
    groupedDigits? (digits.map fun d => .char (digitChar d)) = some digits := by
  induction digits with
  | nil => exact absurd rfl hne
  | cons d rest ih =>
    obtain ⟨hd, hrest⟩ := forall_mem_cons.mp h
    cases rest with
    | nil => simp [groupedDigits?, (digitChar_plain hd).1]
    | cons e rest =>
      have hsep := (digitChar_plain (hrest e mem_cons_self)).2.2.2.1
      rw [map_cons] at ih
      rw [map_cons, map_cons, groupedDigits?, (digitChar_plain hd).1]
      simp only [hsep, Bool.false_eq_true, if_false, ih (cons_ne_nil _ _) hrest, Option.map_some]

theorem dropWhile_isPadding {t : Text} (h : ∀ s ∈ t, isPadding s = false) :
    t.dropWhile isPadding = t := by
  cases t with
  | nil => rfl
  | cons s rest => rw [dropWhile_cons_of_neg (by simp [h s mem_cons_self])]

theorem isPadding_of_mem_decimal {s : Symbol}
    (h : s ∈ signText n ++ digitText 10 n.natAbs) : isPadding s = false := by
  rcases mem_append.mp h with hsign | hdigit
  · rw [signText] at hsign
    split at hsign
    · obtain rfl := mem_singleton.mp hsign
      decide
    · cases hsign
  · obtain ⟨d, hd, rfl⟩ := mem_map.mp hdigit
    exact (digitChar_plain (Numeral.forall_lt_digits (by decide) n.natAbs d hd)).2.2.2.2

theorem decimalOf_eq (digits : List Nat) : decimalOf digits = Numeral.valueOf 10 digits := by
  simp only [decimalOf, Numeral.valueOf, Nat.mul_comm]

/-- **An integer in decimal notation is read as itself.** -/
theorem integer?_of_decimalText (h : decimalText n = .ok text) : integer? text = some n := by
  rw [decimalText] at h
  split at h
  · cases h
  next hlength =>
  cases h
  rw [digitText, length_map] at hlength
  have hlt : ∀ d ∈ Numeral.digits 10 n.natAbs, d < 10 :=
    Numeral.forall_lt_digits (by decide) n.natAbs
  have hne : Numeral.digits 10 n.natAbs ≠ [] := Numeral.digits_ne_nil (by decide) _
  have hgrouped := groupedDigits?_digitChars hne hlt
  have hvalue : decimalOf (Numeral.digits 10 n.natAbs) = n.natAbs := by
    rw [decimalOf_eq, Numeral.valueOf_digits (by decide)]
  rw [integer?, dropWhile_isPadding fun s => isPadding_of_mem_decimal,
    dropWhile_isPadding fun s hs => isPadding_of_mem_decimal (mem_reverse.mp hs),
    reverse_reverse]
  by_cases hsign : n < 0
  · rw [signText, if_pos hsign]
    simp only [singleton_append, digitText, hgrouped, hlength, if_false, if_true, hvalue]
    rw [show -((n.natAbs : Nat) : Int) = n by omega]
  · -- the first digit is no sign
    obtain ⟨d, rest, hdigits⟩ := exists_cons_of_ne_nil hne
    have hd := digitChar_plain (hlt d (by rw [hdigits]; exact mem_cons_self))
    have hhead : digitText 10 n.natAbs = .char (digitChar d) ::
        rest.map fun d => .char (digitChar d) := by rw [digitText, hdigits]; rfl
    rw [signText, if_neg hsign, nil_append]
    split
    next negative digits hbody =>
    split at hbody
    · next heq => exact absurd (Symbol.char.inj (List.cons.inj (hhead.symm.trans heq)).1) hd.2.1
    · next heq => exact absurd (Symbol.char.inj (List.cons.inj (hhead.symm.trans heq)).1) hd.2.2.1
    · cases hbody
      simp only [digitText, hgrouped, hlength, if_false, hvalue, Bool.false_eq_true]
      rw [show ((n.natAbs : Nat) : Int) = n by omega]

end Text

namespace CommandLine

variable {a : Arguments} {input : Path} {config config' : Toml.Table}

/-! ## The configured radix -/

/-- What is wrong with the radix of a configuration: it is an integer that is no radix. A value of
another type counts as none. -/
def radixFault? (config : Toml.Table) : Option SettingsFault :=
  match config.get? "radix" with
  | some (.integer n) =>
    if 2 ≤ n ∧ n ≤ 36 then none
    else
      match decimalText n with
      | .ok text => some (.value (.radixOutOfRange text))
      | .error cause => some (.failure cause)
  | _ => none

/-- A radix has few digits. -/
theorem exists_decimalText (h : 2 ≤ n ∧ n ≤ 36) : ∃ text, decimalText n = .ok text := by
  obtain ⟨k, rfl⟩ := Int.eq_ofNat_of_zero_le (by omega : 0 ≤ n)
  have hk : k < 10 ^ 2 := by omega
  exact ⟨_, Numeral.decimalText_of_lt
    (hk.trans_le (Nat.pow_le_pow_right (by decide) (by decide)))⟩

theorem readRadix_of_decimalText (h : decimalText n = .ok text) :
    readRadix text = if 2 ≤ n ∧ n ≤ 36 then .ok n else .error (.radixOutOfRange text) := by
  simp only [readRadix, Text.integer?_of_decimalText h, Bool.and_eq_true, decide_eq_true_eq]

/-- The radix of a configuration is refused just if something is wrong with it. -/
theorem configRadix_cases (config : Toml.Table) :
    (∃ fault, radixFault? config = some fault ∧ configRadix config = .error fault) ∨
      (radixFault? config = none ∧ ∃ radix, configRadix config = .ok radix) := by
  unfold radixFault? configRadix
  cases config.get? "radix" with
  | none => exact .inr ⟨rfl, _, rfl⟩
  | some value =>
    cases value with
    | integer n =>
      simp only
      cases htext : decimalText n with
      | error cause =>
        have hrange : ¬(2 ≤ n ∧ n ≤ 36) := by
          intro hrange
          obtain ⟨text, hok⟩ := exists_decimalText hrange
          rw [hok] at htext
          cases htext
        exact .inl ⟨.failure cause, if_neg hrange, rfl⟩
      | ok text =>
        simp only [readRadix_of_decimalText htext]
        by_cases hrange : 2 ≤ n ∧ n ≤ 36
        · exact .inr ⟨if_pos hrange, n, by rw [if_pos hrange]⟩
        · exact .inl ⟨.value (.radixOutOfRange text), if_neg hrange, by rw [if_neg hrange]⟩
    | _ => exact .inr ⟨rfl, _, rfl⟩

theorem radixFault?_eq_some (h : radixFault? config = some fault) :
    (∃ text, fault = .value (.radixOutOfRange text)) ∨ ∃ cause, fault = .failure cause := by
  unfold radixFault? at h
  split at h
  · split at h
    · cases h
    · split at h
      · exact .inl ⟨_, (Option.some.inj h).symm⟩
      · exact .inr ⟨_, (Option.some.inj h).symm⟩
  · cases h

theorem derivedOutput_eq_error (h : derivedOutput input extension = .error fault) :
    (∃ text, fault = .value (.badExtension text)) ∨ fault = .noExtension := by
  unfold derivedOutput at h
  split at h
  · split at h
    · cases h
    · exact .inl ⟨_, (Except.error.inj h).symm⟩
  · split at h
    · exact .inl ⟨_, (Except.error.inj h).symm⟩
    · exact .inr (Except.error.inj h).symm

/-- What is wrong with a radix is never what is wrong with an output file. -/
theorem outputFrom_ne_error (h : radixFault? config = some fault)
    (extension : Option Text) : outputFrom a input extension ≠ .error fault := by
  intro hfault
  unfold outputFrom at hfault
  split at hfault
  · cases hfault
  · rcases radixFault?_eq_some h with ⟨_, rfl⟩ | ⟨_, rfl⟩ <;>
      rcases derivedOutput_eq_error hfault with ⟨_, heq⟩ | heq <;> cases heq

/-! ## Configurations that differ in one key -/

/-- The configurations agree on all keys other than `key`. -/
def AgreeApart (key : Text) (config config' : Toml.Table) : Prop :=
  ∀ other, other ≠ key → config.get? other = config'.get? other

theorem agreeApart_cons {key : Text} {value value' : Toml.Value} {rest : Toml.Table} :
    AgreeApart key ((key, value) :: rest) ((key, value') :: rest) := by
  intro other hother
  have hbeq : (other == key) = false := by simpa using hother
  rw [Toml.Table.get?, Toml.Table.get?, lookup_cons, lookup_cons, hbeq]

theorem extensionFrom_of_given (h : a.extension ≠ .absent) :
    extensionFrom a config = extensionFrom a config' := by
  unfold extensionFrom
  cases hgiven : a.extension with
  | absent => exact absurd hgiven h
  | empty => rfl
  | value text => rfl

theorem outputFrom_of_named {extension' : Option Text} (h : ∃ s rest, a.output = some (s :: rest)) :
    outputFrom a input extension = outputFrom a input extension' := by
  obtain ⟨s, rest, hnamed⟩ := h
  rw [outputFrom, outputFrom, hnamed]

theorem radixFrom_of_given (h : a.radix ≠ .absent) (radix radix' : Int) :
    radixFrom a radix = radixFrom a radix' := by
  unfold radixFrom
  cases hgiven : a.radix with
  | absent => exact absurd hgiven h
  | empty => rfl
  | value radix => rfl

/-- The settings for arguments that give the radix, if the configured one is not in the way. -/
def settled (a : Arguments) (input : Path) (config : Toml.Table) (includes : List (Option Text)) :
    Except SettingsFault Settings := do
  let output ← outputFrom a input (extensionFrom a config)
  return { input, output, includes, radix := radixFrom a Numeral.defaultRadix, debug := a.debug }

theorem settled_ne_error (h : radixFault? config' = some fault)
    (includes : List (Option Text)) : settled a input config includes ≠ .error fault := by
  have houtput : outputFrom a input (extensionFrom a config) ≠ .error fault :=
    outputFrom_ne_error h _
  rw [settled]
  cases heq : outputFrom a input (extensionFrom a config) with
  | ok output => exact fun h => by cases h
  | error e => exact fun h => houtput (heq.trans (congrArg _ (Except.error.inj h)))

/-- The configured radix can be in the way of the one that the arguments give, but is not used. -/
theorem resolve_of_radix_given (h : a.radix ≠ .absent) :
    Settings.resolve a input config =
      includesFrom a config >>= fun includes =>
        match radixFault? config with
        | some fault => .error fault
        | none => settled a input config includes := by
  rw [Settings.resolve]
  refine congrArg _ (funext fun includes => ?_)
  rcases configRadix_cases config with ⟨fault, hfault, hconfig⟩ | ⟨hnone, radix, hconfig⟩
  · rw [hfault, hconfig]
    rfl
  · rw [hnone, hconfig, settled]
    simp only [bind, Except.bind, radixFrom_of_given h radix Numeral.defaultRadix]

theorem resolve_congr_of_radix_given (h : AgreeApart "radix" config config')
    (hgiven : a.radix ≠ .absent) :
    Settings.resolve a input config = Settings.resolve a input config' ↔
      (∃ fault, includesFrom a config = .error fault) ∨
        radixFault? config = radixFault? config' := by
  have hincludes : includesFrom a config' = includesFrom a config := by
    rw [includesFrom, includesFrom, h _ (by decide)]
  have hsettled : settled a input config' = settled a input config := by
    unfold settled extensionFrom
    rw [h _ (by decide)]
  rw [resolve_of_radix_given hgiven, resolve_of_radix_given hgiven, hincludes, hsettled]
  cases includesFrom a config with
  | error fault => exact iff_of_true rfl (.inl ⟨fault, rfl⟩)
  | ok includes =>
    cases hc : radixFault? config with
    | none =>
      cases hc' : radixFault? config' with
      | none => exact iff_of_true rfl (.inr rfl)
      | some fault => exact iff_of_false (settled_ne_error hc' includes) (by simp)
    | some fault =>
      cases hc' : radixFault? config' with
      | none => exact iff_of_false (settled_ne_error hc includes).symm (by simp)
      | some fault' => simp [bind, Except.bind]

theorem resolve_congr_of_extension_unused
    (h : AgreeApart "extension" config config')
    (hgiven : a.extension ≠ .absent ∨ ∃ s rest, a.output = some (s :: rest)) :
    Settings.resolve a input config = Settings.resolve a input config' := by
  have houtput : outputFrom a input (extensionFrom a config) =
      outputFrom a input (extensionFrom a config') := by
    rcases hgiven with hextension | hnamed
    · rw [extensionFrom_of_given hextension]
    · exact outputFrom_of_named hnamed
  have hincludes : includesFrom a config = includesFrom a config' := by
    rw [includesFrom, includesFrom, h _ (by decide)]
  have hradix : configRadix config = configRadix config' := by
    rw [configRadix, configRadix, h _ (by decide)]
  rw [Settings.resolve, Settings.resolve, hincludes, hradix, houtput]

/-- **The arguments have precedence over the configuration.** A run whose arguments give the radix
depends on the configured one by its fault only, and not even by that if it has failed before. A run
whose arguments give the suffix or name the output file does not depend on the configured suffix. -/
theorem resolve_precedence (a : Arguments) (input : Path) (config config' : Toml.Table) :
    (AgreeApart "radix" config config' → a.radix ≠ .absent →
      (Settings.resolve a input config = Settings.resolve a input config' ↔
        (∃ fault, includesFrom a config = .error fault) ∨
          radixFault? config = radixFault? config')) ∧
    (AgreeApart "extension" config config' →
      (a.extension ≠ .absent ∨ ∃ s rest, a.output = some (s :: rest)) →
        Settings.resolve a input config = Settings.resolve a input config') :=
  ⟨resolve_congr_of_radix_given, resolve_congr_of_extension_unused⟩

/-- A radix that is no number is as good as an octal one, and no suffix as good as any. -/
theorem resolve_precedence_given :
    Settings.resolve { radix := .value 16 } (Path.ofText "prog.mac") [("radix", .string "x")] =
      Settings.resolve { radix := .value 16 } (Path.ofText "prog.mac") [("radix", .integer 8)] ∧
    Settings.resolve { output := some "out" } (Path.ofText "prog.mac") [("extension", .integer 1)] =
      Settings.resolve { output := some "out" } (Path.ofText "prog.mac")
        [("extension", .string ".asm")] :=
  ⟨((resolve_precedence _ _ _ _).1 agreeApart_cons (by decide)).mpr (.inr (by decide)),
    (resolve_precedence _ _ _ _).2 agreeApart_cons (.inr ⟨_, _, rfl⟩)⟩

/-- An integer that is no radix is in the way of the one that the arguments give. -/
theorem configured_radix_in_the_way :
    AgreeApart "radix" [("radix", .integer 99)] [("radix", .integer 8)] ∧
      Settings.resolve { radix := .value 16 } (Path.ofText "prog.mac") [("radix", .integer 99)] =
        .error (.value (.radixOutOfRange "99")) ∧
      Settings.resolve { radix := .value 16 } (Path.ofText "prog.mac") [("radix", .integer 8)] =
        .ok { input := Path.ofText "prog.mac", output := Path.ofText "prog.cvt.asm",
              includes := [some "macros.inc"], radix := some 16, debug := false } :=
  ⟨agreeApart_cons, by decide, by decide⟩

end CommandLine

end Macro10
