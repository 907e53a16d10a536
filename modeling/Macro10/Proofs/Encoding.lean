import Macro10.Text.Encoding

/-!
# The bytes that spell a text

Each character is spelled in UTF-8, and a stray byte by itself (`Spells`). What is written for a
text spells it, and the text that is read from a file is spelled by the bytes of the file
(`spells_decode`), well-formed or not.
-/

namespace Macro10.Text

/-- The bytes spell the text. -/
inductive Spells : List UInt8 → Text → Prop
  | nil : Spells [] []
  | char (c : Char) {bytes : List UInt8} {t : Text} (h : Spells bytes t) :
      Spells (String.utf8EncodeChar c ++ bytes) (.char c :: t)
  | stray (b : UInt8) {bytes : List UInt8} {t : Text} (h : Spells bytes t) :
      Spells (b :: bytes) (.stray b :: t)

theorem spells_encode (t : Text) : Spells (encode t) t := by
  induction t with
  | nil => exact .nil
  | cons s t ih =>
    cases s with
    | char c => exact .char c ih
    | stray b => exact .stray b ih

/-! ## Single characters -/

theorem toNat_ofNat {n : Nat} (h : n.isValidChar) : (Char.ofNat n).val.toNat = n := by
  rw [Char.ofNat, dif_pos h]
  rfl

/-- A character between bounds has the code point itself. -/
theorem toNat_of_charBetween? {lo hi n : Nat} {c : Char} (hhi : hi ≤ 0x10FFFF)
    (h : charBetween? lo hi n = some c) : c.val.toNat = n ∧ lo ≤ n ∧ n ≤ hi := by
  unfold charBetween? at h
  split at h
  · next hbounds =>
    simp only [Bool.and_eq_true, Bool.not_eq_true', Bool.and_eq_false_iff, decide_eq_true_eq,
      decide_eq_false_iff_not, Nat.not_le] at hbounds
    have hvalid : n.isValidChar := by
      unfold Nat.isValidChar
      omega
    cases h
    exact ⟨toNat_ofNat hvalid, hbounds.1⟩
  · cases h

theorem isContinuation_iff {b : UInt8} :
    isContinuation b = true ↔ 0x80 ≤ b.toNat ∧ b.toNat < 0xC0 := by
  simp [isContinuation, UInt8.le_iff_toNat_le, UInt8.lt_iff_toNat_lt]

theorem ofNat_eq_of_toNat {n : Nat} {b : UInt8} (h : n = b.toNat) : UInt8.ofNat n = b := by
  rw [h, UInt8.ofNat_toNat]

section

variable {a b₁ b₂ b₃ : UInt8} {c : Char}

/-- A character of two bytes. -/
theorem utf8EncodeChar_two (hlow : 0xC0 ≤ a.toNat) (hhigh : a.toNat < 0xE0)
    (hbytes : isContinuation b₁ = true)
    (h : charBetween? 0x80 0x7FF (a.toNat % 0x20 * 0x40 + payload b₁) = some c) :
    String.utf8EncodeChar c = [a, b₁] := by
  rw [isContinuation_iff] at hbytes
  obtain ⟨hvalue, hlo, hhi⟩ := toNat_of_charBetween? (by decide) h
  unfold payload at hvalue hlo hhi
  rw [String.utf8EncodeChar, hvalue, if_neg (by omega), if_pos (by omega),
    ofNat_eq_of_toNat (b := a) (by omega), ofNat_eq_of_toNat (b := b₁) (by omega)]

/-- A character of three bytes. -/
theorem utf8EncodeChar_three (hlow : 0xE0 ≤ a.toNat) (hhigh : a.toNat < 0xF0)
    (hbytes : (isContinuation b₁ && isContinuation b₂) = true)
    (h : charBetween? 0x800 0xFFFF
      (a.toNat % 0x10 * 0x1000 + payload b₁ * 0x40 + payload b₂) = some c) :
    String.utf8EncodeChar c = [a, b₁, b₂] := by
  simp only [Bool.and_eq_true, isContinuation_iff] at hbytes
  obtain ⟨hvalue, hlo, hhi⟩ := toNat_of_charBetween? (by decide) h
  unfold payload at hvalue hlo hhi
  rw [String.utf8EncodeChar, hvalue, if_neg (by omega), if_neg (by omega), if_pos (by omega),
    ofNat_eq_of_toNat (b := a) (by omega), ofNat_eq_of_toNat (b := b₁) (by omega),
    ofNat_eq_of_toNat (b := b₂) (by omega)]

/-- A character of four bytes. -/
theorem utf8EncodeChar_four (hlow : 0xF0 ≤ a.toNat) (hhigh : a.toNat < 0xF8)
    (hbytes : (isContinuation b₁ && isContinuation b₂ && isContinuation b₃) = true)
    (h : charBetween? 0x10000 0x10FFFF (a.toNat % 0x08 * 0x40000 + payload b₁ * 0x1000 +
      payload b₂ * 0x40 + payload b₃) = some c) :
    String.utf8EncodeChar c = [a, b₁, b₂, b₃] := by
  simp only [Bool.and_eq_true, isContinuation_iff] at hbytes
  obtain ⟨hvalue, hlo, hhi⟩ := toNat_of_charBetween? (by decide) h
  unfold payload at hvalue hlo hhi
  rw [String.utf8EncodeChar, hvalue, if_neg (by omega), if_neg (by omega), if_neg (by omega),
    ofNat_eq_of_toNat (b := a) (by omega), ofNat_eq_of_toNat (b := b₁) (by omega),
    ofNat_eq_of_toNat (b := b₂) (by omega), ofNat_eq_of_toNat (b := b₃) (by omega)]

end

/-- The bytes at the start spell the character that is read there. -/
theorem take_of_firstChar? {bytes : List UInt8} {c : Char} {size : Nat}
    (h : firstChar? bytes = some (c, size)) :
    bytes.take size = String.utf8EncodeChar c ∧ 0 < size := by
  have hread {k : Nat} {read : Option Char} (h : read.map (·, k) = some (c, size)) :
      read = some c ∧ size = k := by
    obtain ⟨c', hc, heq⟩ := Option.map_eq_some_iff.mp h
    cases heq
    exact ⟨hc, rfl⟩
  unfold firstChar? at h
  split at h
  · cases h
  next a rest =>
  simp only [UInt8.lt_iff_toNat_lt] at h
  split at h
  · next ha =>
    cases h
    rw [String.utf8EncodeChar, toNat_ofNat (.inl (Nat.lt_trans ha (by decide))),
      if_pos (Nat.le_of_lt_succ ha), UInt8.ofNat_toNat]
    exact ⟨rfl, by decide⟩
  split at h
  · cases h
  next hC0 =>
  split at h
  · next hE0 =>
    split at h
    · split at h
      · next hbytes =>
        obtain ⟨hc, rfl⟩ := hread h
        exact ⟨(utf8EncodeChar_two (Nat.le_of_not_lt hC0) hE0 hbytes hc).symm, by decide⟩
      · cases h
    · cases h
  next hE0 =>
  split at h
  · next hF0 =>
    split at h
    · split at h
      · next hbytes =>
        obtain ⟨hc, rfl⟩ := hread h
        exact ⟨(utf8EncodeChar_three (Nat.le_of_not_lt hE0) hF0 hbytes hc).symm, by decide⟩
      · cases h
    · cases h
  next hF0 =>
  split at h
  · next hF8 =>
    split at h
    · split at h
      · next hbytes =>
        obtain ⟨hc, rfl⟩ := hread h
        exact ⟨(utf8EncodeChar_four (Nat.le_of_not_lt hF0) hF8 hbytes hc).symm, by decide⟩
      · cases h
    · cases h
  · cases h

/-! ## Whole files -/

theorem encode_decodeAfter (taken : Nat) (bytes : List UInt8) :
    encode (decodeAfter taken bytes) = bytes.drop taken := by
  fun_induction decodeAfter taken bytes with
  | case1 => simp
  | case2 taken b rest ih => exact ih
  | case3 b rest c size hfirst ih =>
    obtain ⟨htake, hpos⟩ := take_of_firstChar? hfirst
    obtain ⟨n, rfl⟩ := Nat.exists_eq_succ_of_ne_zero (Nat.ne_of_gt hpos)
    rw [encode, List.flatMap_cons, ← encode, ih, encodeSymbol, ← htake]
    exact List.take_append_drop (n + 1) (b :: rest)
  | case4 b rest hfirst ih =>
    rw [encode, List.flatMap_cons, ← encode, ih, encodeSymbol]
    rfl

/-- **Reading loses nothing.** The bytes of a file spell the text that is read from it. -/
theorem spells_decode (bytes : List UInt8) : Spells bytes (decode bytes) := by
  have hspells := spells_encode (decode bytes)
  rwa [decode, encode_decodeAfter, List.drop_zero] at hspells

end Macro10.Text
