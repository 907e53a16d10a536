import Macro10.Keyword
import Macro10.Proofs.Numeral

/-!
# Complaints about words

Two rules complain when nothing follows their word: those for immediate instructions and for
messages. The complaint stands where the word stands and has its length, as only texts of six
symbols have the keyword as their upper-case form (`Diagnostic.Complains.length_eq`).
-/

namespace Macro10

open List

/-! ## Lengths of upper-case forms -/

namespace Text

variable {t : Text}

theorem upperSymbol_cases (s : Symbol) :
    (∃ u, upperSymbol s = [u]) ∨
      ∃ e ∈ expansions, upperSymbol s = e.2.map fun n => .char (Char.ofNat n) := by
  cases s with
  | stray b => exact .inl ⟨.stray b, rfl⟩
  | char c =>
    rw [upperSymbol, upperChar]
    cases capitalOf c.toNat caseRuns with
    | some n => exact .inl ⟨.char (Char.ofNat n), rfl⟩
    | none =>
      cases hexpansion : expansionOf c.toNat expansions with
      | none => exact .inl ⟨.char c, rfl⟩
      | some points =>
        exact .inr ⟨(c.toNat, points), mem_of_expansionOf hexpansion, List.map_map ..⟩

theorem upperSymbol_ne_nil (s : Symbol) : upperSymbol s ≠ [] := by
  rcases upperSymbol_cases s with ⟨u, hu⟩ | ⟨e, he, hu⟩
  · simp [hu]
  · have hlength := two_le_length_expansions e he
    intro hnil
    have hzero : e.2.length = 0 := by simpa using congrArg List.length (hu.symm.trans hnil)
    omega

/-- A text without its last symbol has a shorter upper-case form. -/
theorem length_upper_dropLast_lt (ht : t ≠ []) : (upper t.dropLast).length < (upper t).length := by
  have hlast := length_pos_iff.mpr (upperSymbol_ne_nil (t.getLast ht))
  have heq : upper t = upper t.dropLast ++ upperSymbol (t.getLast ht) := by
    conv_lhs => rw [← dropLast_concat_getLast ht]
    simp
  rw [heq, length_append]
  omega

/-- A text is as long as its upper-case form if each expansion has a symbol that is not there. -/
theorem length_upper_of_forall_mem {w : Text}
    (hw : ∀ e ∈ expansions, ∃ n ∈ e.2, .char (Char.ofNat n) ∉ w)
    (ht : ∀ s ∈ upper t, s ∈ w) : (upper t).length = t.length := by
  induction t with
  | nil => rfl
  | cons s t ih =>
    simp only [upper_cons, mem_append] at ht ⊢
    rw [length_append, ih fun u hu => ht u (.inr hu), length_cons]
    rcases upperSymbol_cases s with ⟨u, hu⟩ | ⟨e, he, hu⟩
    · rw [hu, length_singleton, Nat.add_comm]
    · obtain ⟨n, hn, hnot⟩ := hw e he
      exact absurd (ht _ (.inl (hu ▸ mem_map_of_mem hn))) hnot

end Text

/-! ## Words -/

namespace Keyword

variable {word t : Text}

/-- A rule may complain that something should follow the word. -/
def isReported (word : Text) : Bool := immediates.elem word || word = message

theorem mem_of_isReported (h : isReported word = true) : word ∈ message :: immediates := by
  simpa [isReported, or_comm] using h

theorem four_le_length_of_isReported (h : isReported word = true) : 4 ≤ word.length := by
  have hall : ∀ word ∈ message :: immediates, 4 ≤ word.length := by decide
  exact hall word (mem_of_isReported h)

theorem not_isReported_dropLast (h : immediates.elem (Text.upper t) = true) :
    isReported (Text.upper t.dropLast) = false := by
  have hall : ∀ word ∈ immediates, word.length = 4 := by decide
  have hlength := hall _ (elem_iff.mp h)
  have ht : t ≠ [] := by
    rintro rfl
    exact absurd hlength (by simp)
  rw [Bool.eq_false_iff]
  intro hreported
  have hshort := Text.length_upper_dropLast_lt ht
  have hlong := four_le_length_of_isReported hreported
  omega

/-- Only texts of six symbols have the keyword of messages as their upper-case form. -/
theorem length_eq_of_upper_eq_message (h : Text.upper t = message) : message.length = t.length := by
  rw [← h]
  refine Text.length_upper_of_forall_mem (w := message) ?_ fun s hs => h ▸ hs
  decide +kernel

end Keyword

/-! ## Complaints -/

/-- The diagnostic complains about the word `t`. -/
structure Diagnostic.Complains (g : Diagnostic) (t : Token) : Prop where
  kind : t.kind = .identifier
  position : g.position = t.position.getD ⟨1, 1⟩
  problem : Keyword.immediates.elem t.upper = true ∧ g.problem = .noOperand t.words ∧
      g.length = t.words.length ∨
    t.upper = Keyword.message ∧ g.problem = .noMessage ∧ g.length = Keyword.message.length

namespace Diagnostic.Complains

variable {g : Diagnostic} {t t' : Token}

theorem isReported (h : g.Complains t) : Keyword.isReported t.upper = true := by
  rcases h.problem with ⟨hword, -⟩ | ⟨hword, -⟩ <;> simp_all [Keyword.isReported]

theorem congr (h : g.Complains t') (hkind : t.kind = .identifier)
    (hposition : t'.position = t.position) (htext : t'.text = t.text) : g.Complains t := by
  have hwords : t'.words = t.words := by rw [Token.words, Token.words, htext]
  have hupper : t'.upper = t.upper := by rw [Token.upper, Token.upper, hwords]
  exact ⟨hkind, hposition ▸ h.position, hwords ▸ hupper ▸ h.problem⟩

/-- **A complaint about a word is as long as the word.** -/
theorem length_eq (h : g.Complains t) : g.length = t.words.length := by
  rcases h.problem with ⟨-, -, hlength⟩ | ⟨hword, -, hlength⟩
  · exact hlength
  · rw [hlength, Keyword.length_eq_of_upper_eq_message hword]

end Diagnostic.Complains

end Macro10
