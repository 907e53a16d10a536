import Macro10.Conversion
import Macro10.Proofs.Complaint
import Macro10.Proofs.Document.Steps

/-!
# How a document evolves

An edit appends tokens and changes tokens at their places: one that is changed keeps its position,
and its kind and its numeral unless it is blanked out; one that is appended has no position. What is
reported is a complaint about a word that was there (`Document.Evolves`). That the passes do no more
is shown along with how two of their runs compare (`Edit.Course`).
-/

namespace Macro10

/-! ## Tokens and documents -/

/-- What may become of a token; `marks` tells whether it keeps its marks. -/
structure Token.Evolves (marks : Bool) (t t' : Token) : Prop where
  position : t'.position = t.position
  kind : t'.kind = t.kind ∨ t'.kind = .whitespace
  numeral : t.kind = .number → t'.kind = .number → t'.text = t.text
  word : t'.kind = .identifier → Keyword.isReported t'.upper = true → t'.text = t.text
  marks : marks = true → t'.owner = t.owner ∧ t'.parts = t.parts ∧ t'.body = t.body

namespace Token.Evolves

variable {marks : Bool} {t t' t'' : Token}

theorem refl (t : Token) : t.Evolves marks t :=
  ⟨rfl, .inl rfl, fun _ _ => rfl, fun _ _ => rfl, fun _ => ⟨rfl, rfl, rfl⟩⟩

/-- A token that is not blanked out was of the same kind before. -/
theorem kind_eq {kind : Kind} (h : t.Evolves marks t') (hkind : t'.kind = kind)
    (hne : kind ≠ .whitespace) : t.kind = kind := by
  rcases h.kind with heq | heq
  · exact heq.symm.trans hkind
  · exact absurd (hkind.symm.trans heq) hne

theorem trans (h : t.Evolves marks t') (h' : t'.Evolves marks t'') : t.Evolves marks t'' where
  position := h'.position.trans h.position
  kind := by
    rcases h'.kind with hkind | hkind
    · rw [hkind]
      exact h.kind
    · exact .inr hkind
  numeral := by
    intro ht ht''
    have ht' := h'.kind_eq ht'' (by decide)
    rw [h'.numeral ht' ht'', h.numeral ht ht']
  word := by
    intro ht'' hreported
    have htext := h'.word ht'' hreported
    have hupper : t''.upper = t'.upper := by rw [upper, upper, words, words, htext]
    rw [htext, h.word (h'.kind_eq ht'' (by decide)) (hupper ▸ hreported)]
  marks := by
    intro hmarks
    obtain ⟨howner, hparts, hbody⟩ := h.marks hmarks
    obtain ⟨howner', hparts', hbody'⟩ := h'.marks hmarks
    exact ⟨howner'.trans howner, hparts'.trans hparts, hbody'.trans hbody⟩

theorem of_eq (hposition : t'.position = t.position) (hkind : t'.kind = t.kind)
    (htext : t'.text = t.text)
    (hmarks : marks = true → t'.owner = t.owner ∧ t'.parts = t.parts ∧ t'.body = t.body) :
    t.Evolves marks t' :=
  ⟨hposition, .inl hkind, fun _ _ => htext, fun _ _ => htext, hmarks⟩

theorem blanked (t : Token) : t.Evolves marks t.blanked :=
  ⟨rfl, .inr rfl, fun _ h => (nomatch h), fun h => (nomatch h), fun _ => ⟨rfl, rfl, rfl⟩⟩

end Token.Evolves

/-- What is true of a token when it is made. -/
structure Token.Fresh (t : Token) : Prop where
  position : t.position = none
  kind : t.kind ≠ .container
  word : t.kind = .identifier → Keyword.isReported t.upper = false

namespace Document

/-- The tokens of `d` are still there in `d'`, and each has evolved; the others were made. What is
reported since then are complaints about words of `d`. -/
structure Evolves (marks : Bool) (d d' : Document) : Prop where
  size : d.tokens.size ≤ d'.tokens.size
  tokens : ∀ {i : Id} {t : Token}, d.tokens[i]? = some t →
    ∃ t', d'.tokens[i]? = some t' ∧ t.Evolves marks t'
  fresh : ∀ {i : Id} {t : Token}, d.tokens.size ≤ i → d'.tokens[i]? = some t →
    ∃ t₀ : Token, t₀.Fresh ∧ t₀.Evolves marks t
  reports : ∀ g ∈ d'.diagnostics, g ∈ d.diagnostics ∨
    ∃ (i : Id) (t : Token), d.tokens[i]? = some t ∧ g.Complains t
  silent : marks = false → d'.diagnostics = d.diagnostics

/-- There is a token at `i`, and it is no numeral. -/
def NoNumeral (d : Document) (i : Id) : Prop :=
  ∃ t, d.tokens[i]? = some t ∧ t.kind ≠ .number

namespace Evolves

variable {i : Id} {t : Token}

variable {marks : Bool} {d d' d'' : Document}

theorem of_tokens_eq (h : d'.tokens = d.tokens) (hreports : d'.diagnostics = d.diagnostics) :
    d.Evolves marks d' where
  size := Nat.le_of_eq (by rw [h])
  tokens := fun ht => ⟨_, h ▸ ht, .refl _⟩
  fresh := by
    intro i t hi ht
    rw [h] at ht
    exact absurd (lt_size_of_getElem? ht) (not_lt.mpr hi)
  reports := fun _ hg => .inl (hreports ▸ hg)
  silent := fun _ => hreports

theorem refl (d : Document) : d.Evolves marks d := of_tokens_eq rfl rfl

section

variable (h : d.Evolves marks d')
include h

theorem made (hi : d.tokens.size ≤ i) (ht : d'.tokens[i]? = some t) : t.position = none := by
  obtain ⟨t₀, hfresh, hevolves⟩ := h.fresh hi ht
  exact hevolves.position.trans hfresh.position

/-- A complaint about a word of the later document is one about the same word before. -/
theorem complains {t' : Token} {g : Diagnostic} (ht' : d'.tokens[i]? = some t')
    (hg : g.Complains t') : ∃ t, d.tokens[i]? = some t ∧ g.Complains t := by
  by_cases hi : i < d.tokens.size
  · have ht := Array.getElem?_eq_getElem hi
    obtain ⟨u, hu, hevolves⟩ := h.tokens ht
    cases hu.symm.trans ht'
    exact ⟨_, ht, hg.congr (hevolves.kind_eq hg.kind (by decide)) hevolves.position
      (hevolves.word hg.kind hg.isReported)⟩
  · -- a token that was made is no word to complain about
    obtain ⟨t₀, hfresh, hevolves⟩ := h.fresh (not_lt.mp hi) ht'
    have hkind := hevolves.kind_eq hg.kind (by decide)
    have hbefore := hg.congr hkind hevolves.position (hevolves.word hg.kind hg.isReported)
    exact absurd hbefore.isReported (by simp [hfresh.word hkind])

/-- What is reported after two changes, which may treat marks differently. -/
theorem reports_trans {marks' : Bool} (h' : d'.Evolves marks' d'') :
    ∀ g ∈ d''.diagnostics, g ∈ d.diagnostics ∨
      ∃ (i : Id) (t : Token), d.tokens[i]? = some t ∧ g.Complains t := by
  intro g hg
  rcases h'.reports g hg with hg | ⟨i, t', ht', hcomplains⟩
  · exact h.reports g hg
  · exact .inr ⟨i, h.complains ht' hcomplains⟩

theorem trans (h' : d'.Evolves marks d'') : d.Evolves marks d'' where
  size := Nat.le_trans h.size h'.size
  tokens := by
    intro i t ht
    obtain ⟨t', ht', hevolves⟩ := h.tokens ht
    obtain ⟨t'', ht'', hevolves'⟩ := h'.tokens ht'
    exact ⟨t'', ht'', hevolves.trans hevolves'⟩
  fresh := by
    intro i t hi ht
    by_cases hlt : i < d'.tokens.size
    · have ht' := Array.getElem?_eq_getElem hlt
      obtain ⟨t'', ht'', hevolves⟩ := h'.tokens ht'
      cases ht''.symm.trans ht
      obtain ⟨t₀, hfresh, hbefore⟩ := h.fresh hi ht'
      exact ⟨t₀, hfresh, hbefore.trans hevolves⟩
    · exact h'.fresh (not_lt.mp hlt) ht
  reports := h.reports_trans h'
  silent := fun hmarks => (h'.silent hmarks).trans (h.silent hmarks)

end

theorem change {f : Token → Token} (hf : ∀ t, d.tokens[i]? = some t → t.Evolves marks (f t)) :
    d.Evolves marks (d.change i f) where
  size := by simp
  tokens := by
    intro j t ht
    by_cases hj : j = i
    · subst hj
      exact ⟨f t, getElem?_change_self ht f, hf t ht⟩
    · exact ⟨t, by rw [getElem?_change_ne hj, ht], .refl t⟩
  fresh := by
    intro j t hj ht
    have hlt := lt_size_of_getElem? ht
    rw [size_change] at hlt
    exact absurd hlt (not_lt.mpr hj)
  reports := fun _ hg => .inl hg
  silent := fun _ => rfl

theorem extend (d : Document) (ht : t.Fresh) : d.Evolves marks (d.extend t) where
  size := by simp
  tokens := fun hj =>
    ⟨_, by rw [getElem?_extend_of_lt (lt_size_of_getElem? hj), hj], .refl _⟩
  fresh := by
    intro j u hj hu
    have hlt := lt_size_of_getElem? hu
    rw [size_extend] at hlt
    obtain rfl : j = d.tokens.size := Nat.le_antisymm (Nat.le_of_lt_succ hlt) hj
    rw [getElem?_extend_self] at hu
    cases hu
    exact ⟨t, ht, .refl t⟩
  reports := fun _ hg => .inl hg
  silent := fun _ => rfl

theorem noNumeral (h : d.Evolves marks d') (hi : d.NoNumeral i) : d'.NoNumeral i := by
  obtain ⟨t, ht, hkind⟩ := hi
  obtain ⟨t', ht', hevolves⟩ := h.tokens ht
  exact ⟨t', ht', fun hnumber => hkind (hevolves.kind_eq hnumber (by decide))⟩

end Evolves

end Document

end Macro10
