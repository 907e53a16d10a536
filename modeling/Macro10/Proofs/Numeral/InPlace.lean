import Macro10.Proofs.Source.Over

/-!
# Numerals converted in place

The reader converts a numeral as it adds the token (`Reader.settle`), and `Edit.convertNumeral`
converts a token that already stands in a document. Both come to the same.
-/

namespace Macro10

variable {d : Document} {r : Reader} {last : Option Id} {i : Id} {kind kind' : Kind}
  {text text' : Text} {position : Position} {rest f : Forest} {change : Token → Token}

/-- The row of tokens up to `last` looks like a forest, which has its last piece first. -/
inductive EndsAs (tokens : Array Token) : Option Id → Forest → Prop
  | nil : EndsAs tokens none .nil
  | leaf {i : Id} {t : Token} {kind : Kind} {text : Text} {position : Position} {rest : Forest}
      (ht : tokens[i]? = some t) (hkind : t.kind = kind) (htext : t.text = some text)
      (hposition : t.position = some position) (hprev : ∀ j ∈ t.prev, j < i)
      (hrest : EndsAs tokens t.prev rest) : EndsAs tokens (some i) (.leaf kind text position rest)
  | group {i : Id} {t : Token} {position : Position} {closed : Bool} {children rest : Forest}
      (ht : tokens[i]? = some t) (hkind : t.kind = .container)
      (hposition : t.position = some position) (hprev : ∀ j ∈ t.prev, j < i)
      (hrest : EndsAs tokens t.prev rest) :
      EndsAs tokens (some i) (.group position closed children rest)

namespace EndsAs

/-- A change to a later token does not show. -/
theorem change_later (h : EndsAs d.tokens last f) (hlast : ∀ j ∈ last, j < i) :
    EndsAs (d.change i change).tokens last f := by
  have hkeep {j : Id} (hj : j < i) : (d.change i change).tokens[j]? = d.tokens[j]? :=
    Document.getElem?_change_ne hj.ne ..
  induction h with
  | nil => exact .nil
  | leaf ht hkind htext hposition hprev _ ih =>
    have hi := hlast _ rfl
    exact .leaf ((hkeep hi).trans ht) hkind htext hposition hprev
      (ih fun j hj => (hprev j hj).trans hi)
  | group ht hkind hposition hprev _ ih =>
    have hi := hlast _ rfl
    exact .group ((hkeep hi).trans ht) hkind hposition hprev (ih fun j hj => (hprev j hj).trans hi)

/-- The last token may change its looks. -/
theorem change_last (h : EndsAs d.tokens (some i) (.leaf kind text position rest))
    (hchange : ∀ t, (change t).kind = kind' ∧ (change t).text = some text' ∧
      (change t).position = t.position ∧ (change t).prev = t.prev) :
    EndsAs (d.change i change).tokens (some i) (.leaf kind' text' position rest) := by
  cases h with
  | @leaf _ t _ _ _ _ ht _ _ hposition hprev hrest =>
    obtain ⟨hkind, htext, hsame, hlink⟩ := hchange t
    refine .leaf (Document.getElem?_change_self ht _) hkind htext (hsame.trans hposition) ?_ ?_
    · rwa [hlink]
    · rw [hlink]
      exact hrest.change_later hprev

/-- The token before it may be blanked out. -/
theorem blank_before {t : Token} {p : Position} (ht : d.tokens[i]? = some t)
    (h : EndsAs d.tokens (some i) (.leaf kind text position (.leaf kind' text' p rest))) :
    ∃ j, t.prev = some j ∧ j < d.tokens.size ∧ EndsAs (d.change j Token.blanked).tokens (some i)
      (.leaf kind text position (.leaf .whitespace [] p rest)) := by
  cases h with
  | leaf ht' hkind htext hposition hprev hrest =>
  cases ht.symm.trans ht'
  cases hj : t.prev with
  | none =>
    rw [hj] at hrest
    cases hrest
  | some j =>
    have hlt := hprev j hj
    have hi := Document.lt_size_of_getElem? ht
    refine ⟨j, rfl, hlt.trans hi, .leaf ((Document.getElem?_change_ne hlt.ne' ..).trans ht) hkind
      htext hposition hprev ?_⟩
    rw [hj] at hrest ⊢
    exact hrest.change_last fun t => ⟨rfl, rfl, rfl, rfl⟩

/-- A mark is seen by the reader and in the document. -/
theorem isOperator (h : EndsAs d.tokens last r.scope) :
    d.isOperator "^" last = .ok r.afterMark := by
  rw [Reader.afterMark_eq]
  generalize r.scope = f at h ⊢
  cases h with
  | nil => rfl
  | leaf ht hkind htext =>
    subst hkind
    simp [Document.isOperator, Document.token_eq_ok_iff.mpr ht, Token.isOperator, htext,
      Forest.items, Reader.isMark]
    rfl
  | group ht hkind =>
    simp [Document.isOperator, Document.token_eq_ok_iff.mpr ht, Token.isOperator, hkind,
      Forest.items, Reader.isMark]

end EndsAs

/-- Only a name of two letters or more may be a marked numeral. -/
theorem Numeral.judge_of_short {radix : Int} {b : Bool}
    (h : ¬(kind = .identifier && 2 ≤ text.length) = true) :
    judge kind text b radix = judge kind text false radix := by
  cases kind with
  | identifier =>
    obtain _ | ⟨_, _ | _⟩ := text
    · cases b <;> rfl
    · cases b <;> rfl
    · simp at h
  | _ => rfl

/-- **To convert a token in place is to read it as a numeral.** -/
theorem Edit.yields_convertNumeral {radix : Int} {verdict : Numeral.Verdict}
    (h : EndsAs d.tokens (some i) (r.put kind text position).scope)
    (hd : d.diagnostics = r.diagnostics)
    (hjudge : Numeral.judge kind text r.afterMark radix = .ok verdict) :
    Yields (convertNumeral i radix) d fun _ d' =>
      EndsAs d'.tokens (some i) (r.settle kind text position verdict).scope ∧
        d'.diagnostics = (r.settle kind text position verdict).diagnostics := by
  cases id h with
  | @leaf _ t _ _ _ _ ht hkind htext hposition hprev hrest =>
  subst hkind
  have hwords : t.words = text := by rw [Token.words, htext, Option.getD_some]
  have hb : ∃ b, (if t.kind = .identifier && 2 ≤ t.words.length then d.isOperator "^" t.prev
      else .ok false) = .ok b ∧ Numeral.judge t.kind t.words b radix = .ok verdict := by
    rw [hwords]
    split
    · exact ⟨_, hrest.isOperator, hjudge⟩
    · next hshort => exact ⟨false, rfl, by rwa [← Numeral.judge_of_short hshort]⟩
  obtain ⟨b, hb, hverdict⟩ := hb
  refine yields_token_bind ht (yields_ask_bind hb (yields_ask_bind hverdict ?_))
  rw [hwords, hposition]
  have hi := Document.lt_size_of_getElem? ht
  have hnumber (new : Text) :
      EndsAs (d.change i fun t => { t with kind := .number, text := some new }).tokens (some i)
        (.leaf .number new position r.scope) :=
    h.change_last fun t => ⟨rfl, rfl, rfl, rfl⟩
  cases verdict with
  | unconcerned => exact yields_pure ⟨h, hd⟩
  | refusedMark problem => exact ⟨(), _, rfl, h, congrArg (· ++ [_]) hd⟩
  | refused problem =>
    refine Yields.bind (R := fun _ d' => d' = reported d problem (some position) text.length
      .warning) ⟨(), _, rfl, rfl⟩ ?_
    rintro _ _ rfl
    exact yields_update_bind hi (yields_pure ⟨hnumber text, congrArg (· ++ [_]) hd⟩)
  | converted new => exact yields_update_bind hi (yields_pure ⟨hnumber new, hd⟩)
  | convertedMark new =>
    obtain ⟨p, rest, hscope⟩ := Reader.exists_of_afterMark (Reader.afterMark_of_judge hjudge)
    have hblank : r.blankLast = { r with scope := .leaf .whitespace [] p rest } := by
      rw [Reader.blankLast, hscope]
    have hmarked := hnumber new
    rw [hscope] at hmarked
    obtain ⟨j, hj, hlt, hend⟩ := hmarked.blank_before (Document.getElem?_change_self ht _)
    refine yields_update_bind hi ?_
    rw [show t.prev = some j from hj]
    refine yields_update hlt ?_
    simpa [Reader.settle, hblank] using ⟨hend, hd⟩

end Macro10
