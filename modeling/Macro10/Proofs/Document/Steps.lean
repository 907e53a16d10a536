import Macro10.Document.Edit

/-!
# Steps that succeed

`Edit.Yields step d Q` says that a step succeeds on the document `d` and that its answer and the new
document satisfy `Q`. There is one lemma for a sequence, and one for each of the smallest steps as
the first of a sequence. `Document.Kept P d d'` says that `d'` came from `d` by changes at the
places in `P` and by new tokens.
-/

namespace Macro10

variable {d : Document} {i : Id} {t : Token}

/-! ## Changes to a document -/

namespace Document

/-- The document with the token at `i` changed. -/
def change (d : Document) (i : Id) (f : Token → Token) : Document :=
  { d with tokens := d.tokens.modify i f }

/-- The document with a new token. -/
def extend (d : Document) (t : Token) : Document := { d with tokens := d.tokens.push t }

@[simp]
theorem size_change (d : Document) (i : Id) (f : Token → Token) :
    (d.change i f).tokens.size = d.tokens.size := by
  simp [change]

@[simp]
theorem size_extend (d : Document) (t : Token) : (d.extend t).tokens.size = d.tokens.size + 1 := by
  simp [extend]

theorem getElem?_change_self (h : d.tokens[i]? = some t)
    (f : Token → Token) : (d.change i f).tokens[i]? = some (f t) := by
  simp [change, Array.getElem?_modify, h]

/-- Other tokens stay as they are. -/
theorem getElem?_change_ne {j : Id} (h : j ≠ i) (d : Document) (f : Token → Token) :
    (d.change i f).tokens[j]? = d.tokens[j]? := by
  simp [change, Array.getElem?_modify, Ne.symm h]

/-- The new token comes last. -/
theorem getElem?_extend_self (d : Document) (t : Token) :
    (d.extend t).tokens[d.tokens.size]? = some t := by
  simp [extend]

theorem getElem?_extend_of_lt (h : i < d.tokens.size) (t : Token) :
    (d.extend t).tokens[i]? = d.tokens[i]? := by
  simp [extend, Array.getElem?_push, Nat.ne_of_lt h]

theorem lt_size_of_getElem? (h : d.tokens[i]? = some t) :
    i < d.tokens.size := (Array.getElem?_eq_some_iff.mp h).1

/-! ## What stays -/

/-- Only the tokens at the places in `P` may have changed, and new tokens may have come. -/
structure Kept (P : Id → Prop) (d d' : Document) : Prop where
  size : d.tokens.size ≤ d'.tokens.size
  newline : d'.newline = d.newline
  root : d'.root = d.root
  tokens : ∀ i, i < d.tokens.size → ¬P i → d'.tokens[i]? = d.tokens[i]?

namespace Kept

variable {P Q : Id → Prop} {d' d'' : Document}

theorem refl (P : Id → Prop) (d : Document) : Kept P d d :=
  ⟨Nat.le_refl _, rfl, rfl, fun _ _ _ => rfl⟩

/-- More tokens may change. -/
theorem mono (h : Kept P d d') (hPQ : ∀ i, i < d.tokens.size → P i → Q i) : Kept Q d d' :=
  ⟨h.size, h.newline, h.root, fun i hi hQ => h.tokens i hi fun hP => hQ (hPQ i hi hP)⟩

/-- Places that are new after the first change do not count in the second. -/
theorem trans (h : Kept P d d') (h' : Kept Q d' d'')
    (hQ : ∀ i, i < d.tokens.size → Q i → P i) : Kept P d d'' where
  size := Nat.le_trans h.size h'.size
  newline := h'.newline.trans h.newline
  root := h'.root.trans h.root
  tokens := by
    intro i hi hP
    rw [h'.tokens i (Nat.lt_of_lt_of_le hi h.size) fun hq => hP (hQ i hi hq), h.tokens i hi hP]

theorem change (d : Document) (i : Id) (f : Token → Token) (hP : P i) :
    Kept P d (d.change i f) where
  size := by simp
  newline := rfl
  root := rfl
  tokens := fun j _ hj => getElem?_change_ne (by rintro rfl; exact hj hP) d f

theorem extend (P : Id → Prop) (d : Document) (t : Token) : Kept P d (d.extend t) where
  size := by simp
  newline := rfl
  root := rfl
  tokens := fun _ hi _ => getElem?_extend_of_lt hi t

/-- A token that is not among the changed ones is still there. -/
theorem getElem? (h : Kept P d d') (ht : d.tokens[i]? = some t)
    (hP : ¬P i) : d'.tokens[i]? = some t := by
  rw [h.tokens i (lt_size_of_getElem? ht) hP, ht]

end Kept

end Document

/-! ## Steps -/

namespace Edit

variable {change : Token → Token}

variable {α β : Type}

/-- The step succeeds, and its answer and the new document satisfy `Q`. -/
def Yields (step : Edit α) (d : Document) (Q : α → Document → Prop) : Prop :=
  ∃ a d', step d = .ok a d' ∧ Q a d'

theorem yields_pure {a : α} {Q : α → Document → Prop} (h : Q a d) :
    Yields (pure a) d Q := ⟨a, d, rfl, h⟩

/-- Less may be asked for. -/
theorem Yields.mono {step : Edit α} {Q Q' : α → Document → Prop} (h : Yields step d Q)
    (hQ : ∀ a d', Q a d' → Q' a d') : Yields step d Q' := by
  obtain ⟨a, d', hrun, ha⟩ := h
  exact ⟨a, d', hrun, hQ a d' ha⟩

/-- One step after another. -/
theorem Yields.bind {step : Edit α} {f : α → Edit β} {R : α → Document → Prop}
    {Q : β → Document → Prop} (h : Yields step d R)
    (hf : ∀ a d', R a d' → Yields (f a) d' Q) : Yields (step >>= f) d Q := by
  obtain ⟨a, d', hrun, ha⟩ := h
  obtain ⟨b, d'', hrun', hb⟩ := hf a d' ha
  refine ⟨b, d'', ?_, hb⟩
  simp only [Bind.bind, EStateM.bind, hrun, hrun']

/-- A question first. -/
theorem yields_ask_bind {question : Document → Except Failure α} {f : α → Edit β} {a : α}
    {Q : β → Document → Prop} (ha : question d = .ok a) (h : Yields (f a) d Q) :
    Yields (ask question >>= f) d Q := by
  refine Yields.bind (R := fun b d' => b = a ∧ d' = d) ⟨a, d, ?_, rfl, rfl⟩ ?_
  · simp only [ask, ha]
  · rintro _ _ ⟨rfl, rfl⟩
    exact h

/-- A look at a token first. -/
theorem yields_token_bind {f : Token → Edit β} {Q : β → Document → Prop}
    (ht : d.tokens[i]? = some t) (h : Yields (f t) d Q) : Yields (token i >>= f) d Q :=
  yields_ask_bind (Document.token_eq_ok_iff.mpr ht) h

theorem yields_update {Q : Unit → Document → Prop} (hi : i < d.tokens.size)
    (h : Q () (d.change i change)) : Yields (update i change) d Q :=
  ⟨(), d.change i change, by simp only [update, if_pos hi, Document.change], h⟩

/-- A change of a token first. -/
theorem yields_update_bind {f : Unit → Edit β} {Q : β → Document → Prop} (hi : i < d.tokens.size)
    (h : Yields (f ()) (d.change i change) Q) : Yields (update i change >>= f) d Q :=
  (yields_update (Q := fun _ d' => d' = d.change i change) hi rfl).bind fun _ _ hd => hd ▸ h

/-- The token that `synthesize` makes. -/
def made (kind : Kind) (text : Text) : Token :=
  { kind, text := some text, children := if kind = .container then some [] else none }

/-- A new token first. -/
theorem yields_synthesize_bind {kind : Kind} {text : Text} {f : Id → Edit β}
    {Q : β → Document → Prop} (h : Yields (f d.tokens.size) (d.extend (made kind text)) Q) :
    Yields (synthesize kind text >>= f) d Q := by
  refine Yields.bind
    (R := fun i d' => i = d.tokens.size ∧ d' = d.extend (made kind text)) ⟨_, _, rfl, rfl, rfl⟩ ?_
  rintro _ _ ⟨rfl, rfl⟩
  exact h

/-- The document with one more diagnostic. -/
def reported (d : Document) (problem : Problem) (position : Option Position) (length : Int)
    (severity : Severity) : Document :=
  { d with
    diagnostics := d.diagnostics ++ [⟨problem, position.getD ⟨1, 1⟩, severity, length⟩] }

end Edit

end Macro10
