import Macro10.Proofs.Document.Evolution
import Macro10.Proofs.Literal

/-!
# Two runs side by side

Two documents are *alike* if they differ in nothing but the texts of some literals, and in the
warnings about digit strings (`Document.Alike`). A text in which they differ starts like a literal
on both sides, so no rule takes it for a keyword, an operator or white space.

An edit is followed in both at once (`Edit.Course.Lockstep`). Most steps run in lockstep with
themselves (`Edit.Course.Steady`); those that give a token another text need to know that it is no
numeral, so the places of such tokens are a parameter.
-/

namespace Macro10

open List
open Text (SameSpacing upper)

variable {t : Token} {d e d' e' : Document} {i : Id} {f : Token → Token} {P : Position → Prop}

/-! ## Tokens -/

/-- The text of the token may differ: it is a numeral that `P` allows, or a string that was made. -/
def Token.Varies (P : Position → Prop) (t : Token) : Prop :=
  t.kind = .number ∧ (∃ p, t.position = some p ∧ P p) ∨ t.kind = .string ∧ t.position = none

/-- The tokens differ in nothing but the texts of literals. -/
structure Token.Alike (P : Position → Prop) (t u : Token) : Prop where
  others : u = { t with text := u.text }
  text : u.text = t.text ∨ t.Varies P ∧ t.words.opensLiteral = true ∧ u.words.opensLiteral = true

namespace Token.Alike

theorem refl (t : Token) : t.Alike P t := ⟨rfl, .inl rfl⟩

variable {u : Token} (h : t.Alike P u)
include h

theorem kind : u.kind = t.kind := by rw [h.others]

theorem position : u.position = t.position := by rw [h.others]

theorem children : u.children = t.children := by rw [h.others]

theorem opening : u.opening = t.opening := by rw [h.others]

theorem closing : u.closing = t.closing := by rw [h.others]

theorem prev : u.prev = t.prev := by rw [h.others]

theorem next : u.next = t.next := by rw [h.others]

theorem parent : u.parent = t.parent := by rw [h.others]

theorem owner : u.owner = t.owner := by rw [h.others]

theorem parts : u.parts = t.parts := by rw [h.others]

theorem body : u.body = t.body := by rw [h.others]

theorem eq (hnumber : t.kind ≠ .number) (hstring : t.kind ≠ .string) : u = t := by
  rcases h.text with htext | ⟨hvaries, -⟩
  · rw [h.others, htext]
  · rcases hvaries with ⟨hkind, -⟩ | ⟨hkind, -⟩
    · exact absurd hkind hnumber
    · exact absurd hkind hstring

theorem isNewline : u.isNewline = t.isNewline := by
  by_cases hkind : t.kind = .whitespace
  · rw [h.eq (by simp [hkind]) (by simp [hkind])]
  · simp [Token.isNewline, h.kind, hkind]

theorem isBlank : u.isBlank = t.isBlank := by
  simp only [Token.isBlank, h.kind, h.isNewline]

theorem isSpacing : Document.isSpacing u = Document.isSpacing t := by
  simp only [Document.isSpacing, h.kind]

theorem isOperator (text : Text) : u.isOperator text = t.isOperator text := by
  by_cases hkind : t.kind = .operator
  · rw [h.eq (by simp [hkind]) (by simp [hkind])]
  · simp [Token.isOperator, h.kind, hkind]

/-- The tokens are the same text of a kind, if that is the kind of no literal. -/
theorem is_iff {kind : Kind} (hnumber : kind ≠ .number) (hstring : kind ≠ .string)
    (text : Option Text) : (u.kind = kind && u.text = text) = (t.kind = kind && t.text = text) := by
  by_cases hkind : t.kind = kind
  · rw [h.eq (hkind ▸ hnumber) (hkind ▸ hstring)]
  · simp [h.kind, hkind]

/-- The tokens are the same keyword, or none. -/
theorem upper_eq_or :
    u.upper = t.upper ∨ t.upper.opensLiteral = true ∧ u.upper.opensLiteral = true := by
  rcases h.text with htext | ⟨-, ht, hu⟩
  · exact .inl (by simp only [Token.upper, Token.words, htext])
  · exact .inr ⟨Text.opensLiteral_upper ht, Text.opensLiteral_upper hu⟩

theorem ofWord? : Head.ofWord? u.upper = Head.ofWord? t.upper := by
  rcases h.upper_eq_or with heq | ⟨ht, hu⟩
  · rw [heq]
  · rw [Head.ofWord?_of_opensLiteral ht, Head.ofWord?_of_opensLiteral hu]

theorem all_isSpace : u.words.all Symbol.isSpace = t.words.all Symbol.isSpace := by
  rcases h.text with htext | ⟨-, ht, hu⟩
  · simp only [Token.words, htext]
  · rw [Text.all_isSpace_of_opensLiteral ht, Text.all_isSpace_of_opensLiteral hu]

theorem map (hf : ∀ (v : Token) (text : Option Text), f { v with text } = { f v with text })
    (hkeep : ∀ v : Token, (f v).kind = v.kind ∧ (f v).position = v.position ∧ (f v).text = v.text) :
    (f t).Alike P (f u) := by
  obtain ⟨hkind, hposition, htext⟩ := hkeep t
  have hu := (hkeep u).2.2
  constructor
  · rw [hu, ← hf, ← h.others]
  · simpa only [Token.Varies, Token.words, hkind, hposition, htext, hu] using h.text

theorem setText (text : Option Text) : ({ t with text } : Token).Alike P { u with text } := by
  rw [h.others]
  exact .refl _

theorem setText_of_varies (hvaries : t.Varies P) {a b : Text}
    (ha : a.opensLiteral = true) (hb : b.opensLiteral = true) :
    ({ t with text := some a } : Token).Alike P { u with text := some b } := by
  rw [h.others]
  exact ⟨rfl, .inr ⟨hvaries, ha, hb⟩⟩

theorem blanked : t.blanked.Alike P u.blanked := by
  rw [h.others]
  exact .refl _

end Token.Alike

/-! ## Documents -/

/-- The problem is a digit string that is no numeral in the radix in force. -/
def Problem.isBareNumeral : Problem → Bool
  | badNumeral _ _ => true
  | _ => false

namespace Document

theorem change_id (d : Document) (i : Id) : d.change i id = d := by
  have htokens : d.tokens.modify i id = d.tokens := by
    refine Array.ext (by simp) fun j _ _ => ?_
    simp [Array.getElem_modify]
  rw [change, htokens]

/-- The diagnostics other than the warnings about digit strings. -/
def lasting (d : Document) : List Diagnostic :=
  d.diagnostics.filter fun x => !x.problem.isBareNumeral

/-- The documents differ in nothing but the texts of literals and the warnings about digit
strings. -/
structure Alike (P : Position → Prop) (d e : Document) : Prop where
  size : e.tokens.size = d.tokens.size
  tokens : ∀ {i : Id} {t u : Token}, d.tokens[i]? = some t → e.tokens[i]? = some u → t.Alike P u
  root : e.root = d.root
  newline : e.newline = d.newline
  lasting : e.lasting = d.lasting

namespace Alike

theorem refl (d : Document) : d.Alike P d where
  size := rfl
  tokens := by
    intro i t u ht hu
    cases ht.symm.trans hu
    exact .refl t
  root := rfl
  newline := rfl
  lasting := rfl

theorem walkLimit (h : d.Alike P e) : e.walkLimit = d.walkLimit :=
  congrArg (· + 1) h.size

theorem change (h : d.Alike P e) {g : Token → Token}
    (hfg : ∀ t u, d.tokens[i]? = some t → e.tokens[i]? = some u → t.Alike P u →
      (f t).Alike P (g u)) :
    (d.change i f).Alike P (e.change i g) where
  size := by simp [h.size]
  root := h.root
  newline := h.newline
  lasting := h.lasting
  tokens := by
    intro j t' u' ht' hu'
    by_cases hj : j = i
    · subst hj
      have hd := lt_size_of_getElem? ht'
      have he := lt_size_of_getElem? hu'
      rw [size_change] at hd he
      have ht := Array.getElem?_eq_getElem hd
      have hu := Array.getElem?_eq_getElem he
      rw [getElem?_change_self ht] at ht'
      rw [getElem?_change_self hu] at hu'
      cases ht'
      cases hu'
      exact hfg _ _ ht hu (h.tokens ht hu)
    · rw [getElem?_change_ne hj] at ht' hu'
      exact h.tokens ht' hu'

theorem extend (h : d.Alike P e) {u : Token} (htu : t.Alike P u) :
    (d.extend t).Alike P (e.extend u) where
  size := by simp [h.size]
  root := h.root
  newline := h.newline
  lasting := h.lasting
  tokens := by
    intro j t' u' ht' hu'
    have hj := lt_size_of_getElem? ht'
    rw [size_extend] at hj
    rcases Nat.lt_or_eq_of_le (Nat.le_of_lt_succ hj) with hlt | rfl
    · rw [getElem?_extend_of_lt hlt] at ht'
      rw [getElem?_extend_of_lt (h.size.symm ▸ hlt)] at hu'
      exact h.tokens ht' hu'
    · rw [getElem?_extend_self] at ht'
      rw [← h.size, getElem?_extend_self] at hu'
      cases ht'
      cases hu'
      exact htu

theorem report (h : d.Alike P e) (x : Diagnostic) :
    Alike P { d with diagnostics := d.diagnostics ++ [x] }
      { e with diagnostics := e.diagnostics ++ [x] } :=
  { h with
    lasting := by
      have hlasting := h.lasting
      simp only [Document.lasting] at hlasting
      simp only [Document.lasting, filter_append, hlasting] }

end Alike

/-! ## Questions -/

section

variable {α β γ δ : Type} {R : α → β → Prop} {S : γ → δ → Prop}

/-- On alike documents the questions have answers related by `R`. -/
def Agree (P : Position → Prop) (R : α → β → Prop) (q : Document → Except Failure α)
    (q' : Document → Except Failure β) : Prop :=
  ∀ d e a b, d.Alike P e → q d = .ok a → q' e = .ok b → R a b

/-- The question has the same answer on alike documents. -/
abbrev Steady (P : Position → Prop) (q : Document → Except Failure α) : Prop := Agree P Eq q q

theorem agree_ok {a : α} {b : β} (h : R a b) : Agree P R (fun _ => .ok a) (fun _ => .ok b) := by
  intro d e a' b' _ ha hb
  cases ha
  cases hb
  exact h

theorem agree_error (e : Failure) (q : Document → Except Failure β) :
    Agree P R (fun _ => .error e) q :=
  fun _ _ _ _ _ h _ => nomatch h

theorem Agree.bind {q : Document → Except Failure α} {q' : Document → Except Failure β}
    {f : Document → α → Except Failure γ} {f' : Document → β → Except Failure δ}
    (h : Agree P R q q') (hf : ∀ a b, R a b → Agree P S (fun d => f d a) (fun e => f' e b)) :
    Agree P S (fun d => q d >>= f d) (fun e => q' e >>= f' e) := by
  intro d e c c' halike hc hc'
  cases ha : q d with
  | error x => simp only [ha] at hc; cases hc
  | ok a =>
    cases hb : q' e with
    | error x => simp only [hb] at hc'; cases hc'
    | ok b =>
      simp only [ha] at hc
      simp only [hb] at hc'
      exact hf a b (h d e a b halike ha hb) d e c c' halike hc hc'

theorem agree_token (i : Id) : Agree P (Token.Alike P) (·.token i) (·.token i) :=
  fun _ _ _ _ halike ht hu => halike.tokens (token_eq_ok_iff.mp ht) (token_eq_ok_iff.mp hu)

/-- A question with a number of steps that is the same for alike documents. -/
theorem agree_walkLimit {q : Nat → Document → Except Failure α}
    {q' : Nat → Document → Except Failure β} (h : ∀ fuel, Agree P R (q fuel) (q' fuel)) :
    Agree P R (fun d => q d.walkLimit d) (fun e => q' e.walkLimit e) := by
  intro d e a b halike ha hb
  dsimp only at hb
  rw [halike.walkLimit] at hb
  exact h d.walkLimit d e a b halike ha hb

end

theorem agree_isOperator (text : Text) (i : Option Id) : Steady P (·.isOperator text i) := by
  cases i with
  | none => exact agree_ok rfl
  | some i => exact (agree_token i).bind fun t u h => agree_ok (h.isOperator text).symm

theorem agree_seek {step : Token → Option Id} {skip : Token → Bool}
    (hstep : ∀ t u, Token.Alike P t u → step u = step t)
    (hskip : ∀ t u, Token.Alike P t u → skip u = skip t) (fuel : Nat) (start : Option Id) :
    Steady P (·.seek step skip fuel start) := by
  induction fuel generalizing start with
  | zero =>
    cases start with
    | none => exact agree_ok rfl
    | some i => exact agree_error _ _
  | succ fuel ih =>
    cases start with
    | none => exact agree_ok rfl
    | some i =>
      refine (agree_token i).bind fun t u h => ?_
      simp only [hstep t u h, hskip t u h]
      split
      · exact ih _
      · exact agree_ok rfl

/-- The nearest token after or before a token that is not to be skipped. -/
theorem agree_seekFrom {step : Token → Option Id} {skip : Token → Bool}
    (hstep : ∀ t u, Token.Alike P t u → step u = step t)
    (hskip : ∀ t u, Token.Alike P t u → skip u = skip t) (i : Id) :
    Steady P fun d => d.token i >>= fun t => d.seek step skip d.walkLimit (step t) := by
  refine (agree_token i).bind fun t u h => ?_
  simp only [hstep t u h]
  exact agree_walkLimit fun fuel => agree_seek hstep hskip fuel _

theorem agree_prevSolid (i : Id) : Steady P (·.prevSolid i) :=
  agree_seekFrom (fun _ _ h => h.prev) (fun _ _ h => h.isSpacing) i

theorem agree_nextSolid (i : Id) : Steady P (·.nextSolid i) :=
  agree_seekFrom (fun _ _ h => h.next) (fun _ _ h => h.isSpacing) i

theorem agree_nextNonBlank (i : Id) : Steady P (·.nextNonBlank i) :=
  agree_seekFrom (fun _ _ h => h.next) (fun _ _ h => h.isBlank) i

theorem agree_solidFrom (i : Id) : Steady P (·.solidFrom i) := by
  refine (agree_token i).bind fun t u h => ?_
  simp only [h.isSpacing]
  split
  · exact agree_nextSolid i
  · exact agree_ok rfl

theorem agree_lineStartFrom (fuel : Nat) (current : Id) (before : Option Id) :
    Steady P (·.lineStartFrom fuel current before) := by
  induction fuel generalizing current before with
  | zero =>
    cases before with
    | none => exact agree_ok rfl
    | some i => exact agree_error _ _
  | succ fuel ih =>
    cases before with
    | none => exact agree_ok rfl
    | some i =>
      refine (agree_token i).bind fun t u h => ?_
      simp only [h.isNewline, h.prev]
      split
      · exact agree_ok rfl
      · exact ih _ _

theorem agree_lineStart (i : Id) : Steady P (·.lineStart i) := by
  refine (agree_token i).bind fun t u h => ?_
  simp only [h.prev]
  exact agree_walkLimit fun fuel => agree_lineStartFrom fuel i _

theorem agree_findBefore {stop stop' found : Token → Bool}
    (hstop : ∀ t u, Token.Alike P t u → stop' u = stop t)
    (hfound : ∀ t u, Token.Alike P t u → found u = found t) (fuel : Nat) (start : Option Id) :
    Agree P Eq (·.findBefore stop found fuel start) (·.findBefore stop' found fuel start) := by
  induction fuel generalizing start with
  | zero =>
    cases start with
    | none => exact agree_ok rfl
    | some i => exact agree_error _ _
  | succ fuel ih =>
    cases start with
    | none => exact agree_ok rfl
    | some i =>
      refine (agree_token i).bind fun t u h => ?_
      simp only [hstop t u h, hfound t u h, h.next]
      split
      · exact agree_ok rfl
      split
      · exact agree_ok rfl
      · exact ih _

theorem agree_findInArguments (i : Id) (kind : Kind) (hnumber : kind ≠ .number)
    (hstring : kind ≠ .string) (text : Option Text) :
    Steady P (·.findInArguments i kind text) := by
  refine (agree_token i).bind fun t u h => ?_
  simp only [h.next]
  refine agree_walkLimit fun fuel => agree_findBefore (fun v w hvw => ?_)
    (fun v w hvw => hvw.is_iff hnumber hstring text) fuel _
  rw [hvw.isNewline, hvw.owner, h.owner]

/-! ## Rendered texts -/

theorem agree_mapM {f : Document → Id → Except Failure Text}
    (hf : ∀ i, Agree P SameSpacing (f · i) (f · i)) (ids : List Id) :
    Agree P (fun a b : List Text => SameSpacing a.flatten b.flatten)
      (fun d => ids.mapM (f d)) (fun e => ids.mapM (f e)) := by
  induction ids with
  | nil => exact agree_ok rfl
  | cons i rest ih =>
    simp only [mapM_cons]
    refine (hf i).bind fun a b hab => ih.bind fun as bs habs => agree_ok ?_
    simp only [SameSpacing, flatten_cons, all_append] at *
    rw [hab, habs]

theorem agree_renderWithin (fuel : Nat) (i : Id) :
    Agree P SameSpacing (·.renderWithin fuel i) (·.renderWithin fuel i) := by
  induction fuel generalizing i with
  | zero => exact agree_error _ _
  | succ fuel ih =>
    refine (agree_token i).bind fun t u h => ?_
    simp only [h.kind, h.children, h.opening, h.closing]
    split
    · refine (agree_mapM (fun i => ih i) _).bind fun a b hab => agree_ok ?_
      simp only [SameSpacing, all_append] at *
      rw [hab]
    · exact agree_ok h.all_isSpace

theorem agree_renderList (ids : List Id) :
    Agree P SameSpacing (·.renderList ids) (·.renderList ids) :=
  (agree_mapM (fun i => agree_walkLimit fun fuel => agree_renderWithin fuel i) ids).bind
    fun _ _ h => agree_ok h

end Document

/-! ## Steps -/

namespace Edit

/-- Two runs: the first one started from `start`, and the documents that they come to are alike but
for what `varying` allows; `marks` tells whether tokens keep their marks. -/
structure Course where
  marks : Bool
  varying : Position → Prop
  start : Document

namespace Course

variable {text : Text}

/-- The documents that the two runs have come to; the tokens at the given places are no numerals. -/
structure Reached (c : Course) (ids : List Id) (d e : Document) : Prop where
  evolves : c.start.Evolves c.marks d
  alike : d.Alike c.varying e
  noNumeral : ∀ i ∈ ids, d.NoNumeral i

variable {α β γ δ : Type}

/-- If both steps succeed on the documents, their answers are related by `R`, and the runs have come
to the new documents. -/
def LockstepOn (c : Course) (ids : List Id) (d e : Document) (R : α → β → Prop) (s : Edit α)
    (s' : Edit β) : Prop :=
  ∀ a b d' e', s d = .ok a d' → s' e = .ok b e' → R a b ∧ c.Reached ids d' e'

/-- The steps run in lockstep on all documents that the runs come to. -/
def Lockstep (c : Course) (ids : List Id) (R : α → β → Prop) (s : Edit α) (s' : Edit β) : Prop :=
  ∀ d e : Document, c.Reached ids d e → c.LockstepOn ids d e R s s'

/-- The step runs in lockstep with itself and gives equal answers. -/
abbrev Steady (c : Course) (ids : List Id) (s : Edit α) : Prop := c.Lockstep ids Eq s s

variable {c : Course} {ids : List Id} {R : α → β → Prop}
  {S : γ → δ → Prop}

namespace Reached

theorem tail (h : c.Reached (i :: ids) d e) : c.Reached ids d e :=
  { h with noNumeral := (forall_mem_cons.mp h.noNumeral).2 }

/-- The first document evolves further, and stays like the second. -/
theorem evolve (h : c.Reached ids d e) (hd : d.Evolves c.marks d')
    (halike : d'.Alike c.varying e') : c.Reached ids d' e' :=
  ⟨h.evolves.trans hd, halike, fun i hi => hd.noNumeral (h.noNumeral i hi)⟩

theorem kind_ne (h : c.Reached ids d e) (hi : i ∈ ids) (ht : d.tokens[i]? = some t) :
    t.kind ≠ .number := by
  obtain ⟨u, hu, hne⟩ := h.noNumeral i hi
  cases hu.symm.trans ht
  exact hne

end Reached

theorem LockstepOn.bind {s : Edit α} {s' : Edit β} {f : α → Edit γ} {f' : β → Edit δ}
    (h : c.LockstepOn ids d e R s s') (hf : ∀ a b, R a b → c.Lockstep ids S (f a) (f' b)) :
    c.LockstepOn ids d e S (s >>= f) (s' >>= f') := by
  intro a' b' d'' e'' hd he
  simp only [Bind.bind, EStateM.bind] at hd he
  split at hd
  · next a d' ha =>
    split at he
    · next b e' hb =>
      obtain ⟨hab, hreached⟩ := h a b d' e' ha hb
      exact hf a b hab d' e' hreached a' b' d'' e'' hd he
    · cases he
  · cases hd

theorem LockstepOn.tail {s : Edit α} {s' : Edit β} (h : c.LockstepOn (i :: ids) d e R s s') :
    c.LockstepOn ids d e R s s' :=
  fun a b d' e' hd he => (h a b d' e' hd he).imp_right Reached.tail

theorem Lockstep.bind {s : Edit α} {s' : Edit β} {f : α → Edit γ} {f' : β → Edit δ}
    (h : c.Lockstep ids R s s') (hf : ∀ a b, R a b → c.Lockstep ids S (f a) (f' b)) :
    c.Lockstep ids S (s >>= f) (s' >>= f') :=
  fun d e hreached => (h d e hreached).bind hf

theorem Lockstep.seq {s s' : Edit α} {f : α → Edit γ} {f' : α → Edit δ} (h : c.Lockstep ids Eq s s')
    (hf : ∀ a, c.Lockstep ids S (f a) (f' a)) : c.Lockstep ids S (s >>= f) (s' >>= f') :=
  h.bind fun a _ hab => hab ▸ hf a

theorem lockstepOn_of_eq_ok {s : Edit α} {s' : Edit β} {a : α} {b : β}
    (hs : s d = .ok a d') (hs' : s' e = .ok b e') (hab : R a b) (h : c.Reached ids d' e') :
    c.LockstepOn ids d e R s s' := by
  intro _ _ _ _ ha hb
  obtain ⟨rfl, rfl⟩ := EStateM.Result.ok.inj (hs.symm.trans ha)
  obtain ⟨rfl, rfl⟩ := EStateM.Result.ok.inj (hs'.symm.trans hb)
  exact ⟨hab, h⟩

theorem lockstep_pure {a : α} {b : β} (h : R a b) : c.Lockstep ids R (pure a) (pure b) :=
  fun _ _ hreached => lockstepOn_of_eq_ok rfl rfl h hreached

theorem steady_pure (a : α) : c.Steady ids (pure a) := lockstep_pure rfl

theorem lockstep_throw (x : Failure) (s' : Edit β) : c.Lockstep ids R (throw x : Edit α) s' :=
  fun _ _ _ _ _ _ _ h _ => nomatch h

theorem lockstep_ask {q : Document → Except Failure α} {q' : Document → Except Failure β}
    (h : Document.Agree c.varying R q q') : c.Lockstep ids R (ask q) (ask q') := by
  intro d e hreached a b d' e' ha hb
  rw [ask] at ha hb
  split at ha
  · next a ha' =>
    split at hb
    · next b hb' =>
      obtain ⟨rfl, rfl⟩ := EStateM.Result.ok.inj ha
      obtain ⟨rfl, rfl⟩ := EStateM.Result.ok.inj hb
      exact ⟨h d e a b hreached.alike ha' hb', hreached⟩
    · cases hb
  · cases ha

theorem lockstep_token (i : Id) : c.Lockstep ids (Token.Alike c.varying) (token i) (token i) :=
  lockstep_ask (Document.agree_token i)

section

variable {f : Token → Edit γ} {f' : Token → Edit δ}

/-- A look at a token changes nothing, so what is known of the documents is still known. -/
theorem lockstepOn_token_bind
    (h : ∀ t u, d.tokens[i]? = some t → e.tokens[i]? = some u →
      c.LockstepOn ids d e S (f t) (f' u)) :
    c.LockstepOn ids d e S (token i >>= f) (token i >>= f') := by
  intro a b d' e' hd he
  simp only [Bind.bind, EStateM.bind, token, ask] at hd he
  cases ht : d.token i with
  | error x => rw [ht] at hd; cases hd
  | ok t =>
    cases hu : e.token i with
    | error x => rw [hu] at he; cases he
    | ok u =>
      rw [ht] at hd
      rw [hu] at he
      exact h t u (Document.token_eq_ok_iff.mp ht) (Document.token_eq_ok_iff.mp hu) a b d' e' hd he

/-- After a look at a token it is known whether it is a numeral. -/
theorem lockstepOn_token_bind_cases (hreached : c.Reached ids d e)
    (h : ∀ t u, d.tokens[i]? = some t → e.tokens[i]? = some u → t.kind ≠ .number →
      c.Reached (i :: ids) d e → c.LockstepOn (i :: ids) d e S (f t) (f' u))
    (hnumeral : ∀ t u, t.Alike c.varying u → t.kind = .number → c.Lockstep ids S (f t) (f' u)) :
    c.LockstepOn ids d e S (token i >>= f) (token i >>= f') := by
  refine lockstepOn_token_bind fun t u ht hu => ?_
  by_cases hkind : t.kind = .number
  · exact hnumeral t u (hreached.alike.tokens ht hu) hkind d e hreached
  · have hcons : c.Reached (i :: ids) d e :=
      { hreached with
        noNumeral := forall_mem_cons.mpr ⟨⟨t, ht, hkind⟩, hreached.noNumeral⟩ }
    exact (h t u ht hu hkind hcons).tail

theorem lockstep_token_bind_cases
    (h : ∀ t u, t.Alike c.varying u → t.kind ≠ .number → c.Lockstep (i :: ids) S (f t) (f' u))
    (hnumeral : ∀ t u, t.Alike c.varying u → t.kind = .number → c.Lockstep ids S (f t) (f' u)) :
    c.Lockstep ids S (token i >>= f) (token i >>= f') := fun d e hreached =>
  lockstepOn_token_bind_cases hreached (fun t u ht hu hkind hcons =>
    h t u (hreached.alike.tokens ht hu) hkind d e hcons) hnumeral

end

theorem lockstep_get : c.Lockstep ids (Document.Alike c.varying) (get : Edit Document) get :=
  fun _ _ hreached => lockstepOn_of_eq_ok rfl rfl hreached.alike hreached

theorem steady_setRoot (root : List Id) :
    c.Steady ids (modify fun d => { d with root } : Edit Unit) := by
  intro d e hreached
  refine lockstepOn_of_eq_ok rfl rfl rfl (hreached.evolve (.of_tokens_eq rfl rfl) ?_)
  exact { hreached.alike with root := rfl }

/-- Changes of a token that it may undergo, and that leave alike tokens alike. -/
theorem lockstepOn_update {f' : Token → Token} (hreached : c.Reached ids d e)
    (hf : ∀ t, d.tokens[i]? = some t → t.Evolves c.marks (f t))
    (h : ∀ t u, d.tokens[i]? = some t → e.tokens[i]? = some u → t.Alike c.varying u →
      (f t).Alike c.varying (f' u)) :
    c.LockstepOn ids d e Eq (update i f) (update i f') := by
  intro a b d' e' ha hb
  rw [update] at ha hb
  split at ha
  · split at hb
    · obtain ⟨rfl, rfl⟩ := EStateM.Result.ok.inj ha
      obtain ⟨rfl, rfl⟩ := EStateM.Result.ok.inj hb
      exact ⟨rfl, hreached.evolve (.change hf) (hreached.alike.change h)⟩
    · cases hb
  · cases ha

section

variable (i : Id) (hf : ∀ (v : Token) (text : Option Text), f { v with text } = { f v with text })
include hf

/-- A change that does not look at the text, and leaves the text, the kind and the position. -/
theorem steady_update
    (hkeep : ∀ v : Token, (f v).kind = v.kind ∧ (f v).position = v.position ∧ (f v).text = v.text)
    (hmarks : c.marks = true → ∀ v : Token,
      (f v).owner = v.owner ∧ (f v).parts = v.parts ∧ (f v).body = v.body) :
    c.Steady ids (update i f) := fun _ _ hreached =>
  lockstepOn_update hreached
    (fun t _ => .of_eq (hkeep t).2.1 (hkeep t).1 (hkeep t).2.2 fun hc => hmarks hc t)
    fun _ _ _ _ h => h.map hf hkeep

theorem steady_relink (hkeep : ∀ v : Token,
      ((f v).kind, (f v).position, (f v).text, (f v).owner, (f v).parts, (f v).body) =
        (v.kind, v.position, v.text, v.owner, v.parts, v.body)) :
    c.Steady ids (update i f) := by
  simp only [Prod.mk.injEq] at hkeep
  refine steady_update i hf (fun v => ?_) fun _ v => (hkeep v).2.2.2
  obtain ⟨hkind, hposition, htext, -⟩ := hkeep v
  exact ⟨hkind, hposition, htext⟩

/-- Where marks may change, the change may change them. -/
theorem steady_mark (hc : c.marks = false) (hkeep : ∀ v : Token,
      ((f v).kind, (f v).position, (f v).text) = (v.kind, v.position, v.text)) :
    c.Steady ids (update i f) := by
  simp only [Prod.mk.injEq] at hkeep
  exact steady_update i hf hkeep fun hmarks => by cases hc.symm.trans hmarks

end

/-- A token that is known to be no numeral gets a text that is no word to complain about. -/
theorem evolves_setText (h : c.Reached ids d e) (hi : i ∈ ids)
    (htext : Keyword.isReported (upper text) = false)
    (ht : d.tokens[i]? = some t) : t.Evolves c.marks { t with text := some text } :=
  ⟨rfl, .inl rfl, fun hkind _ => absurd hkind (h.kind_ne hi ht),
    fun _ hreported => (nomatch htext.symm.trans hreported), fun _ => ⟨rfl, rfl, rfl⟩⟩

theorem steady_setText (hi : i ∈ ids)
    (htext : Keyword.isReported (upper text) = false) : c.Steady ids (setText i text) :=
  fun _ _ hreached => lockstepOn_update hreached (fun _ => evolves_setText hreached hi htext)
    fun _ _ _ _ h => h.setText (some text)

theorem steady_blank (i : Id) : c.Steady ids (blank i) := fun _ _ hreached =>
  lockstepOn_update hreached (fun t _ => .blanked t) fun _ _ _ _ h => h.blanked

theorem steady_blankAll (places : List Id) : c.Steady ids (blankAll places) := by
  induction places with
  | nil => exact steady_pure ()
  | cons i rest ih => exact (steady_blank i).seq fun _ => ih

/-- A token that was blanked out is no numeral from then on. -/
theorem Lockstep.blank_bind {f : Unit → Edit γ} {f' : Unit → Edit δ}
    (hf : ∀ u, c.Lockstep (i :: ids) S (f u) (f' u)) :
    c.Lockstep ids S (blank i >>= f) (blank i >>= f') := by
  intro d e hreached
  have hblank : c.LockstepOn (i :: ids) d e Eq (blank i) (blank i) := by
    intro a b d' e' hd he
    obtain ⟨hab, hreached'⟩ := steady_blank i d e hreached a b d' e' hd he
    refine ⟨hab, { hreached' with
      noNumeral := forall_mem_cons.mpr ⟨?_, hreached'.noNumeral⟩ }⟩
    rw [blank, update] at hd
    split at hd
    · next hi =>
      obtain ⟨-, rfl⟩ := EStateM.Result.ok.inj hd
      have ht := Document.getElem?_change_self (Array.getElem?_eq_getElem hi) Token.blanked
      exact ⟨_, ht, by simp⟩
    · cases hd
  exact (hblank.bind fun u _ _ => hf u).tail

/-- New tokens, whose texts differ only in strings that start like literals. -/
theorem lockstep_synthesize {kind : Kind} {a b : Text}
    (hkind : kind ≠ .container ∧ (kind = .identifier → Keyword.isReported (upper a) = false))
    (h : a = b ∨ kind = .string ∧ a.opensLiteral = true ∧ b.opensLiteral = true) :
    c.Lockstep ids Eq (synthesize kind a) (synthesize kind b) := by
  intro d e hreached
  refine lockstepOn_of_eq_ok rfl rfl hreached.alike.size.symm
    (hreached.evolve (.extend d ⟨rfl, hkind.1, hkind.2⟩) (hreached.alike.extend ⟨rfl, ?_⟩))
  rcases h with rfl | ⟨hkind, ha, hb⟩
  · exact .inl rfl
  · exact .inr ⟨.inr ⟨hkind, rfl⟩, ha, hb⟩

theorem steady_synthesize (kind : Kind) (text : Text)
    (hkind : kind ≠ .container ∧ kind ≠ .identifier) : c.Steady ids (synthesize kind text) :=
  lockstep_synthesize ⟨hkind.1, fun h => absurd h hkind.2⟩ (.inl rfl)

theorem steady_synthesize_word (text : Text)
    (htext : Keyword.isReported (upper text) = false) :
    c.Steady ids (synthesize .identifier text) :=
  lockstep_synthesize ⟨nofun, fun _ => htext⟩ (.inl rfl)

/-- A complaint about a word that was there at the start. -/
theorem steady_report {problem : Problem} {position : Option Position} {length : Int}
    {severity : Severity} (hmarks : c.marks = true)
    (h : ∃ (i : Id) (t : Token), c.start.tokens[i]? = some t ∧
      Diagnostic.Complains ⟨problem, position.getD ⟨1, 1⟩, severity, length⟩ t) :
    c.Steady ids (report problem position length severity) := by
  intro d e hreached
  refine lockstepOn_of_eq_ok rfl rfl rfl ⟨{ hreached.evolves with
    reports := fun g hg => ?_, silent := fun hc => nomatch hc.symm.trans hmarks },
    hreached.alike.report _, hreached.noNumeral⟩
  rcases mem_append.mp hg with hg | hg
  · exact hreached.evolves.reports g hg
  · exact .inr (mem_singleton.mp hg ▸ h)

theorem steady_linkAfter (parent previous : Option Id) (places : List Id) :
    c.Steady ids (linkAfter parent previous places) := by
  induction places generalizing previous with
  | nil => exact steady_pure ()
  | cons i rest ih =>
    refine Lockstep.seq (steady_relink i (fun _ _ => rfl) fun _ => rfl) fun _ => ?_
    cases previous with
    | none => exact (steady_pure ()).seq fun _ => ih (some i)
    | some before =>
      exact Lockstep.seq (steady_relink before (fun _ _ => rfl) fun _ => rfl) fun _ => ih (some i)

theorem steady_link (places : List Id) (parent : Option Id) :
    c.Steady ids (link places parent) := steady_linkAfter parent none places

/-! ## Normal form -/

section Normalize

variable (hc : c.marks = false)
include hc

theorem steady_addPart (head i : Id) : c.Steady ids (addPart head i) := by
  refine (lockstep_token head).bind fun t u h => ?_
  rw [h.parts]
  split
  · exact steady_mark head (fun _ _ => rfl) hc fun _ => rfl
  · exact lockstep_throw _ _

theorem steady_collect (collector : Collector) (i : Id) : c.Steady ids (collect collector i) := by
  refine (lockstep_token i).bind fun t u h => ?_
  rw [h.isNewline, h.isOperator, h.kind]
  split
  · exact steady_pure _
  refine Lockstep.seq (steady_mark i (fun _ _ => rfl) hc fun _ => rfl) fun _ => ?_
  refine (steady_addPart hc collector.head i).seq fun _ => ?_
  split
  · exact steady_pure _
  split
  · refine (lockstep_token collector.head).bind fun head head' hhead => ?_
    dsimp only
    rw [hhead.ofWord?]
    split
    · exact Lockstep.seq (steady_mark collector.head (fun _ _ => rfl) hc fun _ => rfl)
        fun _ => steady_pure _
    · exact steady_pure _
  · exact steady_pure _

theorem steady_offer (collector : Option Collector) (i : Id) :
    c.Steady ids (offer collector i) := by
  cases collector with
  | none => exact steady_pure _
  | some collector => exact steady_collect hc collector i

omit hc in
theorem steady_settleExclamation (hi : i ∈ ids) : c.Steady ids (settleExclamation i) := by
  refine (lockstep_token i).bind fun t u h => ?_
  rw [h.next]
  split
  · refine (lockstep_ask (Document.agree_isOperator _ _)).seq fun equals => ?_
    split
    · exact (steady_setText hi (by decide)).seq fun _ => steady_blank _
    · exact steady_setText hi (by decide)
  · exact steady_setText hi (by decide)

theorem steady_settle (collector : Option Collector) (i : Id) :
    c.Steady ids (settle collector i) := by
  refine lockstep_token_bind_cases (fun t u h hkind => ?_) fun t u h hkind => ?_
  all_goals rw [h.kind, h.ofWord?, h.isOperator]
  · split
    · exact Lockstep.seq (steady_mark i (fun _ _ => rfl) hc fun _ => rfl)
        fun _ => steady_pure _
    split
    · exact (steady_settleExclamation mem_cons_self).seq fun _ => steady_pure _
    · exact steady_pure _
  · -- a numeral neither starts a directive nor is an exclamation mark
    rw [if_neg (by simp [hkind]), if_neg (by simp [Token.isOperator, hkind])]
    exact steady_pure _

section

variable {group : List Id → Edit Unit} (hgroup : ∀ ids children, c.Steady ids (group children))
include hgroup

theorem steady_settleGroup (i : Id) : c.Steady ids (settleGroup group i) := by
  refine (lockstep_token i).bind fun t u h => ?_
  rw [h.kind, h.children]
  split
  · refine Lockstep.seq (steady_mark i (fun _ _ => rfl) hc fun _ => rfl) fun _ => ?_
    split
    · exact hgroup ids _
    · exact lockstep_throw _ _
  · exact steady_pure ()

theorem steady_normalizeList (collector : Option Collector) (places : List Id) :
    c.Steady ids (normalizeList group collector places) := by
  induction places generalizing collector with
  | nil => exact steady_pure ()
  | cons i rest ih =>
    refine Lockstep.seq ?_ fun next => ih next
    exact (steady_offer hc collector i).seq fun collecting =>
      (steady_settle hc collecting i).seq fun next =>
        (steady_settleGroup hc hgroup i).seq fun _ => steady_pure _

end

theorem steady_normalizeWithin (fuel : Nat) :
    ∀ ids places, c.Steady ids (normalizeWithin fuel places) := by
  induction fuel with
  | zero => exact fun ids places => lockstep_throw _ _
  | succ fuel ih => exact fun ids places => steady_normalizeList hc ih none places

/-- **Two runs that bring alike documents into normal form stay in step.** -/
theorem steady_normalize : c.Steady ids normalize := by
  refine lockstep_get.bind fun d e halike => ?_
  rw [halike.walkLimit, halike.root]
  exact steady_normalizeWithin hc _ ids _

end Normalize

end Course

/-! ## Whole edits -/

variable {marks : Bool} {s : Edit Unit}

/-- A step that is steady in every course lets a document evolve and leaves alike documents
alike. -/
theorem evolves_alike (h : ∀ c : Course, c.marks = marks → c.Steady [] s) (halike : d.Alike P e)
    (hd : d.edit s = .ok d') (he : e.edit s = .ok e') : d.Evolves marks d' ∧ d'.Alike P e' := by
  unfold Document.edit at hd he
  split at hd
  · next hs =>
    split at he
    · next hs' =>
      cases hd
      cases he
      have hreached := (h ⟨marks, P, d⟩ rfl d e ⟨.refl d, halike, forall_mem_nil _⟩ () () _ _
        hs hs').2
      exact ⟨hreached.evolves, hreached.alike⟩
    · cases he
  · cases hd

theorem evolves_of_steady (h : ∀ c : Course, c.marks = marks → c.Steady [] s)
    (hd : d.edit s = .ok d') : d.Evolves marks d' :=
  (evolves_alike (P := fun _ => False) h (.refl d) hd hd).1

/-- **To bring a document into normal form lets it evolve.** -/
theorem evolves_normalize (hd : d.edit normalize = .ok d') : d.Evolves false d' :=
  evolves_of_steady (fun _ hc => Course.steady_normalize hc) hd

end Edit

end Macro10
