import Macro10.Document.Queries
import Macro10.Proofs.Document.Steps
import Mathlib.Data.List.Induction
import Mathlib.Data.List.Perm.Subperm
import Mathlib.Data.List.TakeWhile

/-!
# Walks along links

The links of one kind lead from a token through a list of places (`Follows`). The places are
distinct, so no walk is cut off, and it finds what a search of the list finds. A list of siblings is
`Chained` if each token is linked to its neighbours and to the group that holds the list.
-/

namespace Macro10.Document

open List

variable {d : Document} {step : Token → Option Id} {start parent : Option Id} {fuel : Nat} {i : Id}
  {t : Token} {ids ids' : List Id}

/-- There is a token at `i`, and it has the property `p`. -/
def tests (d : Document) (p : Token → Bool) (i : Id) : Bool := d.tokens[i]?.any p

theorem tests_eq (ht : d.tokens[i]? = some t) (p : Token → Bool) : d.tests p i = p t := by
  rw [tests, ht, Option.any_some]

/-- The text of a line terminator starts with a symbol that ends a line. -/
theorem exists_cons_of_isNewline {a : Text} (ht : d.tokens[i]? = some t)
    (hnewline : t.isNewline = true) (ha : d.renderToken i = .ok a) :
    ∃ s rest, a = s :: rest ∧ s.endsLine = true := by
  simp only [Token.isNewline, Bool.and_eq_true, decide_eq_true_eq, any_eq_true] at hnewline
  obtain ⟨hkind, e, -, htext⟩ := hnewline
  rw [renderToken, walkLimit, renderWithin, token_eq_ok_iff.mpr ht] at ha
  simp only [bind, Except.bind, hkind, Token.words, htext, Option.getD_some] at ha
  cases ha
  cases e <;> exact ⟨_, _, rfl, rfl⟩

/-- From `start` on, the links `step` lead to exactly the given places. -/
inductive Follows (d : Document) (step : Token → Option Id) : Option Id → List Id → Prop
  | nil : Follows d step none []
  | cons {i : Id} {t : Token} {ids : List Id} (ht : d.tokens[i]? = some t)
      (h : Follows d step (step t) ids) : Follows d step (some i) (i :: ids)

namespace Follows

theorem unique (h : d.Follows step start ids) (h' : d.Follows step start ids') : ids = ids' := by
  induction h generalizing ids' with
  | nil => cases h'; rfl
  | cons ht _ ih =>
    cases h' with
    | cons ht' h' =>
      cases ht.symm.trans ht'
      rw [ih h']

theorem exists_from (h : d.Follows step start ids) (hi : i ∈ ids) :
    (∃ t, d.tokens[i]? = some t) ∧
      ∃ later, later.length < ids.length ∧ d.Follows step (some i) (i :: later) := by
  induction h with
  | nil => cases hi
  | @cons j t ids ht h ih =>
    rcases mem_cons.mp hi with rfl | hi
    · exact ⟨⟨t, ht⟩, ids, Nat.lt_succ_self _, .cons ht h⟩
    · obtain ⟨htoken, later, hlt, hlater⟩ := ih hi
      exact ⟨htoken, later, Nat.lt_succ_of_lt hlt, hlater⟩

/-- A walk that comes to an end meets no token twice. -/
theorem nodup (h : d.Follows step start ids) : ids.Nodup := by
  induction h with
  | nil => exact .nil
  | @cons i t ids ht h ih =>
    refine nodup_cons.mpr ⟨fun hi => ?_, ih⟩
    obtain ⟨-, later, hlt, hlater⟩ := h.exists_from hi
    obtain rfl := (List.cons.inj ((cons ht h).unique hlater)).2
    exact Nat.lt_irrefl _ hlt

theorem length_le (h : d.Follows step start ids) : ids.length ≤ d.tokens.size := by
  have hsub : ids ⊆ List.range d.tokens.size := by
    intro i hi
    obtain ⟨⟨t, ht⟩, -⟩ := h.exists_from hi
    exact mem_range.mpr (lt_size_of_getElem? ht)
  simpa using (subperm_of_subset h.nodup hsub).length_le

/-- What holds of the walk through a list if it holds of the walk through the rest with one step
less holds of the walk that is cut off after as many steps as there are tokens. -/
theorem limited {P : Nat → Option Id → List Id → Prop} (h : d.Follows step start ids)
    (nil : ∀ fuel, P fuel none [])
    (cons : ∀ {fuel i t ids}, d.tokens[i]? = some t → P fuel (step t) ids →
      P (fuel + 1) (some i) (i :: ids)) : P d.walkLimit start ids := by
  have hle : ids.length ≤ d.walkLimit := Nat.le_succ_of_le h.length_le
  generalize d.walkLimit = fuel at hle
  induction h generalizing fuel with
  | nil => exact nil fuel
  | cons ht _ ih =>
    obtain ⟨fuel, rfl⟩ := Nat.exists_eq_add_of_le' ((Nat.succ_pos _).trans_le hle)
    exact cons ht (ih fuel (Nat.le_of_succ_le_succ hle))

theorem seek_eq (h : d.Follows step start ids) (skip : Token → Bool) :
    d.seek step skip d.walkLimit start = .ok (ids.dropWhile (d.tests skip)).head? := by
  refine h.limited (P := fun fuel start ids => d.seek step skip fuel start = .ok
    (ids.dropWhile (d.tests skip)).head?) (fun fuel => by cases fuel <;> rfl) ?_
  intro fuel i t ids ht ih
  rw [seek, token_eq_ok_iff.mpr ht, dropWhile_cons, tests_eq ht]
  simp only [bind, Except.bind]
  split
  · exact ih
  · rfl

theorem lineStartFrom_eq (h : d.Follows Token.prev start ids) (current : Id) :
    d.lineStartFrom d.walkLimit current start =
      .ok ((ids.takeWhile (!d.tests Token.isNewline ·)).getLast?.getD current) := by
  refine h.limited (P := fun fuel start ids => ∀ current, d.lineStartFrom fuel current start =
    .ok ((ids.takeWhile (!d.tests Token.isNewline ·)).getLast?.getD current))
    (fun fuel current => by cases fuel <;> rfl) ?_ current
  intro fuel i t ids ht ih current
  rw [lineStartFrom, token_eq_ok_iff.mpr ht, takeWhile_cons, tests_eq ht]
  simp only [bind, Except.bind, ih i]
  cases t.isNewline with
  | true => rfl
  | false => simp [getLast?_cons]

theorem findBefore_eq (h : d.Follows Token.next start ids) (stop found : Token → Bool) :
    d.findBefore stop found d.walkLimit start =
      .ok ((ids.takeWhile (!d.tests stop ·)).find? (d.tests found)) := by
  refine h.limited (P := fun fuel start ids => d.findBefore stop found fuel start =
    .ok ((ids.takeWhile (!d.tests stop ·)).find? (d.tests found)))
    (fun fuel => by cases fuel <;> rfl) ?_
  intro fuel i t ids ht ih
  rw [findBefore, token_eq_ok_iff.mpr ht, takeWhile_cons, tests_eq ht]
  simp only [bind, Except.bind, ih]
  cases stop t with
  | true => rfl
  | false =>
    simp only [Bool.not_false, if_true, find?_cons, tests_eq ht]
    cases found t <;> rfl

/-- The rest of a line is the text of the rest of the list, up to a symbol that ends a line. -/
theorem restOfLineWithin_eq (h : d.Follows Token.next start ids)
    (hrender : ∀ i ∈ ids, ∃ a, d.renderToken i = .ok a) :
    ∃ texts, ids.mapM d.renderToken = .ok texts ∧
      d.restOfLineWithin d.walkLimit start = .ok (texts.flatten.takeWhile (!·.endsLine)) := by
  refine h.limited (P := fun fuel start ids => (∀ i ∈ ids, ∃ a, d.renderToken i = .ok a) →
    ∃ texts, ids.mapM d.renderToken = .ok texts ∧
      d.restOfLineWithin fuel start = .ok (texts.flatten.takeWhile (!·.endsLine)))
    (fun fuel _ => ⟨[], rfl, by cases fuel <;> rfl⟩) ?_ hrender
  intro fuel i t ids ht ih hrender
  obtain ⟨⟨a, ha⟩, hrest⟩ := forall_mem_cons.mp hrender
  obtain ⟨texts, htexts, hline⟩ := ih hrest
  refine ⟨a :: texts, by rw [mapM_cons, ha, htexts]; rfl, ?_⟩
  rw [restOfLineWithin, token_eq_ok_iff.mpr ht, flatten_cons]
  simp only [bind, Except.bind, ha, hline]
  split
  · next hnewline =>
    obtain ⟨s, rest, rfl, hs⟩ := exists_cons_of_isNewline ht hnewline ha
    simp [hs, pure, Except.pure]
  split
  · next hany =>
    have hlength : (a.takeWhile (!·.endsLine)).length ≠ a.length := by
      intro hlength
      obtain ⟨s, hs, hends⟩ := any_eq_true.mp hany
      rw [← (List.takeWhile_prefix _).eq_of_length hlength] at hs
      simpa [hends] using mem_takeWhile_imp hs
    rw [takeWhile_append, if_neg hlength]
    rfl
  · next hany =>
    rw [takeWhile_append_of_pos (by simpa using hany)]
    rfl

end Follows

/-! ## Siblings -/

/-- The tokens of the list are linked to their neighbours in it, and to the group that holds it. -/
def Chained (d : Document) (parent : Option Id) (ids : List Id) : Prop :=
  ∀ (before after : List Id) (i : Id), before ++ i :: after = ids →
    ∃ t, d.tokens[i]? = some t ∧ t.parent = parent ∧ t.prev = before.getLast? ∧ t.next = after.head?

/-- The tokens on the line of a token that the tokens `before` stand before, nearest first. -/
def lineBefore (d : Document) (before : List Id) : List Id :=
  before.reverse.takeWhile fun j => !d.tests Token.isNewline j

namespace Chained

variable {before after : List Id}

theorem follows_next (before : List Id) (h : d.Chained parent (before ++ after)) :
    d.Follows Token.next after.head? after := by
  induction after generalizing before with
  | nil => exact .nil
  | cons i after ih =>
    obtain ⟨t, ht, -, -, hnext⟩ := h _ _ _ rfl
    refine .cons ht ?_
    rw [hnext]
    exact ih (before ++ [i]) (by simpa using h)

theorem follows_prev (h : d.Chained parent (before ++ after)) :
    d.Follows Token.prev before.getLast? before.reverse := by
  induction before using List.reverseRecOn generalizing after with
  | nil => exact .nil
  | append_singleton before i ih =>
    rw [append_assoc] at h
    obtain ⟨t, ht, -, hprev, -⟩ := h _ _ _ rfl
    rw [getLast?_concat, reverse_concat]
    refine .cons ht ?_
    rw [hprev]
    exact ih h

theorem exists_token (h : d.Chained parent (before ++ i :: after)) :
    ∃ t, d.tokens[i]? = some t ∧ d.Follows Token.prev t.prev before.reverse ∧
      d.Follows Token.next t.next after := by
  obtain ⟨t, ht, -, hprev, hnext⟩ := h _ _ _ rfl
  refine ⟨t, ht, hprev ▸ h.follows_prev, hnext ▸ ?_⟩
  exact follows_next (before ++ [i]) (by simpa using h)

section Queries

variable (h : d.Chained parent (before ++ i :: after))
include h

theorem prevSolid_eq :
    d.prevSolid i = .ok (before.reverse.dropWhile (d.tests isSpacing)).head? := by
  obtain ⟨t, ht, hprev, -⟩ := h.exists_token
  rw [prevSolid, token_eq_ok_iff.mpr ht]
  exact hprev.seek_eq isSpacing

theorem nextSolid_eq : d.nextSolid i = .ok (after.dropWhile (d.tests isSpacing)).head? := by
  obtain ⟨t, ht, -, hnext⟩ := h.exists_token
  rw [nextSolid, token_eq_ok_iff.mpr ht]
  exact hnext.seek_eq isSpacing

theorem nextNonBlank_eq :
    d.nextNonBlank i = .ok (after.dropWhile (d.tests Token.isBlank)).head? := by
  obtain ⟨t, ht, -, hnext⟩ := h.exists_token
  rw [nextNonBlank, token_eq_ok_iff.mpr ht]
  exact hnext.seek_eq Token.isBlank

theorem solidFrom_eq : d.solidFrom i = .ok ((i :: after).dropWhile (d.tests isSpacing)).head? := by
  obtain ⟨t, ht, -⟩ := h.exists_token
  rw [solidFrom, token_eq_ok_iff.mpr ht, dropWhile_cons, tests_eq ht]
  simp only [bind, Except.bind]
  split
  · exact h.nextSolid_eq
  · rfl

theorem findOnLine_eq (kind : Kind) (text : Option Text) :
    d.findOnLine i kind text = .ok ((after.takeWhile (!d.tests Token.isNewline ·)).find?
      (d.tests fun t => t.kind = kind && t.text = text)) := by
  obtain ⟨t, ht, -, hnext⟩ := h.exists_token
  rw [findOnLine, token_eq_ok_iff.mpr ht]
  exact hnext.findBefore_eq _ _

theorem findInArguments_eq (kind : Kind) (text : Option Text) :
    d.findInArguments i kind text = .ok ((after.takeWhile (!d.tests
        (fun u => u.isNewline || u.owner ≠ d.tokens[i]?.bind Token.owner) ·)).find?
      (d.tests fun t => t.kind = kind && t.text = text)) := by
  obtain ⟨t, ht, -, hnext⟩ := h.exists_token
  rw [findInArguments, token_eq_ok_iff.mpr ht, ht]
  exact hnext.findBefore_eq _ _

/-- The line starts after the nearest line terminator, or with the list. -/
theorem exists_lineStart : ∃ earlier start rest, d.lineStart i = .ok start ∧
    (d.lineBefore before).reverse ++ i :: after = start :: rest ∧
    earlier ++ start :: rest = before ++ i :: after := by
  obtain ⟨t, ht, hprev, -⟩ := h.exists_token
  have hstart : d.lineStart i =
      .ok (((d.lineBefore before).reverse ++ i :: after).head?.getD i) := by
    rw [lineStart, token_eq_ok_iff.mpr ht, head?_append, head?_reverse]
    refine (hprev.lineStartFrom_eq i).trans ?_
    rw [← lineBefore]
    cases (d.lineBefore before).getLast? <;> rfl
  obtain ⟨start, rest, heq⟩ := exists_cons_of_ne_nil
    (append_ne_nil_of_right_ne_nil (d.lineBefore before).reverse (cons_ne_nil i after))
  refine ⟨(before.reverse.dropWhile (!d.tests Token.isNewline ·)).reverse, start, rest, ?_, heq, ?_⟩
  · rw [hstart, heq]
    rfl
  · rw [← heq, lineBefore, ← append_assoc, ← reverse_append,
      takeWhile_append_dropWhile, reverse_reverse]

end Queries

end Chained

end Macro10.Document
