import Macro10.Proofs.Document.Walk
import Macro10.Proofs.Source.Place
import Macro10.Proofs.Source.Spelling

/-!
# Nothing of a source is lost

A source is shared out among the parts of the document that is read from it: each stretch belongs to
one token or to the bracket that closes a group, or it is a stray bracket and is reported (`Share`).
The shares stand in the order of the document, and each token has the text that its share is read as
(`read_lossless`).
-/

namespace Macro10

open List
open Forest (size)
open Numeral (IsRun Verdict marked? targetText)
open Document (has_append has_cons)

variable {f : Forest} {w : List Visit} {d : Document} {v : Visit} {mark : Bool} {kind : Kind}
  {text new : Text} {parent prev : Option Id} {first : Id}

variable {positions : List Position}

/-- The stretch is a numeral if a `^` stands before it. -/
def Stretch.isMarked : Stretch → Bool
  | lexeme (.name text) => (marked? text).isSome
  | _ => false

/-- The stretch stands for symbols of the source. -/
def Stretch.isWritten : Stretch → Bool
  | unended _ => false
  | _ => true

@[inherit_doc Stretch.isWritten]
def Visit.isWritten (v : Visit) : Bool := v.stretch.isWritten

/-- The token is what the stretch is read as in the given radix, if the siblings before and after it
are read from `prev` and `next`. -/
def Token.Tells (t : Token) (radix : Option Int) (prev next : Option Stretch) : Stretch → Prop
  | .opening => t.kind = .container ∧ t.text = none ∧ t.opening = [.char '<']
  | .lexeme (.digits digits point) => t.kind = .number ∧
      ∃ base text, (if point then some 10 else radix) = some base ∧
        targetText digits base = .ok text ∧ t.text = some text
  | .lexeme (.name name) =>
    if prev = some .mark ∧ (marked? name).isSome then
      t.kind = .number ∧
        ∃ text, (∀ radix, targetText (.char '^' :: name) radix = .ok text) ∧
        t.text = some text
    else t.kind = .identifier ∧ t.text = some name
  | .lexeme (.operator text) =>
    if text = [.char '^'] ∧ next.any Stretch.isMarked then
      t.kind = .whitespace ∧ t.text = some []
    else t.kind = .operator ∧ t.text = some text
  | s => ∃ kind text, s.plain? = some (kind, text) ∧ t.kind = kind ∧ t.text = some text

/-- A visit, and the part of the document that its stretch belongs to. -/
structure Share where
  visit : Visit
  part : Option Part

namespace Share

/-- The symbols of the share. -/
def source (s : Share) : Text := s.visit.stretch.source

/-- The stretch, if a token starts with it. -/
def lead? (s : Share) : Option Stretch :=
  match s.part with
  | some (.token _) => some s.visit.stretch
  | _ => none

/-- The stretches that tokens start with. -/
def leads (shares : List Share) : List Stretch := shares.filterMap lead?

/-- The part of the document fits the visit; the token at `i` starts with the `i`-th of the given
stretches. -/
def Fits (d : Document) (leads : List Stretch) (s : Share) : Prop :=
  match s.part with
  | some (.token i) => ∃ t, d.tokens[i]? = some t ∧ t.position = some s.visit.position ∧
      t.Tells s.visit.radix (t.prev.bind (leads[·]?)) (t.next.bind (leads[·]?)) s.visit.stretch
  | some (.closing i) => s.visit.stretch = .closing ∧
      ∃ t, d.tokens[i]? = some t ∧ t.closing = [.char '>']
  | none => s.visit.stretch = .closing ∧
      ⟨.unmatchedClose, s.visit.position, .warning, 1⟩ ∈ d.diagnostics

@[simp] theorem leads_nil : leads [] = [] := rfl

@[simp]
theorem leads_append (xs ys : List Share) : leads (xs ++ ys) = leads xs ++ leads ys :=
  filterMap_append

@[simp]
theorem leads_token (v : Visit) (i : Id) (shares : List Share) :
    leads (⟨v, some (.token i)⟩ :: shares) = v.stretch :: leads shares := rfl

@[simp]
theorem leads_closing (v : Visit) (i : Id) (shares : List Share) :
    leads (⟨v, some (.closing i)⟩ :: shares) = leads shares := rfl

@[simp]
theorem leads_none (v : Visit) (shares : List Share) :
    leads (⟨v, none⟩ :: shares) = leads shares := rfl

end Share

/-! ## What single tokens tell -/

namespace Visit.Reads

theorem isWritten (h : v.Reads mark kind text) : v.isWritten = true := by
  cases hs : v.stretch with
  | unended marker =>
    cases h with
    | plain hplain => rw [hs] at hplain; cases hplain
    | converted h | refused h | name h | refusedMark h => cases hs.symm.trans h
  | lexeme | terminator | remark | setRadix | opening | closing =>
    rw [Visit.isWritten, hs]
    rfl

theorem eq_mark_iff (h : v.Reads mark kind text) :
    (kind = .operator ∧ text = [.char '^']) ↔ v.stretch = .mark := by
  constructor
  · rintro ⟨rfl, rfl⟩
    exact h.isMark.1
  · intro hmark
    cases h with
    | plain hplain _ =>
      rw [hmark] at hplain
      cases hplain
      exact ⟨rfl, rfl⟩
    | converted hv | refused hv | name hv | refusedMark hv =>
      rw [hmark] at hv
      cases hv

/-- A name is read as a name after a `^` only if it is no marked numeral. -/
theorem isMarked_eq_false (h : v.Reads true kind text) : v.stretch.isMarked = false := by
  have hname {name : Text} {radix : Int} {verdict : Verdict}
      (hv : v.stretch = .lexeme (.name name))
      (hjudge : Numeral.judgeMarked name radix = .ok verdict)
      (hverdict : ∀ new, verdict ≠ .convertedMark new) : v.stretch.isMarked = false := by
    rcases Numeral.judgeMarked_cases hjudge with
      ⟨-, hnone⟩ | ⟨base, -, hnone⟩ | ⟨base, digits, new, hnew, -⟩
    · rw [hv, Stretch.isMarked, hnone]
      rfl
    · rw [hv, Stretch.isMarked, hnone]
      rfl
    · exact absurd hnew (hverdict new)
  cases h with
  | plain hplain _ =>
    cases hs : v.stretch with
    | lexeme l => cases l <;> simp_all [Stretch.plain?, Stretch.isMarked]
    | terminator | remark | setRadix | opening | closing | unended => rfl
  | converted hv | refused hv => rw [hv]; rfl
  | name hv hjudge _ =>
    obtain ⟨radix, hjudge⟩ := hjudge rfl
    exact hname hv hjudge (by simp)
  | refusedMark hv _ hjudge _ =>
    obtain ⟨radix, hjudge⟩ := hjudge
    exact hname hv hjudge (by simp)

/-- A token tells what its visit is read as. -/
theorem tells {t : Token} {prev next : Option Stretch} (h : v.Reads mark kind text)
    (hproper : v.stretch.Proper) (hkind : t.kind = kind) (htext : t.text = some text)
    (hprev : mark = true ↔ prev = some .mark)
    (hnext : v.stretch = .mark → next.any Stretch.isMarked = false) :
    t.Tells v.radix prev next v.stretch := by
  have hunmarked {name : Text} (hv : v.stretch = .lexeme (.name name)) :
      ¬(prev = some .mark ∧ (marked? name).isSome = true) := by
    rintro ⟨hmark, hmarked⟩
    obtain rfl := hprev.mpr hmark
    have hfalse := h.isMarked_eq_false
    rw [hv] at hfalse
    exact Bool.false_ne_true (hfalse.symm.trans hmarked)
  cases h with
  | plain hplain _ =>
    cases hs : v.stretch with
    | lexeme l =>
      rw [hs] at hplain hnext
      cases l with
      | operator symbols =>
        cases hplain
        rw [Token.Tells, if_neg]
        · exact ⟨hkind, htext⟩
        · rintro ⟨rfl, hany⟩
          exact Bool.false_ne_true ((hnext rfl).symm.trans hany)
      | digits | name => cases hplain
      | comment | string | blank => exact ⟨kind, text, hplain, hkind, htext⟩
    | terminator | remark | setRadix => exact ⟨kind, text, hs ▸ hplain, hkind, htext⟩
    | opening | closing | unended => rw [hs] at hplain; cases hplain
  | @converted digits _ point base hv hbase hjudge _
  | @refused digits point base _ hv hbase hjudge _ =>
    rw [hv] at hproper ⊢
    refine ⟨hkind, base, text, hbase, ?_, htext⟩
    rw [IsRun.judgeNumber_eq hproper] at hjudge
    obtain ⟨value, hread, hjudge⟩ := bind_eq_ok.mp hjudge
    rw [IsRun.targetText_eq hproper, hread]
    cases value with
    | none => cases hjudge <;> rfl
    | some n =>
      obtain ⟨new, hrender, hjudge⟩ := bind_eq_ok.mp hjudge
      cases hjudge <;> exact hrender
  | name hv _ _ | refusedMark hv _ _ _ =>
    rw [hv, Token.Tells, if_neg (hunmarked hv)]
    exact ⟨hkind, htext⟩

end Visit.Reads

theorem Visit.IsMarked.exists_name (h : v.IsMarked new) :
    ∃ name, v.stretch = .lexeme (.name name) ∧ (marked? name).isSome = true ∧
      ∀ radix, targetText (.char '^' :: name) radix = .ok new := by
  obtain ⟨name, radix, hv, hjudge, -⟩ := h
  rcases Numeral.judgeMarked_cases hjudge with
    ⟨hnew, -⟩ | ⟨base, hnew, -⟩ | ⟨base, digits, text, hnew, hmarked, htarget, -⟩
  · cases hnew
  · cases hnew
  · obtain rfl := Verdict.convertedMark.inj hnew
    exact ⟨name, hv, by rw [hmarked]; rfl, htarget⟩

/-! ## Sharing out a forest -/

/-- The visits are shared out among the tokens of the forest, the first of which is at `first` and
follows the sibling `prev`. -/
structure SharedOut (d : Document) (first : Id) (prev : Option Id) (mark : Bool) (f : Forest)
    (w : List Visit) (shares : List Share) : Prop where
  visits : shares.map Share.visit = w.filter Visit.isWritten
  parts : shares.filterMap Share.part = Cell.parts (f.cells first)
  length : (Share.leads shares).length = f.size
  /-- After a `^` there is no marked numeral, which would have taken the `^`. -/
  unmarked : mark = true → (Share.leads shares).head?.any Stretch.isMarked = false
  /-- The parts fit, whatever stands before and after. -/
  fits : ∀ {before after : List Stretch}, before.length = first →
    (mark = true ↔ prev.bind ((before ++ Share.leads shares ++ after)[·]?) = some .mark) →
    ∀ s ∈ shares, s.Fits d (before ++ Share.leads shares ++ after)

namespace SharedOut

variable {w' : List Visit}

variable {top : Bool}
  {shares : List Share}

theorem nil (d : Document) (first : Id) (prev : Option Id) (mark : Bool) :
    SharedOut d first prev mark .nil [] [] :=
  ⟨rfl, rfl, rfl, fun _ => rfl, fun _ _ => forall_mem_nil _⟩

/-- What is read from silent visits. -/
def strays (w : List Visit) : List Share :=
  (w.filter Visit.isWritten).map fun v => ⟨v, none⟩

theorem leads_strays (w : List Visit) : Share.leads (strays w) = [] := by
  refine filterMap_eq_nil_iff.mpr fun s hs => ?_
  obtain ⟨v, -, rfl⟩ := mem_map.mp hs
  rfl

theorem fits_strays (hsilent : ∀ v ∈ w, v.Silent top)
    (hreports : ∀ v ∈ w, ∀ r, v.report = some r → r ∈ d.diagnostics) (leads : List Stretch) :
    ∀ s ∈ strays w, s.Fits d leads := by
  intro s hs
  obtain ⟨v, hv, rfl⟩ := mem_map.mp hs
  obtain ⟨hv, hwritten⟩ := mem_filter.mp hv
  rcases hsilent v hv with ⟨marker, hstretch, -⟩ | ⟨-, hstretch, hreport⟩
  · rw [Visit.isWritten, hstretch] at hwritten
    cases hwritten
  · exact ⟨hstretch, hreports v hv _ hreport⟩

theorem silent (h : SharedOut d first prev mark f w shares) (hsilent : ∀ v ∈ w', v.Silent top)
    (hreports : ∀ v ∈ w', ∀ r, v.report = some r → r ∈ d.diagnostics) :
    SharedOut d first prev mark f (w' ++ w) (strays w' ++ shares) where
  visits := by simp [strays, h.visits, Function.comp_def]
  parts := by
    rw [filterMap_append, h.parts]
    simp [strays]
  length := by rw [Share.leads_append, leads_strays]; exact h.length
  unmarked := by rw [Share.leads_append, leads_strays]; exact h.unmarked
  fits := by
    intro before after hbefore hprev
    rw [Share.leads_append, leads_strays, nil_append] at hprev ⊢
    exact forall_mem_append.mpr ⟨fits_strays hsilent hreports _, h.fits hbefore hprev⟩

theorem bind_head? (before after rest : List Stretch) (hbefore : before.length = first)
    (h : rest.length = f.size) :
    (f.head? first).bind ((before ++ (rest ++ after))[·]?) = rest.head? := by
  have hlookup : 0 < rest.length → (before ++ (rest ++ after))[first]? = rest.head? := by
    intro hpos
    rw [← hbefore, getElem?_append_right (le_rfl), Nat.sub_self,
      getElem?_append_left hpos, head?_eq_getElem?]
  cases f with
  | nil => rw [length_eq_zero_iff.mp h]; rfl
  | leaf kind text position f => exact hlookup (by rw [h, size]; omega)
  | group position closed children f => exact hlookup (by rw [h, size]; omega)

theorem leaf
    (ht : d.tokens[first]? = some
      { kind, text := some text, position := some v.position, prev, next := f.head? (first + 1),
        parent })
    (hv : v.Reads mark kind text) (hproper : v.stretch.Proper)
    (h : SharedOut d (first + 1) (some first) (decide (kind = .operator ∧ text = [.char '^'])) f w
      shares) :
    SharedOut d first prev mark (.leaf kind text v.position f) (v :: w)
      (⟨v, some (.token first)⟩ :: shares) where
  visits := by rw [map_cons, filter_cons_of_pos hv.isWritten, h.visits]
  parts := by
    show Part.token first :: shares.filterMap Share.part = _
    rw [h.parts]
    simp [Forest.cells, Part.closings]
  length := by rw [Share.leads_token, length_cons, h.length, size]
  unmarked := by
    rintro rfl
    exact hv.isMarked_eq_false
  fits := by
    intro before after hbefore hprev
    rw [Share.leads_token] at hprev ⊢
    have hshift : before ++ v.stretch :: Share.leads shares ++ after =
        (before ++ [v.stretch]) ++ Share.leads shares ++ after := by simp
    have hfirst : (before ++ v.stretch :: Share.leads shares ++ after)[first]? =
        some v.stretch := by
      simp [← hbefore]
    have hlength : (before ++ [v.stretch]).length = first + 1 := by simp [hbefore]
    refine forall_mem_cons.mpr ⟨⟨_, ht, rfl, hv.tells hproper rfl rfl hprev ?_⟩, ?_⟩
    · intro hmark
      show ((f.head? (first + 1)).bind _).any _ = false
      rw [hshift, append_assoc, bind_head? _ after _ hlength h.length]
      exact h.unmarked (decide_eq_true (hv.eq_mark_iff.mpr hmark))
    · rw [hshift] at hfirst ⊢
      refine h.fits hlength ?_
      rw [decide_eq_true_iff, hv.eq_mark_iff, Option.bind_some, hfirst, Option.some_inj]

/-- A group in front; `e` holds the visit of the bracket that closes it, if there is one. -/
theorem group (closed : Bool) (e : List Visit) {inside rest : Forest}
    {shares' : List Share}
    (ht : d.tokens[first]? = some
      { kind := .container, position := some v.position,
        children := some (inside.ids (first + 1)), opening := [.char '<'],
        closing := if closed then [.char '>'] else [], prev,
        next := rest.head? (first + inside.size + 1), parent })
    (hv : v.stretch = .opening) (he : ∀ u ∈ e, u.stretch = .closing)
    (hclosed : e.length = if closed then 1 else 0)
    (hinside : SharedOut d (first + 1) none false inside w' shares')
    (h : SharedOut d (first + inside.size + 1) (some first) false rest w shares) :
    SharedOut d first prev mark (.group v.position closed inside rest) (v :: (w' ++ (e ++ w)))
      (⟨v, some (.token first)⟩ ::
        (shares' ++ (e.map (fun u => ⟨u, some (.closing first)⟩) ++ shares))) := by
  have hleads : Share.leads (⟨v, some (.token first)⟩ ::
      (shares' ++ (e.map (fun u => ⟨u, some (.closing first)⟩) ++ shares))) =
      v.stretch :: (Share.leads shares' ++ Share.leads shares) := by
    have hnone : Share.leads (e.map fun u => ⟨u, some (.closing first)⟩) = [] := by
      refine filterMap_eq_nil_iff.mpr fun s hs => ?_
      obtain ⟨u, -, rfl⟩ := mem_map.mp hs
      rfl
    rw [Share.leads_token, Share.leads_append, Share.leads_append, hnone, nil_append]
  refine ⟨?_, ?_, ?_, ?_, ?_⟩
  · have hwritten : e.filter Visit.isWritten = e :=
      filter_eq_self.mpr fun u hu => by rw [Visit.isWritten, he u hu]; rfl
    rw [filter_cons_of_pos (by rw [Visit.isWritten, hv]; rfl), filter_append, filter_append,
      hwritten,
      ← hinside.visits, ← h.visits]
    simp [Function.comp_def]
  · show Part.token first :: (shares' ++ _).filterMap Share.part = _
    rw [filterMap_append, filterMap_append, hinside.parts, h.parts, Forest.cells, Cell.parts_cons]
    cases closed with
    | false =>
      obtain rfl := length_eq_zero_iff.mp hclosed
      simp [Part.closings]
    | true =>
      obtain ⟨u, rfl⟩ := length_eq_one_iff.mp hclosed
      simp [Part.closings]
  · rw [hleads, length_cons, length_append, hinside.length, h.length, size]
  · intro _
    rw [hleads, hv]
    rfl
  · intro before after hbefore hprev
    rw [hleads] at hprev ⊢
    have hfirst : (before ++ v.stretch :: (Share.leads shares' ++ Share.leads shares) ++
        after)[first]? =
        some v.stretch := by
      simp [← hbefore]
    refine forall_mem_cons.mpr ⟨⟨_, ht, rfl, ?_⟩, forall_mem_append.mpr ⟨?_,
      forall_mem_append.mpr ⟨?_, ?_⟩⟩⟩
    · rw [hv]
      exact ⟨rfl, rfl, rfl⟩
    · have hshift : before ++ v.stretch :: (Share.leads shares' ++ Share.leads shares) ++ after =
          (before ++ [v.stretch]) ++ Share.leads shares' ++ (Share.leads shares ++ after) := by simp
      rw [hshift]
      exact hinside.fits (by simp [hbefore]) (by simp)
    · intro s hs
      obtain ⟨u, hu, rfl⟩ := mem_map.mp hs
      refine ⟨he u hu, _, ht, ?_⟩
      cases closed with
      | false => rw [length_eq_zero_iff.mp hclosed] at hu; cases hu
      | true => rfl
    · have hshift : before ++ v.stretch :: (Share.leads shares' ++ Share.leads shares) ++ after =
          (before ++ v.stretch :: Share.leads shares') ++ Share.leads shares ++ after := by simp
      rw [hshift] at hfirst ⊢
      refine h.fits ?_ ?_
      · rw [length_append, length_cons, hinside.length]
        omega
      · rw [Option.bind_some, hfirst, hv]
        simp [Stretch.mark]

theorem pair {m : Visit}
    (hmark : d.tokens[first]? = some
      { kind := .whitespace, text := some [], position := some m.position, prev,
        next := some (first + 1), parent })
    (hnumber : d.tokens[first + 1]? = some
      { kind := .number, text := some new, position := some v.position, prev := some first,
        next := f.head? (first + 1 + 1), parent })
    (hm : m.IsMark) (hsilent : ∀ u ∈ w', u.Silent top)
    (hreports : ∀ u ∈ w', ∀ r, u.report = some r → r ∈ d.diagnostics) (hv : v.IsMarked new)
    (h : SharedOut d (first + 1 + 1) (some (first + 1)) false f w shares) :
    SharedOut d first prev mark (.leaf .whitespace [] m.position (.leaf .number new v.position f))
      (m :: (w' ++ v :: w))
      (⟨m, some (.token first)⟩ :: (strays w' ++ ⟨v, some (.token (first + 1))⟩ :: shares)) := by
  obtain ⟨name, hname, hmarked, htarget⟩ := hv.exists_name
  have hleads : Share.leads (⟨m, some (.token first)⟩ ::
      (strays w' ++ ⟨v, some (.token (first + 1))⟩ :: shares)) =
      .mark :: v.stretch :: Share.leads shares := by
    rw [Share.leads_token, Share.leads_append, leads_strays, Share.leads_token, hm.1]
    rfl
  refine ⟨?_, ?_, ?_, ?_, ?_⟩
  · rw [filter_cons_of_pos (by rw [Visit.isWritten, hm.1]; rfl), filter_append,
      filter_cons_of_pos (by rw [Visit.isWritten, hname]; rfl), ← h.visits]
    simp [strays, Function.comp_def]
  · show Part.token first :: (strays w' ++ _ :: shares).filterMap Share.part = _
    rw [filterMap_append]
    show _ :: (_ ++ Part.token (first + 1) :: shares.filterMap Share.part) = _
    rw [h.parts]
    simp [strays, Forest.cells]
  · rw [hleads, length_cons, length_cons, h.length, size, size]
  · intro _
    rw [hleads]
    rfl
  · intro before after hbefore _
    rw [hleads]
    have hshift : before ++ .mark :: v.stretch :: Share.leads shares ++ after =
        (before ++ [.mark, v.stretch]) ++ Share.leads shares ++ after := by simp
    have hfirst : (before ++ .mark :: v.stretch :: Share.leads shares ++ after)[first]? =
        some .mark := by
      simp [← hbefore]
    have hsecond : (before ++ .mark :: v.stretch :: Share.leads shares ++ after)[first + 1]? =
        some v.stretch := by
      simp [← hbefore]
    refine forall_mem_cons.mpr ⟨⟨_, hmark, rfl, ?_⟩, forall_mem_append.mpr ⟨?_,
      forall_mem_cons.mpr ⟨⟨_, hnumber, rfl, ?_⟩, ?_⟩⟩⟩
    · rw [hm.1, Token.Tells, if_pos]
      · exact ⟨rfl, rfl⟩
      · refine ⟨rfl, ?_⟩
        rw [Option.bind_some, hsecond, hname]
        exact hmarked
    · exact fits_strays hsilent hreports _
    · rw [hname, Token.Tells, if_pos]
      · exact ⟨rfl, new, htarget, rfl⟩
      · exact ⟨by rw [Option.bind_some, ← hname, hfirst], hmarked⟩
    · rw [hshift] at hsecond ⊢
      refine h.fits (by simp [hbefore]) ?_
      rw [Option.bind_some, hsecond, hname]
      simp [Stretch.mark]

end SharedOut

/-- **The visits of a source are shared out among the tokens.** -/
theorem Forest.Spelled.exists_shares {top : Bool} (h : Forest.Spelled top mark f w positions)
    (hd : d.Has first (f.tokens parent first prev)) (hproper : ∀ v ∈ w, v.stretch.Proper)
    (hreports : ∀ v ∈ w, ∀ r, v.report = some r → r ∈ d.diagnostics) :
    ∃ shares, SharedOut d first prev mark f w shares := by
  induction h generalizing parent prev first with
  | nil top mark => exact ⟨[], .nil d first prev mark⟩
  | @silent top mark f w positions v hv h ih =>
    obtain ⟨-, hproper⟩ := forall_mem_cons.mp hproper
    obtain ⟨hreport, hreports⟩ := forall_mem_cons.mp hreports
    obtain ⟨shares, hshares⟩ := ih hd hproper hreports
    exact ⟨_, hshares.silent (forall_mem_singleton.mpr hv) (forall_mem_singleton.mpr hreport)⟩
  | leaf hv h ih =>
    obtain ⟨hproperV, hproper⟩ := forall_mem_cons.mp hproper
    obtain ⟨-, hreports⟩ := forall_mem_cons.mp hreports
    obtain ⟨hfirst, hrest⟩ := has_cons.mp hd
    obtain ⟨shares, hshares⟩ := ih hrest hproper hreports
    exact ⟨_, hshares.leaf hfirst hv hproperV⟩
  | pair hm hsilent hv h ih =>
    obtain ⟨-, hproper⟩ := forall_mem_cons.mp hproper
    obtain ⟨-, hproper⟩ := forall_mem_cons.mp (forall_mem_append.mp hproper).2
    obtain ⟨-, hreports⟩ := forall_mem_cons.mp hreports
    obtain ⟨hstrays, hreports⟩ := forall_mem_append.mp hreports
    obtain ⟨-, hreports⟩ := forall_mem_cons.mp hreports
    obtain ⟨hfirst, hrest⟩ := has_cons.mp hd
    obtain ⟨hsecond, hrest⟩ := has_cons.mp hrest
    obtain ⟨shares, hshares⟩ := ih hrest hproper hreports
    exact ⟨_, hshares.pair hfirst hsecond hm hsilent hstrays hv⟩
  | @group top mark f inside w w' positions v e hv hinside he h ihinside ih =>
    obtain ⟨-, hproper⟩ := forall_mem_cons.mp hproper
    obtain ⟨hproper', hproper⟩ := forall_mem_append.mp hproper
    obtain ⟨-, hproper⟩ := forall_mem_cons.mp hproper
    obtain ⟨-, hreports⟩ := forall_mem_cons.mp hreports
    obtain ⟨hreports', hreports⟩ := forall_mem_append.mp hreports
    obtain ⟨-, hreports⟩ := forall_mem_cons.mp hreports
    obtain ⟨hfirst, hrest⟩ := has_cons.mp hd
    obtain ⟨hchildren, hrest⟩ := has_append.mp hrest
    rw [Forest.length_tokens, Nat.add_right_comm] at hrest
    obtain ⟨shares', hshares'⟩ := ihinside hchildren hproper' hreports'
    obtain ⟨shares, hshares⟩ := ih hrest hproper hreports
    exact ⟨_, .group true [e] hfirst hv.1 (forall_mem_singleton.mpr he.1) rfl hshares' hshares⟩
  | @unclosed top mark inside w positions v hv hinside ih =>
    obtain ⟨-, hproper⟩ := forall_mem_cons.mp hproper
    obtain ⟨-, hreports⟩ := forall_mem_cons.mp hreports
    obtain ⟨hfirst, hrest⟩ := has_cons.mp hd
    obtain ⟨hchildren, -⟩ := has_append.mp hrest
    obtain ⟨shares', hshares'⟩ := ih hchildren hproper hreports
    have hgroup : SharedOut d first prev mark _ (v :: (w ++ ([] ++ []))) _ :=
      .group false [] hfirst hv.1 (forall_mem_nil _) rfl hshares' (.nil d _ _ _)
    rw [nil_append, append_nil] at hgroup
    exact ⟨_, hgroup⟩

/-! ## Visits without symbols -/

namespace Visit

theorem flatMap_source_filter (w : List Visit) :
    (w.filter isWritten).flatMap (·.stretch.source) = w.flatMap (·.stretch.source) := by
  induction w with
  | nil => rfl
  | cons v w ih =>
    cases hs : v.stretch with
    | unended marker =>
      rw [filter_cons_of_neg (by rw [isWritten, hs]; exact Bool.false_ne_true), ih, flatMap_cons,
        hs]
      rfl
    | lexeme | terminator | remark | setRadix | opening | closing =>
      rw [filter_cons_of_pos (by rw [isWritten, hs]; rfl), flatMap_cons, ih, flatMap_cons]

theorem radixesAfter_filter (radix : Option Int) (w : List Visit) :
    Stretch.radixesAfter radix ((w.filter isWritten).map stretch) =
      Stretch.radixesAfter radix (w.map stretch) := by
  induction w generalizing radix with
  | nil => rfl
  | cons v w ih =>
    cases hs : v.stretch with
    | unended marker =>
      rw [filter_cons_of_neg (by rw [isWritten, hs]; exact Bool.false_ne_true), ih, map_cons, hs]
      rfl
    | lexeme | terminator | remark | setRadix | opening | closing =>
      rw [filter_cons_of_pos (by rw [isWritten, hs]; rfl), map_cons, map_cons]
      exact ih _

end Visit

theorem Record.exists_shares {source : Text} {radix : Int}
    (h : Record source radix d f w positions) :
    ∃ shares, SharedOut d 0 none false f w shares := by
  refine h.spelled.exists_shares h.has (fun v hv => ?_) fun v hv r hr => ?_
  · refine Text.proper_of_mem_stretches (h.stretches ▸ mem_map_of_mem hv)
  · rw [h.diagnostics]
    exact mem_append_left _ (mem_filterMap.mpr ⟨v, hv, hr⟩)

/-- **Nothing of a source is lost.** The source is cut into shares, one for each stretch, which
belong to the parts of the document in order; tokens are numbered in order, too. Each share starts
where the text before it ends, and its part of the document tells what it is read as. -/
theorem read_lossless {source : Text} {radix : Int} {d : Document}
    (h : read source radix = .ok d) :
    ∃ shares : List Share, shares.flatMap Share.source = source ∧
      shares.map (·.visit.stretch) = source.stretches.filter Stretch.isWritten ∧
      d.Walk d.root (shares.filterMap Share.part) ∧
      (shares.filterMap Share.part).filterMap Part.token? = List.range d.tokens.size ∧
      (∀ before share after, shares = before ++ share :: after →
        share.visit.position = Text.positionAfter (before.flatMap Share.source) ∧
        share.visit.radix = Stretch.radixesAfter (some radix) (before.map (·.visit.stretch))) ∧
      ∀ share ∈ shares, share.visit.stretch.Proper ∧ share.Fits d (Share.leads shares) := by
  obtain ⟨f, w, positions, hrecord⟩ := exists_record h
  obtain ⟨shares, hshares⟩ := hrecord.exists_shares
  have hvisits (xs : List Share) : xs.flatMap Share.source =
      (xs.map Share.visit).flatMap (·.stretch.source) := by
    rw [flatMap_map]
    rfl
  have hsource (xs : List Visit) : xs.flatMap (·.stretch.source) =
      (xs.map Visit.stretch).flatMap Stretch.source := by
    rw [flatMap_map]
  have hstanding := Document.standing_ofForest hrecord.plain d.newline d.diagnostics
  rw [← hrecord.document] at hstanding
  refine ⟨shares, ?_, ?_, ?_, ?_, fun before share after hsplit => ?_, fun share hshare => ⟨?_, ?_⟩⟩
  · rw [hvisits, hshares.visits, Visit.flatMap_source_filter, hsource, hrecord.stretches,
      Text.flatMap_source_stretches]
  · calc shares.map (·.visit.stretch) = (shares.map Share.visit).map Visit.stretch := by
          rw [List.map_map]; rfl
      _ = (w.map Visit.stretch).filter Stretch.isWritten := by
          rw [hshares.visits, filter_map]; rfl
      _ = source.stretches.filter Stretch.isWritten := by rw [hrecord.stretches]
  · have hroot : d.root = Cell.ids (f.cells 0) := by
      rw [hrecord.document, Forest.ids_cells]
      rfl
    rw [hshares.parts, hroot]
    exact hstanding.walk
  · rw [hshares.parts, Cell.filterMap_token?_parts, Forest.places_cells, hrecord.document,
      Document.size_tokens_ofForest, range_eq_range']
  · -- the visits before the share are those of the earlier shares, and some without symbols
    have hfilter := hshares.visits
    rw [hsplit, map_append, map_cons] at hfilter
    obtain ⟨w₁, w₂, rfl, hw₁, hw₂⟩ := filter_eq_append_iff.mp hfilter.symm
    obtain ⟨u, w₃, rfl, hu, -, -⟩ := filter_eq_cons_iff.mp hw₂
    have hbefore : before.map Share.visit = (w₁ ++ u).filter Visit.isWritten := by
      rw [filter_append, hw₁, filter_eq_nil_iff.mpr hu, append_nil]
    rw [← append_assoc] at hrecord
    constructor
    · rw [hvisits, hbefore, Visit.flatMap_source_filter, hsource]
      exact hrecord.route.position_eq hrecord.stretches
    · rw [hrecord.route.place.2.2, ← Visit.radixesAfter_filter, ← hbefore, List.map_map]
      rfl
  · have hmem : share.visit ∈ w.filter Visit.isWritten :=
      hshares.visits ▸ mem_map_of_mem hshare
    exact Text.proper_of_mem_stretches (hrecord.stretches ▸ mem_map_of_mem (mem_of_mem_filter hmem))
  · have hfits : ∀ s ∈ shares, s.Fits d ([] ++ Share.leads shares ++ []) :=
      hshares.fits rfl (by simp)
    simpa using hfits share hshare

/-- A radix directive, a marked numeral, brackets that do not match, and a comment block. -/
theorem read_lossless_brackets :
    ∃ d, read "RADIX 16\r\nA==^O17>9<B\rCOMMENT *\n*<\n;x" 8 = .ok d ∧
      ∃ shares : List Share,
        shares.flatMap Share.source = "RADIX 16\r\nA==^O17>9<B\rCOMMENT *\n*<\n;x" ∧
        d.Walk d.root (shares.filterMap Share.part) ∧
        ∀ share ∈ shares, share.visit.stretch.Proper ∧ share.Fits d (Share.leads shares) := by
  refine exists_eq_ok_and (by decide +kernel) fun hd => ?_
  obtain ⟨shares, hsource, -, hwalk, -, -, hfits⟩ := read_lossless hd
  exact ⟨shares, hsource, hwalk, hfits⟩

end Macro10
