import Macro10.Proofs.Source.Visit

/-!
# How a source spells its pieces

The pieces of a source, first one first, with the visits that they are read from (`Forest.Spelled`);
each document that is read has such a record (`exists_record`). A `^` and the name after it that
together are a numeral are one step here.
-/

namespace Macro10

open List

variable {f : Forest} {w : List Visit} {v : Visit} {top : Bool}

variable {source : Text} {radix : Int} {d : Document}

variable {positions : List Position}

/-- The operator `^`. -/
def Stretch.mark : Stretch := .lexeme (.operator [.char '^'])

namespace Visit

/-- No piece is read from the visit: it is a bracket that closes nothing, or the place where a
comment block starts that does not end. -/
def Silent (top : Bool) (v : Visit) : Prop :=
  (∃ marker, v.stretch = .unended marker ∧ v.report = v.stretch.notice? v.position) ∨
    top = true ∧ v.stretch = .closing ∧ v.report = some ⟨.unmatchedClose, v.position, .warning, 1⟩

theorem Silent.problem_cases (h : v.Silent top) {r : Diagnostic} (hr : v.report = some r) :
    r.problem = .unmatchedClose ∨ ∃ marker, r.problem = .blockNeverClosed marker := by
  rcases h with ⟨marker, hv, hreport⟩ | ⟨-, -, hreport⟩
  · rw [hv] at hreport
    cases hr.symm.trans hreport
    exact .inr ⟨marker, rfl⟩
  · cases hr.symm.trans hreport
    exact .inl rfl

/-- The visit is the operator `^`. -/
def IsMark (v : Visit) : Prop :=
  v.stretch = .lexeme (.operator [.char '^']) ∧ v.report = none

/-- The visit is a name that is a numeral after a `^`, and becomes `new`. -/
def IsMarked (v : Visit) (new : Text) : Prop :=
  ∃ text radix, v.stretch = .lexeme (.name text) ∧
    Numeral.judgeMarked text radix = .ok (.convertedMark new) ∧ v.report = none

theorem Reads.isMark {mark : Bool} (h : v.Reads mark .operator [.char '^']) : v.IsMark := by
  cases h with
  | plain hplain hreport =>
    have hv : v.stretch = .lexeme (.operator [.char '^']) := by
      cases hs : v.stretch with
      | lexeme l => cases l <;> simp_all [Stretch.plain?]
      | terminator | remark | setRadix | opening | closing | unended =>
        simp_all [Stretch.plain?]
    exact ⟨hv, by rw [hreport, hv]; rfl⟩

end Visit

namespace Forest

variable {mark : Bool}

/-- The pieces are what the visits are read as. Outside all groups (`top`), a closing bracket may
close nothing; `mark` tells whether a `^` stands directly before the first piece. The groups that
are not closed start at the given positions, the outermost first. -/
inductive Spelled : Bool → Bool → Forest → List Visit → List Position → Prop
  | nil (top mark : Bool) : Spelled top mark .nil [] []
  | silent {top mark : Bool} {f : Forest} {w : List Visit} {positions : List Position} {v : Visit}
      (hv : v.Silent top) (h : Spelled top mark f w positions) :
      Spelled top mark f (v :: w) positions
  | leaf {top mark : Bool} {f : Forest} {w : List Visit} {positions : List Position} {v : Visit}
      {kind : Kind} {text : Text} (hv : v.Reads mark kind text)
      (h : Spelled top (decide (kind = .operator ∧ text = [.char '^'])) f w positions) :
      Spelled top mark (.leaf kind text v.position f) (v :: w) positions
  | pair {top mark : Bool} {f : Forest} {w w' : List Visit} {positions : List Position}
      {m v : Visit} {new : Text} (hm : m.IsMark) (hsilent : ∀ u ∈ w', u.Silent top)
      (hv : v.IsMarked new) (h : Spelled top false f w positions) :
      Spelled top mark (.leaf .whitespace [] m.position (.leaf .number new v.position f))
        (m :: (w' ++ v :: w)) positions
  | group {top mark : Bool} {f inside : Forest} {w w' : List Visit} {positions : List Position}
      {v e : Visit} (hv : v.stretch = .opening ∧ v.report = none)
      (hinside : Spelled false false inside w' []) (he : e.stretch = .closing ∧ e.report = none)
      (h : Spelled top false f w positions) :
      Spelled top mark (.group v.position true inside f) (v :: (w' ++ e :: w)) positions
  | unclosed {top mark : Bool} {inside : Forest} {w : List Visit} {positions : List Position}
      {v : Visit} (hv : v.stretch = .opening ∧ v.report = none)
      (hinside : Spelled false false inside w positions) :
      Spelled top mark (.group v.position false inside .nil) (v :: w) (v.position :: positions)

theorem endsWithMark_leaf (kind : Kind) (text : Text) (position : Position) (f : Forest) :
    (leaf kind text position f).endsWithMark =
      decide (kind = .operator ∧ text = [.char '^']) := by
  unfold endsWithMark
  split
  · next h =>
    obtain ⟨rfl, rfl, -, -⟩ := leaf.inj h
    rfl
  · next hne =>
    refine (decide_eq_false ?_).symm
    rintro ⟨rfl, rfl⟩
    exact hne position f rfl

/-- What was read so far, followed by pieces that are spelled, is spelled. -/
def Leads (top : Bool) (f : Forest) (w : List Visit) : Prop :=
  ∀ {g w' positions}, Spelled top f.endsWithMark g w' positions →
    Spelled top false (f.reverseOnto g) (w ++ w') positions

/-- A `^` that was read last can still become part of a numeral: nothing but silent visits follow
it, and what was read before it leads up to it. -/
def Revocable (top : Bool) (f : Forest) (w : List Visit) : Prop :=
  ∀ {position f'}, f = .leaf .operator [.char '^'] position f' →
    ∃ w₁ m w₂, w = w₁ ++ m :: w₂ ∧ m.position = position ∧ m.IsMark ∧
      (∀ u ∈ w₂, u.Silent top) ∧ Leads top f' w₁

theorem Revocable.snoc (h : Revocable top f w) (hv : v.Silent top) :
    Revocable top f (w ++ [v]) := by
  intro position f' hf
  obtain ⟨w₁, m, w₂, rfl, hposition, hm, hsilent, hleads⟩ := h hf
  refine ⟨w₁, m, w₂ ++ [v], by simp, hposition, hm, ?_, hleads⟩
  exact forall_mem_append.mpr ⟨hsilent, forall_mem_singleton.mpr hv⟩

theorem Leads.snoc (h : Leads top f w) (hv : v.Silent top) : Leads top f (w ++ [v]) := by
  intro g w' positions hg
  rw [append_assoc]
  exact h (.silent hv hg)

/-- **What was read so far leads up to what follows,** also if it ends with a `^`. -/
theorem From.leads (h : From top f w) : Leads top f w ∧ Revocable top f w := by
  induction h with
  | nil top => exact ⟨fun h => h, fun hf => by cases hf⟩
  | @leaf top f w v kind text h hv ih =>
    refine ⟨fun {g w' positions} hg => ?_, fun hf => ?_⟩
    · rw [endsWithMark_leaf] at hg
      rw [append_assoc]
      exact ih.1 (.leaf hv hg)
    · obtain ⟨rfl, rfl, hposition, rfl⟩ := leaf.inj hf
      exact ⟨w, v, [], rfl, hposition, hv.isMark, forall_mem_nil _, ih.1⟩
  | @marked top f w v position text new h hv hjudge hreport ih =>
    obtain ⟨w₁, m, w₂, rfl, rfl, hm, hsilent, hleads⟩ := ih.2 rfl
    obtain ⟨radix, hjudge⟩ := hjudge
    refine ⟨fun {g w' positions} hg => ?_, fun hf => by cases hf⟩
    rw [endsWithMark_leaf] at hg
    have hpair := hleads (.pair hm hsilent ⟨text, radix, hv, hjudge, hreport⟩ hg)
    simpa [reverseOnto] using hpair
  | @group top f inside w w' v e h hv hinside he ih ihinside =>
    refine ⟨fun {g w'' positions} hg => ?_, fun hf => by cases hf⟩
    have hclosed := ihinside.1 (.nil false inside.endsWithMark)
    rw [append_nil] at hclosed
    have hgroup := ih.1 (.group hv hclosed he hg)
    simpa [reverseOnto, reverse] using hgroup
  | @unended top f w v marker h hv hreport ih =>
    have hsilent : v.Silent top := .inl ⟨marker, hv, hreport⟩
    exact ⟨Leads.snoc ih.1 hsilent, Revocable.snoc ih.2 hsilent⟩
  | @stray f w v h hv hreport ih =>
    have hsilent : v.Silent true := .inr ⟨rfl, hv, hreport⟩
    exact ⟨Leads.snoc ih.1 hsilent, Revocable.snoc ih.2 hsilent⟩

theorem Read.spelled (h : Read top f w positions) : Spelled top false f.reverse w positions := by
  induction h with
  | closed h =>
    have hclosed := h.leads.1 (.nil _ _)
    rwa [append_nil] at hclosed
  | unclosed h hv hinside ih => exact h.leads.1 (.unclosed hv ih)

/-- A visit is silent, or a token is read from it, or nothing is reported there. -/
theorem Spelled.mem_cases (h : Spelled top mark f w positions) :
    ∀ v ∈ w, (∃ top, v.Silent top) ∨ (∃ mark kind text, v.Reads mark kind text) ∨
      v.report = none := by
  induction h with
  | nil => exact forall_mem_nil _
  | silent hv h ih => exact forall_mem_cons.mpr ⟨.inl ⟨_, hv⟩, ih⟩
  | leaf hv h ih => exact forall_mem_cons.mpr ⟨.inr (.inl ⟨_, _, _, hv⟩), ih⟩
  | pair hm hsilent hv h ih =>
    obtain ⟨name, radix, -, -, hreport⟩ := hv
    exact forall_mem_cons.mpr ⟨.inr (.inr hm.2), forall_mem_append.mpr
      ⟨fun u hu => .inl ⟨_, hsilent u hu⟩, forall_mem_cons.mpr ⟨.inr (.inr hreport), ih⟩⟩⟩
  | group hv hinside he h ihinside ih =>
    exact forall_mem_cons.mpr ⟨.inr (.inr hv.2), forall_mem_append.mpr
      ⟨ihinside, forall_mem_cons.mpr ⟨.inr (.inr he.2), ih⟩⟩⟩
  | unclosed hv hinside ih => exact forall_mem_cons.mpr ⟨.inr (.inr hv.2), ih⟩

/-- Where a piece comes from: it is read from a visit, or is one of the two that a `^` and the rest
of its numeral are read as, or a group. -/
inductive Spells (w : List Visit) (positions : List Position) : Piece → Prop
  | leaf {v : Visit} {mark : Bool} {kind : Kind} {text : Text} (hv : v ∈ w)
      (h : v.Reads mark kind text) : Spells w positions { kind, text }
  | mark : Spells w positions { kind := .whitespace }
  | numeral {text : Text} (h : ∀ s ∈ text, Numeral.isNumeralSymbol s = true) :
      Spells w positions { kind := .number, text }
  | group {closed : Bool} (h : closed = false → positions ≠ []) :
      Spells w positions { kind := .container, opening := [.char '<'],
                           closing := if closed then [.char '>'] else [] }

theorem Spells.mono {w' : List Visit} {positions' : List Position} {p : Piece}
    (h : Spells w positions p) (hw : w ⊆ w') (hpositions : positions ≠ [] → positions' ≠ []) :
    Spells w' positions' p := by
  cases h with
  | leaf hv h => exact .leaf (hw hv) h
  | mark => exact .mark
  | numeral h => exact .numeral h
  | group h => exact .group fun hclosed => hpositions (h hclosed)

/-- **Every piece that is spelled comes from the visits.** -/
theorem Spelled.spells (h : Spelled top mark f w positions) :
    ∀ p ∈ Nest.listing f.items, Spells w positions p := by
  induction h with
  | nil => exact forall_mem_nil _
  | silent hv h ih => exact fun p hp => (ih p hp).mono (subset_cons_self _ _) id
  | leaf hv h ih =>
    rw [items, Nest.listing_cons, Nest.values_node]
    exact forall_mem_cons.mpr ⟨.leaf mem_cons_self hv,
      fun p hp => (ih p hp).mono (subset_cons_self _ _) id⟩
  | pair hm hsilent hv h ih =>
    obtain ⟨text, radix, -, hjudge, -⟩ := hv
    rw [items, items, Nest.listing_cons, Nest.listing_cons, Nest.values_node, Nest.values_node]
    refine forall_mem_cons.mpr ⟨.mark, forall_mem_cons.mpr
      ⟨.numeral (Numeral.isNumeralSymbol_of_judgeMarked hjudge).2, fun p hp => ?_⟩⟩
    exact (ih p hp).mono (fun v hv => by simp [hv]) id
  | group hv hinside he h ihinside ih =>
    rw [items, Nest.listing_cons, Nest.values_node]
    refine forall_mem_append.mpr
      ⟨forall_mem_cons.mpr ⟨.group (by simp), fun p hp => ?_⟩, fun p hp => ?_⟩
    · exact (ihinside p hp).mono (fun v hv => by simp [hv]) fun hne => absurd rfl hne
    · exact (ih p hp).mono (fun v hv => by simp [hv]) id
  | unclosed hv hinside ih =>
    rw [items, Nest.listing_cons, Nest.values_node]
    refine forall_mem_append.mpr ⟨forall_mem_cons.mpr
      ⟨.group fun _ => cons_ne_nil _ _, fun p hp => ?_⟩, forall_mem_nil _⟩
    exact (ih p hp).mono (subset_cons_self _ _) fun _ => cons_ne_nil _ _

end Forest

/-- How a document was read from a source. -/
structure Record (source : Text) (radix : Int) (d : Document) (f : Forest) (w : List Visit)
    (positions : List Position) : Prop where
  document : d = .ofForest f d.newline d.diagnostics
  plain : f.Plain
  stretches : w.map Visit.stretch = source.stretches
  route : Visit.Route 1 1 (some radix) w
  spelled : Forest.Spelled true false f w positions
  diagnostics : d.diagnostics = w.filterMap Visit.report ++
    positions.reverse.map fun p => ⟨.neverClosed, p, .warning, 1⟩

theorem Record.tokens_eq
    (h : Record source radix d f w positions) : d.tokens = (f.tokens none 0 none).toArray := by
  rw [h.document]
  rfl

theorem Record.has (h : Record source radix d f w positions) : d.Has 0 (f.tokens none 0 none) := by
  intro k t ht
  rw [h.tokens_eq]
  simpa using ht

theorem exists_record_of_readLines {r : Reader}
    (hr : Reader.Reads (some radix) source r) :
    ∃ w positions, Record source radix (.ofForest r.forest (Line.newline (Line.split source))
      (r.endGroups r.frames).diagnostics) r.forest w positions := by
  obtain ⟨w, positions, hstretches, hroute, hread, hdiagnostics⟩ := Reader.exists_visits hr
  exact ⟨w, positions, rfl, Reader.plain_forest hr, hstretches, hroute, hread.spelled, hdiagnostics⟩

/-- **A source spells the pieces that are read from it.** -/
theorem exists_record (h : read source radix = .ok d) :
    ∃ f w positions, Record source radix d f w positions := by
  obtain ⟨r, hr, -, rfl⟩ := exists_forest_of_read h
  exact ⟨r.forest, exists_record_of_readLines hr⟩

end Macro10
