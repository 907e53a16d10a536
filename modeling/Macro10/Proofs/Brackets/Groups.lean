import Macro10.Proofs.Brackets.Structural
import Macro10.Proofs.Source.Spelling

/-!
# Groups are matched brackets

The groups of a document are the structural brackets of its source, as they belong together
(`read_grouped`): a group is closed just if its bracket is, and the groups around it are the
brackets that are open where it starts.
-/

namespace Macro10

open List
open Document (has_append has_cons)

variable {v : Visit} {d : Document} {parent : Option Id} {first : Id} {w : List Visit} {f : Forest}
  {positions : List Position} {earlier : List Bracket}

open Macro10.Bracket
open Matching (of of_append run_cons)
open Visit (bracket? brackets brackets_append brackets_closing report)

variable {mark top : Bool} {kind : Kind} {text : Text}

/-- The positions at which a problem is reported. -/
def Diagnostic.positionsOf (problem : Problem) (ds : List Diagnostic) : List Position :=
  (ds.filter fun d => d.problem = problem).map Diagnostic.position

namespace Document

/-- The groups around, from the given one outwards, start at the given positions. -/
inductive Lineage (d : Document) : Option Id → List Position → Prop
  | root : Lineage d none []
  | group {i : Id} {t : Token} {p : Position} {around : List Position}
      (ht : d.tokens[i]? = some t) (hp : t.position = some p) (h : Lineage d t.parent around) :
      Lineage d (some i) (p :: around)

/-- Each of the groups is the last token in the one before it, the first of them in `parent`. -/
inductive Chain (d : Document) : Option Id → List Id → Prop
  | nil (parent : Option Id) : Chain d parent []
  | cons {parent : Option Id} {i : Id} {ids : List Id} {t : Token} (ht : d.tokens[i]? = some t)
      (hparent : t.parent = parent) (hnext : t.next = none) (h : Chain d (some i) ids) :
      Chain d parent (i :: ids)

/-- The groups of the document are the brackets as they belong together. -/
structure Grouped (d : Document) (brackets : List Bracket) : Prop where
  /-- No two brackets stand at the same position. -/
  distinct : (openings brackets).Nodup ∧ (closings brackets).Nodup
  /-- There is one group for each opening bracket, in order. -/
  containers : (d.tokens.toList.filter fun t => t.kind = .container).map Token.position =
    (openings brackets).map some
  /-- A group is closed just if its bracket is. -/
  closed : ∀ t ∈ d.tokens, t.kind = .container → ∃ p, t.position = some p ∧
    (t.closing = [.char '>'] ↔ ∃ q, Pairs brackets p q)
  /-- The groups around a group are the brackets that are open where it starts. -/
  nested : ∀ t ∈ d.tokens, t.kind = .container → ∃ p before after around,
    t.position = some p ∧ brackets = before ++ opening p :: after ∧ d.Lineage t.parent around ∧
      ∀ o, o ∈ around ↔ Unclosed before o
  /-- Each closing bracket that belongs to no other is reported, once. -/
  stray : (Diagnostic.positionsOf .unmatchedClose d.diagnostics).Nodup ∧
    ∀ q, q ∈ Diagnostic.positionsOf .unmatchedClose d.diagnostics ↔ Unopened brackets q
  /-- Each opening bracket that belongs to no other is reported, once. -/
  unclosed : (Diagnostic.positionsOf .neverClosed d.diagnostics).Nodup ∧
    ∀ p, p ∈ Diagnostic.positionsOf .neverClosed d.diagnostics ↔ Unclosed brackets p
  /-- The groups that are not closed stand in one another, each at the end. -/
  chain : ∃ ids, d.Chain none ids ∧ ∀ i, i ∈ ids ↔
    ∃ t, d.tokens[i]? = some t ∧ t.kind = .container ∧ t.closing ≠ [.char '>']

end Document

/-! ## Reports -/

theorem Diagnostic.positionsOf_append (problem : Problem) (xs ys : List Diagnostic) :
    positionsOf problem (xs ++ ys) = positionsOf problem xs ++ positionsOf problem ys := by
  rw [positionsOf, filter_append, map_append]
  rfl

theorem Visit.Reads.problem_ne (h : v.Reads mark kind text) {r : Diagnostic}
    (hr : v.report = some r) : r.problem ≠ .unmatchedClose ∧ r.problem ≠ .neverClosed := by
  cases h with
  | plain hplain hreport =>
    rw [hreport] at hr
    unfold Stretch.notice? at hr
    split at hr
    · cases hr
      exact ⟨nofun, nofun⟩
    · split at hr
      · split at hr
        · cases hr
        · cases hr
          exact ⟨nofun, nofun⟩
      · cases hr
    · cases hr
      exact ⟨nofun, nofun⟩
    · cases hr
  | converted _ _ _ hreport | name _ _ hreport =>
    rw [hreport] at hr
    cases hr
  | refused _ _ hjudge hreport =>
    rw [hreport] at hr
    cases hr
    rw [Numeral.eq_badNumeral_of_judgeNumber hjudge]
    exact ⟨nofun, nofun⟩
  | refusedMark _ _ hjudge hreport =>
    rw [hreport] at hr
    cases hr
    obtain ⟨radix, hjudge⟩ := hjudge
    rcases Numeral.judgeMarked_cases hjudge with
      ⟨hverdict, -⟩ | ⟨base, hverdict, -⟩ | ⟨base, digits, new, hverdict, -⟩
    · cases hverdict
    · obtain rfl := Numeral.Verdict.refusedMark.inj hverdict
      exact ⟨nofun, nofun⟩
    · cases hverdict

theorem Visit.Reads.bracket?_eq_none
    (h : v.Reads mark kind text) : v.bracket? = none ∧ kind ≠ .container := by
  have hshows := h.shows
  unfold bracket?
  generalize v.stretch = s at hshows
  cases hshows with
  | lexeme l => exact ⟨rfl, by cases l <;> nofun⟩
  | numeral | terminator | remark | setRadix => exact ⟨rfl, nofun⟩

/-! ## Groups of a forest -/

/-- The tokens, the first of which is at `first`, are grouped as the brackets of the visits belong
together, if the brackets `earlier` stand before them. -/
structure Grouping (d : Document) (parent : Option Id) (first : Id) (earlier : List Bracket)
    (ts : List Token) (w : List Visit) (positions : List Position) : Prop where
  pending : (of (earlier ++ brackets w)).pending = positions.reverse ++ (of earlier).pending
  stray : (of (earlier ++ brackets w)).stray = (of earlier).stray ++
    Diagnostic.positionsOf .unmatchedClose (w.filterMap report)
  containers : (ts.filter fun t => t.kind = .container).map Token.position =
    (openings (brackets w)).map some
  groups : ∀ t ∈ ts, t.kind = .container → ∃ p, t.position = some p ∧
    (∃ before after, earlier ++ brackets w = before ++ opening p :: after ∧
      d.Lineage t.parent (of before).pending) ∧
    (t.closing = [.char '>'] ∧
        (∃ q, (p, q) ∈ (of (earlier ++ brackets w)).pairs) ∨
      t.closing = [] ∧ p ∈ positions)
  chain : ∃ ids, d.Chain parent ids ∧ ∀ i, i ∈ ids ↔ ∃ k t, i = first + k ∧ ts[k]? = some t ∧
    t.kind = .container ∧ t.closing ≠ [.char '>']

namespace Grouping

variable {ts us : List Token} {w' : List Visit}

theorem of_plain (hbrackets : brackets w = [])
    (hreports : Diagnostic.positionsOf .unmatchedClose (w.filterMap report) = [])
    (hts : ∀ t ∈ ts, t.kind ≠ .container) : Grouping d parent first earlier ts w [] where
  pending := by rw [hbrackets, append_nil]; rfl
  stray := by rw [hbrackets, hreports, append_nil, append_nil]
  containers := by
    rw [hbrackets, filter_eq_nil_iff.mpr fun t ht => by simpa using hts t ht]
    rfl
  groups t ht hkind := absurd hkind (hts t ht)
  chain := by
    refine ⟨[], .nil parent, fun i => ⟨fun hi => (not_mem_nil hi).elim, ?_⟩⟩
    rintro ⟨k, t, -, ht, hkind, -⟩
    exact absurd hkind (hts t (mem_of_getElem? ht))

/-- A visit to something that is no bracket. -/
theorem of_visit (hbracket : v.bracket? = none)
    (hreport : ∀ r, v.report = some r → r.problem ≠ .unmatchedClose)
    (hts : ∀ t ∈ ts, t.kind ≠ .container) : Grouping d parent first earlier ts [v] [] := by
  refine .of_plain ?_ ?_ hts
  · rw [brackets, filterMap_cons_none hbracket]
    rfl
  · cases hr : v.report with
    | none => rw [filterMap_cons_none hr]; rfl
    | some r =>
      rw [filterMap_cons_some hr]
      simp [Diagnostic.positionsOf, hreport r hr]

theorem closing_eq (h : Grouping d parent first earlier ts w []) :
    ∀ t ∈ ts, t.kind = .container → t.closing = [.char '>'] := by
  intro t ht hkind
  obtain ⟨p, -, -, ⟨hclosing, -⟩ | ⟨-, hp⟩⟩ := h.groups t ht hkind
  · exact hclosing
  · cases hp

/-- Tokens after one another, where the groups of the first ones are closed. -/
theorem append (h : Grouping d parent first earlier ts w [])
    (h' : (of (earlier ++ brackets w)).pending = (of earlier).pending →
      Grouping d parent (first + ts.length) (earlier ++ brackets w) us w' positions) :
    Grouping d parent first earlier (ts ++ us) (w ++ w') positions := by
  replace h' := h' h.pending
  have hbrackets : earlier ++ brackets (w ++ w') = earlier ++ brackets w ++ brackets w' := by
    rw [brackets_append, append_assoc]
  refine ⟨?_, ?_, ?_, fun t ht hkind => ?_, ?_⟩
  · rw [hbrackets, h'.pending, h.pending]
    rfl
  · rw [hbrackets, h'.stray, h.stray, filterMap_append, Diagnostic.positionsOf_append,
      append_assoc]
  · rw [filter_append, map_append, h.containers, h'.containers, brackets_append,
      openings_append, map_append]
  · rw [hbrackets]
    rcases mem_append.mp ht with ht | ht
    · obtain ⟨p, hp, ⟨before, after, hsplit, hlineage⟩, hclosed⟩ := h.groups t ht hkind
      refine ⟨p, hp, ⟨before, after ++ brackets w', by rw [hsplit]; simp, hlineage⟩, ?_⟩
      rcases hclosed with ⟨hclosing, q, hq⟩ | ⟨-, hnone⟩
      · refine .inl ⟨hclosing, q, ?_⟩
        rw [of_append]
        exact Matching.pairs_subset_run _ _ hq
      · cases hnone
    · exact h'.groups t ht hkind
  · obtain ⟨ids, hchain, hids⟩ := h'.chain
    refine ⟨ids, hchain, fun i => (hids i).trans ⟨?_, ?_⟩⟩
    · rintro ⟨k, t, rfl, ht, hopen⟩
      refine ⟨ts.length + k, t, Nat.add_assoc .., ?_, hopen⟩
      rwa [getElem?_append_right (Nat.le_add_right _ _), Nat.add_sub_cancel_left]
    · rintro ⟨k, t, rfl, ht, hkind, hopen⟩
      by_cases hk : k < ts.length
      · rw [getElem?_append_left hk] at ht
        exact absurd (h.closing_eq t (mem_of_getElem? ht) hkind) hopen
      · rw [getElem?_append_right (Nat.le_of_not_lt hk)] at ht
        refine ⟨k - ts.length, t, ?_, ht, hkind, hopen⟩
        rw [Nat.add_assoc, Nat.add_sub_cancel' (Nat.le_of_not_lt hk)]

theorem of_stray (hpending : (of earlier).pending = []) (hv : v.stretch = .closing)
    (hreport : v.report = some ⟨.unmatchedClose, v.position, .warning, 1⟩) :
    Grouping d parent first earlier [] [v] [] := by
  have hbrackets : brackets [v] = [closing v.position] := brackets_closing hv []
  have hstep : of (earlier ++ brackets [v]) =
      { of earlier with stray := (of earlier).stray ++ [v.position] } := by
    rw [hbrackets, of_append, run_cons, Matching.step_stray hpending]
    rfl
  refine ⟨by rw [hstep]; rfl, ?_, by rw [hbrackets]; rfl, fun t ht => (nomatch ht), ?_⟩
  · rw [hstep, filterMap_cons_some hreport]
    simp [Diagnostic.positionsOf]
  · exact ⟨[], .nil parent, fun i => ⟨fun hi => (nomatch hi), by rintro ⟨k, t, -, ht, -⟩; cases ht⟩⟩

section

variable {g : Token} (hg : d.tokens[first]? = some g) (hkind : g.kind = .container)
  (hposition : g.position = some v.position) (hparent : g.parent = parent)
  (hlineage : d.Lineage parent (of earlier).pending) (hv : v.stretch = .opening)

include hv in
theorem brackets_opening (w : List Visit) :
    earlier ++ brackets (v :: w) = earlier ++ [opening v.position] ++ brackets w := by
  simp [Visit.brackets_opening hv]

theorem pending_opening :
    (of (earlier ++ [opening v.position])).pending = v.position :: (of earlier).pending := by
  rw [of_append]
  rfl

include hg hposition hparent hlineage in
/-- The groups around what is inside a group. -/
theorem lineage_opening :
    d.Lineage (some first) (of (earlier ++ [opening v.position])).pending := by
  rw [pending_opening]
  exact .group hg hposition (hparent ▸ hlineage)

include hkind hposition hparent hlineage hv

theorem of_group {e : Visit} (hclosing : g.closing = [.char '>']) (hvreport : v.report = none)
    (he : e.stretch = .closing ∧ e.report = none)
    (h : Grouping d (some first) (first + 1) (earlier ++ [opening v.position]) ts w []) :
    Grouping d parent first earlier (g :: ts) (v :: (w ++ [e])) [] := by
  have hbrackets : earlier ++ brackets (v :: (w ++ [e])) =
      earlier ++ [opening v.position] ++ brackets w ++ [closing e.position] := by
    rw [brackets_opening hv, brackets_append, brackets_closing he.1, ← append_assoc]
    rfl
  have hpending := h.pending
  rw [pending_opening] at hpending
  have hstep : of (earlier ++ brackets (v :: (w ++ [e]))) =
      { of (earlier ++ [opening v.position] ++ brackets w) with
        pending := (of earlier).pending,
        pairs := (of (earlier ++ [opening v.position] ++ brackets w)).pairs ++
          [(v.position, e.position)] } := by
    rw [hbrackets, of_append, run_cons, Matching.step_pair hpending]
    rfl
  have hts := h.closing_eq
  refine ⟨by rw [hstep]; rfl, ?_, ?_, fun t ht hkind' => ?_, ⟨[], .nil parent, fun i => ?_⟩⟩
  · rw [hstep, h.stray, filterMap_cons_none hvreport, filterMap_append,
      filterMap_cons_none he.2, of_append]
    simp [Matching.step_opening]
  · rw [filter_cons_of_pos (by simpa using hkind), map_cons, h.containers, hposition,
      Visit.brackets_opening hv, brackets_append, brackets_closing he.1]
    simp [brackets]
  · rw [hstep]
    rcases mem_cons.mp ht with rfl | ht
    · refine ⟨v.position, hposition,
        ⟨earlier, brackets w ++ [closing e.position], ?_, hparent ▸ hlineage⟩,
        .inl ⟨hclosing, e.position, mem_append_right _ (mem_singleton_self _)⟩⟩
      rw [hbrackets]
      simp
    · obtain ⟨p, hp, ⟨before, after, hsplit, hlineage'⟩, hclosed⟩ := h.groups t ht hkind'
      refine ⟨p, hp, ⟨before, after ++ [closing e.position], ?_, hlineage'⟩, ?_⟩
      · rw [hbrackets, hsplit]
        simp
      · rcases hclosed with ⟨hclosing', q, hq⟩ | ⟨-, hnone⟩
        · exact .inl ⟨hclosing', q, mem_append_left _ hq⟩
        · cases hnone
  · refine ⟨fun hi => (not_mem_nil hi).elim, ?_⟩
    rintro ⟨k, t, -, ht, hkind', hopen⟩
    rcases mem_cons.mp (mem_of_getElem? ht) with rfl | ht
    · exact absurd hclosing hopen
    · exact absurd (hts t ht hkind') hopen

include hg

theorem of_unclosed (hclosing : g.closing = []) (hnext : g.next = none) (hvreport : v.report = none)
    (h : Grouping d (some first) (first + 1) (earlier ++ [opening v.position]) ts w positions) :
    Grouping d parent first earlier (g :: ts) (v :: w) (v.position :: positions) := by
  have hbrackets : earlier ++ brackets (v :: w) =
      earlier ++ [opening v.position] ++ brackets w := brackets_opening hv w
  refine ⟨?_, ?_, ?_, fun t ht hkind' => ?_, ?_⟩
  · rw [hbrackets, h.pending, pending_opening]
    simp
  · rw [hbrackets, h.stray, filterMap_cons_none hvreport, of_append]
    rfl
  · rw [filter_cons_of_pos (by simpa using hkind), map_cons, h.containers, hposition,
      Visit.brackets_opening hv]
    rfl
  · rw [hbrackets]
    rcases mem_cons.mp ht with rfl | ht
    · exact ⟨v.position, hposition, ⟨earlier, brackets w, by simp, hparent ▸ hlineage⟩,
        .inr ⟨hclosing, mem_cons_self⟩⟩
    · obtain ⟨p, hp, hsplit, hclosed⟩ := h.groups t ht hkind'
      exact ⟨p, hp, hsplit, hclosed.imp_right fun ⟨hc, hp⟩ => ⟨hc, mem_cons_of_mem _ hp⟩⟩
  · obtain ⟨ids, hchain, hids⟩ := h.chain
    refine ⟨first :: ids, .cons hg hparent hnext hchain, fun i => ?_⟩
    rw [mem_cons, hids]
    constructor
    · rintro (rfl | ⟨k, t, rfl, ht, hopen⟩)
      · exact ⟨0, g, rfl, rfl, hkind, by simp [hclosing]⟩
      · exact ⟨k + 1, t, Nat.add_right_comm first 1 k, ht, hopen⟩
    · rintro ⟨k, t, rfl, ht, hopen⟩
      cases k with
      | zero => exact .inl rfl
      | succ k => exact .inr ⟨k, t, (Nat.add_right_comm first 1 k).symm, ht, hopen⟩

end

end Grouping

theorem Grouping.of_reads {t : Token} (h : v.Reads mark kind text) (ht : t.kind = kind) :
    Grouping d parent first earlier [t] [v] [] := by
  obtain ⟨hbracket, hkind⟩ := h.bracket?_eq_none
  exact .of_visit hbracket (fun _ hr => (h.problem_ne hr).1) (forall_mem_singleton.mpr (ht ▸ hkind))

theorem Grouping.of_silent (hpending : top = true → (of earlier).pending = [])
    (h : v.Silent top) : Grouping d parent first earlier [] [v] [] := by
  rcases h with ⟨marker, hv, hreport⟩ | ⟨rfl, hv, hreport⟩
  · refine .of_visit (by simp [bracket?, hv, Stretch.bracket?]) (fun r hr => ?_)
      (forall_mem_nil _)
    rw [hreport, hv] at hr
    cases hr
    simp
  · exact .of_stray (hpending rfl) hv hreport

theorem Grouping.of_silents (hpending : top = true → (of earlier).pending = [])
    (h : ∀ v ∈ w, v.Silent top) : Grouping d parent first earlier [] w [] := by
  induction w generalizing earlier with
  | nil => exact .of_plain rfl rfl (forall_mem_nil _)
  | cons v w ih =>
    obtain ⟨hv, hw⟩ := forall_mem_cons.mp h
    exact Grouping.append (.of_silent hpending hv) fun hsame =>
      ih (fun htop => hsame.trans (hpending htop)) hw

/-- **The groups of a forest are its brackets as they belong together.** -/
theorem Forest.Spelled.grouping (h : Forest.Spelled top mark f w positions) {prev : Option Id}
    (hd : d.Has first (f.tokens parent first prev))
    (hlineage : d.Lineage parent (of earlier).pending)
    (hpending : top = true → (of earlier).pending = []) :
    Grouping d parent first earlier (f.tokens parent first prev) w positions := by
  induction h generalizing parent prev first earlier with
  | nil top mark => exact .of_plain rfl rfl (forall_mem_nil _)
  | @silent top mark f w positions v hv h ih =>
    exact Grouping.append (.of_silent hpending hv) fun hsame =>
      ih hd (hsame ▸ hlineage) (hsame ▸ hpending)
  | @leaf top mark f w positions v kind text hv h ih =>
    obtain ⟨-, hrest⟩ := has_cons.mp hd
    exact (Grouping.of_reads hv rfl).append fun hsame =>
      ih hrest (hsame ▸ hlineage) (hsame ▸ hpending)
  | @pair top mark f w w' positions m v new hm hsilent hv h ih =>
    obtain ⟨-, hrest⟩ := has_cons.mp hd
    obtain ⟨-, hrest⟩ := has_cons.mp hrest
    obtain ⟨name, radix, hname, -, hreport⟩ := hv
    have hplain {u : Visit} {l : Lexeme} {t : Token} {first : Id} {earlier : List Bracket}
        (hu : u.stretch = .lexeme l) (hnone : u.report = none) (ht : t.kind ≠ .container) :
        Grouping d parent first earlier [t] [u] [] :=
      .of_visit (by simp [bracket?, hu, Stretch.bracket?]) (by simp [hnone])
        (forall_mem_singleton.mpr ht)
    refine (hplain hm.1 hm.2 (by simp)).append fun hmark => Grouping.append
      (.of_silents (hmark ▸ hpending) hsilent) fun hstrays =>
        (hplain hname hreport (by simp)).append fun hnumber => ?_
    have hsame := hnumber.trans (hstrays.trans hmark)
    exact ih hrest (hsame ▸ hlineage) (hsame ▸ hpending)
  | @group top mark f inside w w' positions v e hv hinside he h ihinside ih =>
    obtain ⟨hfirst, hrest⟩ := has_cons.mp hd
    obtain ⟨hchildren, hrest⟩ := has_append.mp hrest
    rw [Forest.length_tokens, Nat.add_right_comm] at hrest
    have hgroup := Grouping.of_group
      (g := { kind := .container, position := some v.position,
              children := some (inside.ids (first + 1)), opening := [.char '<'],
              closing := [.char '>'], prev, next := f.head? (first + inside.size + 1), parent })
      rfl rfl rfl hlineage hv.1 rfl hv.2 he
      (ihinside hchildren (Grouping.lineage_opening hfirst rfl rfl hlineage) (by simp))
    have hall := hgroup.append fun hsame => by
      rw [length_cons, Forest.length_tokens, ← Nat.add_assoc]
      exact ih hrest (hsame ▸ hlineage) (hsame ▸ hpending)
    simpa [Forest.tokens] using hall
  | @unclosed top mark inside w positions v hv hinside ih =>
    obtain ⟨hfirst, hrest⟩ := has_cons.mp hd
    obtain ⟨hchildren, -⟩ := has_append.mp hrest
    have hgroup := Grouping.of_unclosed hfirst rfl rfl rfl hlineage hv.1 rfl rfl hv.2
      (ih hchildren (Grouping.lineage_opening hfirst rfl rfl hlineage) (by simp))
    simpa [Forest.tokens] using hgroup

theorem Forest.Spelled.problem_ne (h : Forest.Spelled top mark f w positions) :
    ∀ v ∈ w, ∀ r, v.report = some r → r.problem ≠ .neverClosed := by
  intro v hv r hr
  rcases h.mem_cases v hv with ⟨_, hsilent⟩ | ⟨_, _, _, hreads⟩ | hnone
  · rcases hsilent.problem_cases hr with hproblem | ⟨marker, hproblem⟩ <;> simp [hproblem]
  · exact (hreads.problem_ne hr).2
  · cases hr.symm.trans hnone

namespace Record

variable {source : Text} {radix : Int}
  (h : Record source radix d f w positions)

include h

theorem brackets_eq : brackets w = source.brackets := h.route.brackets_eq h.stretches

theorem nodup_brackets : (openings source.brackets).Nodup ∧ (closings source.brackets).Nodup := by
  rw [← h.brackets_eq]
  exact h.route.nodup_brackets

theorem grouping : Grouping d none 0 [] (f.tokens none 0 none) w positions :=
  h.spelled.grouping h.has .root fun _ => rfl

theorem pending_eq : (of source.brackets).pending = positions.reverse := by
  have hpending := h.grouping.pending
  rw [nil_append, h.brackets_eq] at hpending
  exact hpending.trans (append_nil _)

theorem positionsOf_unmatchedClose :
    Diagnostic.positionsOf .unmatchedClose d.diagnostics = (of source.brackets).stray := by
  have hstray := h.grouping.stray
  rw [nil_append, h.brackets_eq] at hstray
  rw [h.diagnostics, Diagnostic.positionsOf_append, hstray]
  simp [Diagnostic.positionsOf, of]

theorem positionsOf_neverClosed :
    Diagnostic.positionsOf .neverClosed d.diagnostics = (of source.brackets).pending := by
  have hnone : Diagnostic.positionsOf .neverClosed (w.filterMap report) = [] := by
    rw [Diagnostic.positionsOf, filter_eq_nil_iff.mpr]
    · rfl
    · intro r hr
      obtain ⟨v, hv, hr⟩ := mem_filterMap.mp hr
      simpa using h.spelled.problem_ne v hv r hr
  rw [h.diagnostics, Diagnostic.positionsOf_append, hnone, h.pending_eq]
  simp [Diagnostic.positionsOf, filter_map, Function.comp_def]

end Record

/-- **The groups of a document are the structural brackets of its source, as they belong
together.** -/
theorem read_grouped {source : Text} {radix : Int} {d : Document}
    (h : read source radix = .ok d) : d.Grouped source.brackets := by
  obtain ⟨f, w, positions, hrecord⟩ := exists_record h
  obtain ⟨hopenings, hclosings⟩ := hrecord.nodup_brackets
  have hbrackets : [] ++ Visit.brackets w = source.brackets := hrecord.brackets_eq
  have hgroups := hrecord.grouping.groups
  rw [hbrackets] at hgroups
  refine ⟨⟨hopenings, hclosings⟩, ?_, fun t ht hkind => ?_, fun t ht hkind => ?_, ?_, ?_, ?_⟩
  · rw [hrecord.tokens_eq, hrecord.grouping.containers, hrecord.brackets_eq]
  · rw [hrecord.tokens_eq, mem_toArray] at ht
    obtain ⟨p, hp, -, hclosed⟩ := hgroups t ht hkind
    refine ⟨p, hp, ?_⟩
    rcases hclosed with ⟨hclosing, q, hq⟩ | ⟨hclosing, hmem⟩
    · exact ⟨fun _ => ⟨q, Matching.mem_pairs_iff.mp hq⟩, fun _ => hclosing⟩
    · have hunclosed : Unclosed source.brackets p :=
        (Matching.mem_pending_iff hopenings).mp
          (by rw [hrecord.pending_eq]; exact mem_reverse.mpr hmem)
      refine ⟨fun hne => absurd (hclosing.symm.trans hne) (by decide), fun ⟨q, hq⟩ => ?_⟩
      exact absurd hq (hunclosed.2 q)
  · rw [hrecord.tokens_eq, mem_toArray] at ht
    obtain ⟨p, hp, ⟨before, after, hsplit, hlineage⟩, -⟩ := hgroups t ht hkind
    refine ⟨p, before, after, _, hp, hsplit, hlineage, fun o => Matching.mem_pending_iff ?_⟩
    rw [hsplit, openings_append] at hopenings
    exact (nodup_append.mp hopenings).1
  · rw [hrecord.positionsOf_unmatchedClose]
    refine ⟨?_, fun q => Matching.mem_stray_iff hclosings⟩
    exact (nodup_append.mp ((Matching.perm_closings _).nodup_iff.mp hclosings)).1
  · rw [hrecord.positionsOf_neverClosed]
    refine ⟨?_, fun p => Matching.mem_pending_iff hopenings⟩
    exact (nodup_append.mp ((Matching.perm_openings _).nodup_iff.mp hopenings)).1
  · obtain ⟨ids, hchain, hids⟩ := hrecord.grouping.chain
    refine ⟨ids, hchain, fun i => (hids i).trans ?_⟩
    rw [hrecord.tokens_eq]
    simp [getElem?_toArray]

/-- Brackets in a string and in a comment, in a directive and in a comment block, and two brackets
that do not match. -/
theorem read_grouped_unclosed :
    ∃ d, read "A<\"<\";>\n>>B<<C>\nPAGE <\nCOMMENT *\n<*\n" 8 = .ok d ∧
      d.Grouped (Text.brackets "A<\"<\";>\n>>B<<C>\nPAGE <\nCOMMENT *\n<*\n") :=
  exists_eq_ok_and (by decide +kernel) read_grouped

end Macro10
