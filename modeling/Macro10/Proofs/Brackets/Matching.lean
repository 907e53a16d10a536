import Macro10.Token
import Mathlib.Data.List.Induction
import Mathlib.Data.List.Perm.Basic

/-!
# Brackets that belong together

Two brackets belong together if what stands between them is balanced (`Bracket.Pairs`). They are
found by one walk with the open ones on a stack (`Matching`): the stack finds the pairs
(`mem_pairs_iff`) and leaves over what belongs to no other bracket (`mem_pending_iff`,
`mem_stray_iff`).
-/

namespace Macro10

open List

/-- A bracket of a source. -/
inductive Bracket where
  | opening (position : Position)
  | closing (position : Position)
deriving DecidableEq, Repr

variable {bs : List Bracket} {p q : Position}

namespace Bracket

/-- The position of an opening bracket. -/
def opening? : Bracket → Option Position
  | opening p => some p
  | closing _ => none

/-- The position of a closing bracket. -/
def closing? : Bracket → Option Position
  | opening _ => none
  | closing q => some q

/-- The positions of the opening brackets. -/
def openings (bs : List Bracket) : List Position := bs.filterMap opening?

/-- The positions of the closing brackets. -/
def closings (bs : List Bracket) : List Position := bs.filterMap closing?

/-- Each bracket has its partner. -/
inductive Balanced : List Bracket → Prop
  | nil : Balanced []
  | wrap {inner rest : List Bracket} (p q : Position) (hinner : Balanced inner)
      (hrest : Balanced rest) : Balanced (opening p :: (inner ++ closing q :: rest))

theorem Balanced.append {xs ys : List Bracket} (hx : Balanced xs) (hy : Balanced ys) :
    Balanced (xs ++ ys) := by
  induction hx with
  | nil => exact hy
  | wrap p q hinner hrest _ ih =>
    rw [cons_append, append_assoc, cons_append]
    exact .wrap p q hinner ih

/-- The brackets at `p` and `q` belong together. -/
def Pairs (bs : List Bracket) (p q : Position) : Prop :=
  ∃ before inner after, bs = before ++ opening p :: (inner ++ closing q :: after) ∧ Balanced inner

/-- The bracket that opens at `p` belongs to no other. -/
def Unclosed (bs : List Bracket) (p : Position) : Prop := opening p ∈ bs ∧ ∀ q, ¬Pairs bs p q

/-- The bracket that closes at `q` belongs to no other. -/
def Unopened (bs : List Bracket) (q : Position) : Prop := closing q ∈ bs ∧ ∀ p, ¬Pairs bs p q

theorem Pairs.append (h : Pairs bs p q) (cs : List Bracket) : Pairs (bs ++ cs) p q := by
  obtain ⟨before, inner, after, rfl, hinner⟩ := h
  exact ⟨before, inner, after ++ cs, by simp, hinner⟩

@[simp]
theorem openings_append (xs ys : List Bracket) : openings (xs ++ ys) = openings xs ++ openings ys :=
  filterMap_append

@[simp]
theorem openings_opening (p : Position) (bs : List Bracket) :
    openings (opening p :: bs) = p :: openings bs := rfl

@[simp]
theorem openings_closing (q : Position) (bs : List Bracket) :
    openings (closing q :: bs) = openings bs := rfl

@[simp] theorem openings_nil : openings [] = [] := rfl

theorem mem_openings : p ∈ openings bs ↔ opening p ∈ bs := by
  rw [openings, mem_filterMap]
  constructor
  · rintro ⟨b, hb, hp⟩
    cases b with
    | opening p' => exact Option.some.inj hp ▸ hb
    | closing q => cases hp
  · exact fun h => ⟨_, h, rfl⟩

theorem mem_closings : q ∈ closings bs ↔ closing q ∈ bs := by
  rw [closings, mem_filterMap]
  constructor
  · rintro ⟨b, hb, hq⟩
    cases b with
    | opening p => cases hq
    | closing q' => exact Option.some.inj hq ▸ hb
  · exact fun h => ⟨_, h, rfl⟩

end Bracket

/-- What is known of some brackets after going through them. -/
structure Matching where
  /-- The brackets that are still open, the innermost first. -/
  pending : List Position := []
  /-- The brackets that belong together. -/
  pairs : List (Position × Position) := []
  /-- The brackets that close nothing. -/
  stray : List Position := []

namespace Matching

open Macro10.Bracket

variable {m : Matching}

/-- One bracket more. -/
def step (m : Matching) : Bracket → Matching
  | opening p => { m with pending := p :: m.pending }
  | closing q =>
    match m.pending with
    | [] => { m with stray := m.stray ++ [q] }
    | p :: rest => { m with pending := rest, pairs := m.pairs ++ [(p, q)] }

/-- Some brackets more. -/
def run (m : Matching) (bs : List Bracket) : Matching := bs.foldl step m

/-- What is known of some brackets. -/
def of (bs : List Bracket) : Matching := run {} bs

@[simp] theorem run_nil (m : Matching) : m.run [] = m := rfl

@[simp]
theorem run_cons (m : Matching) (b : Bracket) (bs : List Bracket) :
    m.run (b :: bs) = (m.step b).run bs := rfl

@[simp]
theorem run_append (m : Matching) (xs ys : List Bracket) : m.run (xs ++ ys) = (m.run xs).run ys :=
  foldl_append

theorem of_append (xs ys : List Bracket) : of (xs ++ ys) = (of xs).run ys := run_append ..

theorem step_opening (m : Matching) (p : Position) :
    m.step (opening p) = { m with pending := p :: m.pending } := rfl

theorem step_stray (h : m.pending = []) (q : Position) :
    m.step (closing q) = { m with stray := m.stray ++ [q] } := by
  rw [step, h]

theorem step_pair {rest : List Position} (h : m.pending = p :: rest) (q : Position) :
    m.step (closing q) = { m with pending := rest, pairs := m.pairs ++ [(p, q)] } := by
  rw [step, h]

theorem pairs_subset_step (m : Matching) (b : Bracket) : m.pairs ⊆ (m.step b).pairs := by
  cases b with
  | opening p => exact List.Subset.refl _
  | closing q =>
    cases h : m.pending with
    | nil => rw [step_stray h]; exact List.Subset.refl _
    | cons p rest => rw [step_pair h]; exact subset_append_left _ _

theorem pairs_subset_run (m : Matching) (bs : List Bracket) : m.pairs ⊆ (m.run bs).pairs := by
  induction bs generalizing m with
  | nil => exact List.Subset.refl _
  | cons b bs ih => exact List.Subset.trans (pairs_subset_step m b) (ih _)

/-- Balanced brackets leave the others as they are. -/
theorem run_of_balanced (h : Balanced bs) (m : Matching) :
    (m.run bs).pending = m.pending ∧ (m.run bs).stray = m.stray := by
  induction h generalizing m with
  | nil => exact ⟨rfl, rfl⟩
  | wrap p q hinner hrest ihinner ih =>
    obtain ⟨hpending, hstray⟩ := ihinner (m.step (opening p))
    rw [run_cons, run_append, run_cons, step_pair hpending]
    obtain ⟨hpending', hstray'⟩ := ih
      { (m.step (opening p)).run _ with pending := m.pending, pairs := _ ++ [(p, q)] }
    exact ⟨hpending', hstray'.trans hstray⟩

/-! ## The stack finds the pairs -/

/-- The brackets on the stack are open: what follows each of them is balanced up to the next. -/
inductive Stacked : List Bracket → List Position → Prop
  | nil (bs : List Bracket) : Stacked bs []
  | cons {before inner : List Bracket} {rest : List Position} (p : Position)
      (h : Stacked before rest) (hinner : Balanced inner) :
      Stacked (before ++ opening p :: inner) (p :: rest)

theorem Stacked.append {xs ys : List Bracket} {pending : List Position} (h : Stacked xs pending)
    (hy : Balanced ys) : Stacked (xs ++ ys) pending := by
  cases h with
  | nil => exact .nil _
  | cons p h hinner =>
    rw [append_assoc, cons_append]
    exact .cons p h (hinner.append hy)

theorem stacked_of (bs : List Bracket) : Stacked bs (of bs).pending := by
  induction bs using List.reverseRecOn with
  | nil => exact .nil _
  | append_singleton bs b ih =>
    rw [of_append, run_cons, run_nil]
    cases b with
    | opening p => exact .cons p ih .nil
    | closing q =>
      cases hpending : (of bs).pending with
      | nil =>
        rw [step_stray hpending]
        show Stacked _ (of bs).pending
        rw [hpending]
        exact .nil _
      | cons p rest =>
        rw [step_pair hpending]
        rw [hpending] at ih
        cases ih with
        | cons p h hinner =>
          rw [append_assoc, cons_append]
          exact h.append (.wrap p q hinner .nil)

theorem pairs_of_mem (h : (p, q) ∈ (of bs).pairs) : Pairs bs p q := by
  induction bs using List.reverseRecOn with
  | nil => cases h
  | append_singleton bs b ih =>
    rw [of_append, run_cons, run_nil] at h
    cases b with
    | opening p' => exact (ih h).append _
    | closing q' =>
      cases hpending : (of bs).pending with
      | nil =>
        rw [step_stray hpending] at h
        exact (ih h).append _
      | cons p' rest =>
        rw [step_pair hpending] at h
        rcases mem_append.mp h with h | h
        · exact (ih h).append _
        · obtain ⟨rfl, rfl⟩ := Prod.mk.inj (mem_singleton.mp h)
          have hstacked := stacked_of bs
          rw [hpending] at hstacked
          cases hstacked with
          | @cons before inner rest p h hinner => exact ⟨before, inner, [], by simp, hinner⟩

/-- **The stack finds the brackets that belong together.** -/
theorem mem_pairs_iff : (p, q) ∈ (of bs).pairs ↔ Pairs bs p q := by
  refine ⟨pairs_of_mem, ?_⟩
  rintro ⟨before, inner, after, rfl, hinner⟩
  obtain ⟨hpending, -⟩ := run_of_balanced hinner ((of before).step (opening p))
  rw [of_append, run_cons, run_append, run_cons, step_pair hpending]
  exact pairs_subset_run _ after (mem_append_right _ (mem_singleton_self _))

/-! ## What is left over -/

theorem perm_openings (bs : List Bracket) :
    (openings bs).Perm ((of bs).pending ++ (of bs).pairs.map Prod.fst) := by
  induction bs using List.reverseRecOn with
  | nil => exact .nil
  | append_singleton bs b ih =>
    rw [openings, filterMap_append, ← openings, of_append, run_cons, run_nil]
    cases b with
    | opening p => exact (perm_append_singleton _ _).trans (ih.cons p)
    | closing q =>
      rw [show [closing q].filterMap opening? = [] from rfl, append_nil]
      cases hpending : (of bs).pending with
      | nil =>
        rw [step_stray hpending]
        exact hpending ▸ ih
      | cons p rest =>
        rw [step_pair hpending]
        rw [hpending] at ih
        refine ih.trans ?_
        rw [map_append, ← append_assoc]
        exact (perm_append_singleton p _).symm

theorem perm_closings (bs : List Bracket) :
    (closings bs).Perm ((of bs).stray ++ (of bs).pairs.map Prod.snd) := by
  induction bs using List.reverseRecOn with
  | nil => exact .nil
  | append_singleton bs b ih =>
    rw [closings, filterMap_append, ← closings, of_append, run_cons, run_nil]
    cases b with
    | opening p =>
      rw [show [opening p].filterMap closing? = [] from rfl, append_nil]
      exact ih
    | closing q =>
      have hnew := (perm_append_singleton q _).trans (ih.cons q)
      cases hpending : (of bs).pending with
      | nil =>
        rw [step_stray hpending, append_assoc]
        exact hnew.trans perm_middle.symm
      | cons p rest =>
        rw [step_pair hpending, map_append, ← append_assoc]
        exact hnew.trans (perm_append_singleton q _).symm

/-- **What stays on the stack is not closed.** -/
theorem mem_pending_iff (h : (openings bs).Nodup) : p ∈ (of bs).pending ↔ Unclosed bs p := by
  have hperm := perm_openings bs
  obtain ⟨-, -, hdisjoint⟩ := nodup_append.mp (hperm.nodup_iff.mp h)
  constructor
  · intro hp
    refine ⟨mem_openings.mp (hperm.mem_iff.mpr (mem_append_left _ hp)), fun q hpair => ?_⟩
    exact hdisjoint p hp p (mem_map.mpr ⟨(p, q), mem_pairs_iff.mpr hpair, rfl⟩) rfl
  · rintro ⟨hp, hnone⟩
    rcases mem_append.mp (hperm.mem_iff.mp (mem_openings.mpr hp)) with hp | hp
    · exact hp
    · obtain ⟨⟨p, q⟩, hpair, rfl⟩ := mem_map.mp hp
      exact absurd (mem_pairs_iff.mp hpair) (hnone q)

/-- **What closes nothing was not opened.** -/
theorem mem_stray_iff (h : (closings bs).Nodup) : q ∈ (of bs).stray ↔ Unopened bs q := by
  have hperm := perm_closings bs
  obtain ⟨-, -, hdisjoint⟩ := nodup_append.mp (hperm.nodup_iff.mp h)
  constructor
  · intro hq
    refine ⟨mem_closings.mp (hperm.mem_iff.mpr (mem_append_left _ hq)), fun p hpair => ?_⟩
    exact hdisjoint q hq q (mem_map.mpr ⟨(p, q), mem_pairs_iff.mpr hpair, rfl⟩) rfl
  · rintro ⟨hq, hnone⟩
    rcases mem_append.mp (hperm.mem_iff.mp (mem_closings.mpr hq)) with hq | hq
    · exact hq
    · obtain ⟨⟨p, q⟩, hpair, rfl⟩ := mem_map.mp hq
      exact absurd (mem_pairs_iff.mp hpair) (hnone p)

end Matching

end Macro10
