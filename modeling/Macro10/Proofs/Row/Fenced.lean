import Macro10.Proofs.Row.Acts
import Macro10.Proofs.Row.NormalLines

/-!
# Directives and their bodies in a row

In the normal form the arguments of a directive end with the next directive, and its body is a group
that counts back to it. The walk keeps this ahead of it (`AgedRow.fenced`).
-/

namespace Macro10.Row

open List

variable {x y : Item} {xs ys zs : List Item} {ready : Bool} {p : Piece} {ps : List Piece} {j : Nat}
  {g : Option Gathering}

/-- No argument of a directive is a directive, except perhaps the last, and a body is a group whose
owner is the directive. -/
def Fenced : List Item → Prop
  | [] => True
  | x :: rest =>
    (∀ {n j : Nat} {y : Item}, x.value.parts = some n → j + 1 < n → rest[j]? = some y →
      y.value.head? = none) ∧
    (x.value.body = true → ∃ m c, x.value.parts = some (m + 1) ∧ rest[m]? = some c ∧
      c.value.kind = .container ∧ c.value.owner = some m) ∧
    Fenced rest

namespace Fenced

variable {x : Item} {xs ys : List Item}

theorem fence (h : Fenced (x :: xs)) {n j : Nat} {y : Item} (hparts : x.value.parts = some n)
    (hj : j + 1 < n) (hy : xs[j]? = some y) : y.value.head? = none := h.1 hparts hj hy

theorem exists_body (h : Fenced (x :: xs)) (hbody : x.value.body = true) :
    ∃ m c, x.value.parts = some (m + 1) ∧ xs[m]? = some c ∧ c.value.kind = .container ∧
      c.value.owner = some m := h.2.1 hbody

theorem tail (h : Fenced (x :: xs)) : Fenced xs := h.2.2

theorem drop (h : Fenced xs) (n : Nat) : Fenced (xs.drop n) := by
  induction n generalizing xs with
  | zero => exact h
  | succ n ih =>
    cases xs with
    | nil => exact h
    | cons x xs => exact ih h.tail

end Fenced

theorem Aged.head?_eq_none (h : Aged x y) (hx : x.value.head? = none) : y.value.head? = none := by
  cases hy : y.value.head? with
  | none => rfl
  | some head =>
    rw [h.head?_eq hy] at hx
    cases hx

theorem Aged.kind_container (h : Aged x y) (hx : x.value.kind = .container) :
    y.value.kind = .container := by
  rcases h.kind with hkind | ⟨hne, -⟩
  · exact hkind.trans hx
  · exact absurd hx hne

theorem marks_eq_iff : marks y = marks x ↔
    y.value.owner = x.value.owner ∧ y.value.parts = x.value.parts ∧
    y.value.body = x.value.body := by
  simp [marks]

theorem Fenced.congr {S : Item → Item → Prop} (h : Fenced xs) (hS : List.Forall₂ S xs ys)
    (hmarks : ∀ {x y}, S x y → marks y = marks x)
    (hhead : ∀ {x y}, S x y → x.value.head? = none → y.value.head? = none)
    (hkind : ∀ {x y}, S x y → x.value.kind = .container → y.value.kind = .container) :
    Fenced ys := by
  induction hS with
  | nil => trivial
  | @cons x y xs ys hx hrest ih =>
    obtain ⟨-, hparts, hbody⟩ := marks_eq_iff.mp (hmarks hx)
    refine ⟨?_, ?_, ih h.tail⟩
    · intro n j z hn hj hz
      obtain ⟨w, hw, hwz⟩ := exists_getElem?_of_forall₂ (List.Forall₂.flip hrest) hz
      exact hhead hwz (h.fence (hparts.symm.trans hn) hj hw)
    · intro hy
      obtain ⟨m, c, hm, hc, hgroup, howner⟩ := h.exists_body (hbody.symm.trans hy)
      obtain ⟨c', hc', hcc⟩ := exists_getElem?_of_forall₂ hrest hc
      exact ⟨m, c', hparts.trans hm, hc', hkind hcc hgroup,
        (marks_eq_iff.mp (hmarks hcc)).1.trans howner⟩

/-- **The walk keeps directives and bodies in order.** -/
theorem AgedRow.fenced (h : AgedRow xs ys) (hxs : Fenced xs) : Fenced ys :=
  hxs.congr h Aged.marks_eq Aged.head?_eq_none Aged.kind_container

/-! ## The normal form -/

theorem head?_settled (p : Piece) (rest : List Piece) :
    (parenthesized (settled p rest)).head? = p.head? := by
  by_cases hkind : p.kind = .identifier
  · rw [settled_of_identifier hkind]
  · rw [Piece.head?, Piece.head?, kind_settled, if_neg hkind, if_neg hkind]

theorem head?_headed_owned (g : Option Gathering) (p : Piece) (rest : List Piece) :
    (headed (owned g p) rest).head? = p.head? :=
  (alike_headed _ rest).head?_eq.trans (alike_owned g p).head?_eq

/-- How an argument that is not the last goes on. -/
theorem extent_cons_of_lt {rest : List Piece} (h : 1 < (extent ready (p :: rest)).1) :
    p.isNewline = false ∧ p.head? = none ∧ ∃ ready', extent ready (p :: rest) =
      ((extent ready' rest).1 + 1, (extent ready' rest).2) ∧
        ∀ g : Gathering, g.ready = ready → g.next p = some ⟨g.distance + 1, ready'⟩ := by
  rw [extent] at h ⊢
  split at h
  · cases h
  next hline =>
  rw [Bool.not_eq_true] at hline
  rw [if_neg (by simp [hline])]
  split at h
  · exact absurd h (Nat.lt_irrefl 1)
  next hhead =>
  rw [Option.not_isSome_iff_eq_none] at hhead
  rw [if_neg (by simp [hhead])]
  refine ⟨hline, hhead, ?_⟩
  split at h
  · next hcomma =>
    refine ⟨true, if_pos hcomma, fun g _ => ?_⟩
    rw [Gathering.next, hline, hcomma]
    rfl
  next hcomma =>
  rw [Bool.not_eq_true] at hcomma
  split at h
  · exact absurd h (Nat.lt_irrefl 1)
  next hgroup =>
  refine ⟨ready, by rw [if_neg (by simp [hcomma]), if_neg hgroup], fun g hg => ?_⟩
  rw [Gathering.next, hline, hcomma, hg, if_neg (by decide), if_neg (by decide), if_neg hgroup]

theorem extent_fence
    (hj : j + 1 < (extent ready ps).1) (hp : ps[j]? = some p) : p.head? = none := by
  induction ps generalizing ready j with
  | nil => cases hp
  | cons q rest ih =>
    have hmore : 1 < (extent ready (q :: rest)).1 := by omega
    obtain ⟨-, hhead, ready', hextent, -⟩ := extent_cons_of_lt hmore
    cases j with
    | zero =>
      cases hp
      exact hhead
    | succ j =>
      rw [hextent] at hj
      exact ih (Nat.lt_of_succ_lt_succ hj) hp

theorem extent_body (h : (extent ready ps).2 = true) :
    ∃ m p, (extent ready ps).1 = m + 1 ∧ ps[m]? = some p ∧ p.kind = .container := by
  induction ps generalizing ready with
  | nil => cases h
  | cons p rest ih =>
    -- The group that is the body ends the arguments; any other piece is one before it.
    have hmore {ready' : Bool} (hbody : (extent ready' rest).2 = true) :
        ∃ m q, (extent ready' rest).1 + 1 = m + 1 ∧ (p :: rest)[m]? = some q ∧
          q.kind = .container := by
      obtain ⟨m, q, hm, hq, hkind⟩ := ih hbody
      exact ⟨m + 1, q, by rw [hm], hq, hkind⟩
    rw [extent] at h ⊢
    split at h
    · cases h
    next hline =>
    rw [if_neg hline]
    split at h
    · cases h
    next hhead =>
    rw [if_neg hhead]
    split at h
    · next hcomma =>
      rw [if_pos hcomma]
      exact hmore h
    next hcomma =>
    rw [if_neg hcomma]
    split at h
    · next hgroup =>
      rw [if_pos hgroup]
      rw [Bool.and_eq_true, decide_eq_true_eq] at hgroup
      exact ⟨0, p, rfl, rfl, hgroup.1⟩
    · next hgroup =>
      rw [if_neg hgroup]
      exact hmore h

theorem owner_of_extent (ps : List Piece) {g : Gathering} (hj : j < (extent g.ready ps).1) :
    ∃ q, (normalAfter (some g) ps)[j]? = some q ∧ q.owner = some (g.distance + j) := by
  induction ps using leftover_induction generalizing g j with
  | nil => cases hj
  | cons p rest ih =>
    rw [normalAfter_cons]
    cases j with
    | zero =>
      refine ⟨_, rfl, ?_⟩
      have hline : p.isNewline = false := by
        cases hline : p.isNewline with
        | false => rfl
        | true => simp [extent, hline] at hj
      rw [(marks_settled _ rest).1, owner_headed, owned, if_neg (by simp [hline])]
      rfl
    | succ j =>
      have hmore : 1 < (extent g.ready (p :: rest)).1 := by omega
      obtain ⟨-, hhead, ready', hextent, hnext⟩ := extent_cons_of_lt hmore
      have hgathering : gathering (some g) p = some ⟨g.distance + 1, ready'⟩ := by
        rw [gathering, hhead, Option.bind_some, hnext g rfl]
      rw [hextent] at hj
      rw [hgathering, getElem?_cons_succ]
      obtain ⟨q, hq, howner⟩ := ih (g := ⟨g.distance + 1, ready'⟩) (j := j)
        (by rw [extent_leftover]; exact Nat.lt_of_succ_lt_succ hj)
      refine ⟨q, hq, ?_⟩
      rw [howner]
      show some (g.distance + 1 + j) = some (g.distance + (j + 1))
      rw [Nat.add_assoc, Nat.add_comm 1 j]

theorem NormalRow.fenced (h : NormalRow g ps zs) : Fenced zs := by
  induction h with
  | nil => trivial
  | @cons g p rest z zs hp hzp hzs _ ih =>
    obtain ⟨-, hparts, hbody⟩ := marks_settled (headed (Row.owned g p) rest) rest
    rw [← hzp] at hparts hbody
    have howned : (Row.owned g p).head? = p.head? := (alike_owned g p).head?_eq
    have hheads := map_eq_of_leftover Settles.head?_eq hzs
    have hgroups := map_eq_of_leftover Settles.isContainer_eq hzs
    cases hhead : p.head? with
    | none =>
      have hnone : z.value.parts = none ∧ z.value.body = false := by
        rw [hparts, hbody, headed_of_head? (howned.trans hhead), ← hp.parts, ← hp.body]
        exact marks_owned g p
      refine ⟨?_, ?_, ih⟩
      · intro n j y hn
        rw [hnone.1] at hn
        cases hn
      · intro hz
        rw [hnone.2] at hz
        cases hz
    | some head =>
      simp only [headed, howned, hhead] at hparts hbody
      refine ⟨?_, ?_, ih⟩
      · intro n j y hn hj hy
        rw [hparts] at hn
        cases hn
        have hmap : (rest.map Piece.head?)[j]? = some y.value.head? := by
          rw [← hheads, getElem?_map, hy]
          rfl
        rw [getElem?_map] at hmap
        obtain ⟨q, hq, heq⟩ := Option.map_eq_some_iff.mp hmap
        rw [← heq]
        exact extent_fence hj hq
      · intro hz
        rw [hbody] at hz
        obtain ⟨m, q, hm, hq, hkind⟩ := extent_body hz
        have hmap : (zs.map fun z => decide (z.value.kind = .container))[m]? = some true := by
          rw [hgroups, getElem?_map, hq]
          simp [hkind]
        rw [getElem?_map] at hmap
        obtain ⟨c, hc, hcontainer⟩ := Option.map_eq_some_iff.mp hmap
        refine ⟨m, c, by rw [hparts, hm], hc, of_decide_eq_true hcontainer, ?_⟩
        -- The directive collects from its own place on.
        have hgathering : gathering g p = some ⟨0, !head.bodyAfterComma⟩ := by
          rw [gathering, hhead]
        rw [hgathering] at hzs
        obtain ⟨w, hw, howner⟩ := owner_of_extent (leftover p rest)
          (g := ⟨0, !head.bodyAfterComma⟩) (j := m) (by rw [extent_leftover, hm]; omega)
        rw [← hzs, getElem?_map, hc] at hw
        cases hw
        rw [howner, Nat.zero_add]

/-- Only directives have a body. -/
theorem NormalRow.head?_of_body (h : NormalRow g ps zs) :
    ∀ z ∈ zs, z.value.body = true → ∃ head, z.value.head? = some head := by
  induction h with
  | nil => exact forall_mem_nil _
  | @cons g p rest z zs hp hzp _ _ ih =>
    refine forall_mem_cons.mpr ⟨fun hbody => ?_, ih⟩
    rw [hzp, head?_settled, head?_headed_owned]
    cases hhead : p.head? with
    | some head => exact ⟨head, rfl⟩
    | none =>
      have howned : (Row.owned g p).head? = none := (alike_owned g p).head?_eq.trans hhead
      rw [hzp, (marks_settled _ rest).2.2, headed_of_head? howned, (marks_owned g p).2, hp.body]
        at hbody
      cases hbody

/-- The row is as a normal form leaves it. -/
structure Marked (xs : List Item) : Prop where
  fenced : Fenced xs
  heads : ∀ x ∈ xs, x.value.body = true → ∃ head, x.value.head? = some head

/-- **The directives of a normal form and their bodies are in order,** in all rows. -/
theorem throughout_marked_normal (h : Nest.Throughout (fun ys => ∀ y ∈ ys, y.value.Unmarked) xs) :
    Nest.Throughout Marked (normal xs) :=
  throughout_normal_of (fun _ hrow => ⟨hrow.fenced, hrow.head?_of_body⟩) h

end Macro10.Row
