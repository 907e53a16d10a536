import Macro10.Proofs.Row.Fenced
import Mathlib.Data.List.Induction

/-!
# The normal form of a single piece

How a piece looks in normal form depends on its two neighbours (`settledBetween`), the arguments of
a directive on the pieces after it, and the owner of a piece on those before it
(`exists_normal_piece`). A piece counts back to a directive if and only if the arguments of the
directive reach as far as the piece (`owner_owned_iff`).
-/

namespace Macro10.Row

open List

variable {p : Piece} {us us' : List Piece} {g : Gathering}

/-! ## Looks -/

namespace Alike

variable {p q : Piece}

theorem trans {r : Piece} (h : Alike p q) (h' : Alike q r) : Alike p r :=
  ⟨h'.kind.trans h.kind, h'.text.trans h.text, h'.opening.trans h.opening,
    h'.closing.trans h.closing⟩

theorem setText (h : Alike p q) (text : Text) : Alike (p.setText text) (q.setText text) :=
  ⟨h.kind, rfl, h.opening, h.closing⟩

theorem parenthesized (h : Alike p q) : Alike (parenthesized p) (parenthesized q) := by
  unfold Row.parenthesized
  rw [h.kind]
  split
  · exact ⟨rfl, h.text, by rw [h.opening], by rw [h.closing]⟩
  · exact h

end Alike

theorem alike_mark (g : Option Gathering) (ps : List Piece) :
    List.Forall₂ Alike ps (mark g ps) := by
  induction ps generalizing g with
  | nil => exact .nil
  | cons p rest ih => exact .cons ((alike_owned g p).trans (alike_headed _ rest)) (ih _)

/-- What becomes of the look of a piece between its neighbours: an exclamation mark is "or", or "not
equal" together with an equals sign, and brackets are parentheses. -/
def settledBetween (before after : Option Piece) (p : Piece) : Piece :=
  if p.isOperator "!" then
    p.setText (if after.any (·.isOperator "=") then "!=" else "|")
  else if p.isOperator "=" && before.any (·.isOperator "!") then
    p.blanked
  else parenthesized p

/-- The first piece, if an exclamation mark may stand before it. -/
theorem head?_settle_leftover (u p : Piece) (vs : List Piece) :
    ((settle (leftover u (p :: vs))).head?).map parenthesized =
      some (settledBetween (some u) vs.head? p) := by
  rw [leftover]
  split
  · next hjoined =>
    simp only [joined, head?_cons, Option.any_some, Bool.and_eq_true] at hjoined
    have hmark : p.isOperator "!" = false :=
      Piece.isOperator_of_ne hjoined.2 (by decide)
    rw [modifyHead_cons, settle_blanked_cons, head?_cons, Option.map_some,
      settledBetween, hmark, if_neg (by decide), if_pos (by simp [hjoined.1, hjoined.2])]
    rfl
  · next hjoined =>
    simp only [joined, head?_cons, Option.any_some] at hjoined
    rw [settle_cons, head?_cons, Option.map_some, settled, settledBetween]
    split
    · next hmark =>
      rw [joined, hmark, Bool.true_and, parenthesized,
        if_neg (by rw [Piece.kind_setText, Piece.kind_of_isOperator hmark]; decide)]
    · rw [if_neg (by rw [Option.any_some, Bool.and_comm]; exact hjoined)]

theorem getElem?_settle (us : List Piece) (p : Piece) (vs : List Piece) :
    ((settle (us ++ p :: vs))[us.length]?).map parenthesized =
      some (settledBetween us.getLast? vs.head? p) := by
  induction hn : us.length generalizing us with
  | zero =>
    obtain rfl := eq_nil_of_length_eq_zero hn
    -- A blank before the piece changes nothing about it.
    have hfirst := head?_settle_leftover p.blanked p vs
    rw [leftover, joined, isOperator_blanked, Bool.false_and, if_neg (by decide)] at hfirst
    rw [nil_append, ← head?_eq_getElem?, hfirst]
    simp [settledBetween, isOperator_blanked]
  | succ n ih =>
    obtain ⟨u, us, rfl⟩ := exists_cons_of_length_eq_add_one hn
    rw [cons_append, settle_cons, getElem?_cons_succ]
    cases us with
    | nil =>
      obtain rfl : n = 0 := (Nat.succ.inj hn).symm
      rw [nil_append, ← head?_eq_getElem?]
      exact head?_settle_leftover u p vs
    | cons q us =>
      rw [getLast?_cons_cons]
      rw [leftover, cons_append]
      split
      · next hjoined =>
        -- The equals sign that is taken is no exclamation mark, before or after.
        simp only [joined, head?_cons, Option.any_some, Bool.and_eq_true] at hjoined
        rw [modifyHead_cons, ← cons_append, ih (q.blanked :: us) (Nat.succ.inj hn)]
        cases us with
        | nil =>
          have hmark : q.isOperator "!" = false :=
            Piece.isOperator_of_ne hjoined.2 (by decide)
          simp [settledBetween, isOperator_blanked, hmark]
        | cons r us => rw [getLast?_cons_cons, getLast?_cons_cons]
      · rw [← cons_append, ih (q :: us) (Nat.succ.inj hn)]

/-! ## Marks -/

theorem exists_mark_eq (g : Option Gathering) (us : List Piece) (p : Piece) (vs : List Piece) :
    ∃ us' vs', mark g (us ++ p :: vs) =
        us' ++ headed (owned (us.foldl gathering g) p) vs :: vs' ∧
      List.Forall₂ Alike us us' ∧ List.Forall₂ Alike vs vs' := by
  induction us generalizing g with
  | nil => exact ⟨[], _, rfl, .nil, alike_mark _ vs⟩
  | cons u us ih =>
    obtain ⟨us', vs', heq, hus, hvs⟩ := ih (gathering g u)
    refine ⟨headed (owned g u) (us ++ p :: vs) :: us', vs', ?_, .cons ?_ hus, hvs⟩
    · rw [cons_append, mark, heq]
      rfl
    · exact (alike_owned g u).trans (alike_headed _ _)

theorem settledBetween_congr {before before' after after' : Option Piece} {q : Piece}
    (hbefore : before'.any (·.isOperator "!") = before.any (·.isOperator "!"))
    (hafter : after'.any (·.isOperator "=") = after.any (·.isOperator "=")) (h : Alike p q) :
    Alike (settledBetween before after p) (settledBetween before' after' q) := by
  unfold settledBetween
  rw [hbefore, hafter, h.isOperator_eq, h.isOperator_eq]
  split
  · exact h.setText _
  · split
    · exact ⟨rfl, rfl, rfl, rfl⟩
    · exact h.parenthesized

theorem marks_settledBetween (before after : Option Piece) (p : Piece) :
    (settledBetween before after p).owner = p.owner ∧
      (settledBetween before after p).parts = p.parts ∧
        (settledBetween before after p).body = p.body := by
  unfold settledBetween parenthesized
  split
  · exact ⟨rfl, rfl, rfl⟩
  · split
    · exact ⟨rfl, rfl, rfl⟩
    · split <;> exact ⟨rfl, rfl, rfl⟩

theorem marks_headed_owned (g : Option Gathering) (p : Piece) (rest : List Piece) :
    (headed (owned g p) rest).parts = (headed p rest).parts ∧
      (headed (owned g p) rest).body = (headed p rest).body := by
  unfold headed
  rw [(alike_owned g p).head?_eq]
  split
  · exact marks_owned g p
  · exact ⟨rfl, rfl⟩

theorem head?_alike (h : List.Forall₂ Alike us us') (text : Text) :
    us'.head?.any (·.isOperator text) = us.head?.any (·.isOperator text) := by
  cases h with
  | nil => rfl
  | cons hu _ => exact hu.isOperator_eq text

theorem getLast?_alike (h : List.Forall₂ Alike us us') (text : Text) :
    us'.getLast?.any (·.isOperator text) = us.getLast?.any (·.isOperator text) := by
  rw [getLast?_eq_head?_reverse, getLast?_eq_head?_reverse]
  exact head?_alike (rel_reverse h) text

/-- **A piece of a normal form,** from the pieces around it. -/
theorem exists_normal_piece (us : List Piece) (p : Piece) (vs : List Piece) :
    ∃ q, (normalAfter none (us ++ p :: vs))[us.length]? = some q ∧
      Alike (settledBetween us.getLast? vs.head? p) q ∧
      q.owner = (owned (us.foldl gathering none) p).owner ∧
      q.parts = (headed p vs).parts ∧ q.body = (headed p vs).body := by
  obtain ⟨us', vs', hmark, hus, hvs⟩ := exists_mark_eq none us p vs
  have hlooks := (alike_owned (us.foldl gathering none) p).trans (alike_headed _ vs)
  generalize hm : headed (owned (us.foldl gathering none) p) vs = m at hmark hlooks
  obtain ⟨howner, hparts, hbody⟩ := marks_settledBetween us'.getLast? vs'.head? m
  refine ⟨settledBetween us'.getLast? vs'.head? m, ?_, ?_, ?_, ?_, ?_⟩
  · rw [normalAfter, hmark, getElem?_map, hus.length_eq]
    exact getElem?_settle us' m vs'
  · exact settledBetween_congr (getLast?_alike hus _) (head?_alike hvs _) hlooks
  · rw [howner, ← hm, owner_headed]
  · rw [hparts, ← hm, (marks_headed_owned _ p vs).1]
  · rw [hbody, ← hm, (marks_headed_owned _ p vs).2]

/-! ## Owners -/

theorem extent_cons_pos (h : p.isNewline = false) (ready : Bool) (rest : List Piece) :
    0 < (extent ready (p :: rest)).1 := by
  rw [extent, if_neg (by simp [h])]
  split
  · exact Nat.one_pos
  · split
    · exact Nat.succ_pos _
    · split
      · exact Nat.one_pos
      · exact Nat.succ_pos _

/-- The arguments of a directive that still collects after `u` are `u` and those after it. -/
theorem extent_cons_of_next {g' : Gathering} {u : Piece} (hhead : u.head? = none)
    (h : g.next u = some g') (rest : List Piece) :
    (extent g.ready (u :: rest)).1 = (extent g'.ready rest).1 + 1 := by
  unfold Gathering.next at h
  rw [extent, hhead]
  split at h
  · cases h
  next hline =>
  rw [if_neg hline, if_neg (by decide)]
  split at h
  · next hcomma =>
    cases h
    rw [if_pos hcomma]
  next hcomma =>
  rw [if_neg hcomma]
  split at h
  · cases h
  · next hgroup =>
    cases h
    rw [if_neg hgroup]

/-- The directive that collects after the pieces `us` is one of them, and all after it are its
arguments. -/
theorem exists_directive_of_gathering (h : us.foldl gathering none = some g) :
    ∃ as q bs head, us = as ++ q :: bs ∧ q.head? = some head ∧ bs.length = g.distance ∧
      ∀ rest, (extent (!head.bodyAfterComma) (bs ++ rest)).1 =
        bs.length + (extent g.ready rest).1 := by
  induction us using List.reverseRecOn generalizing g with
  | nil => cases h
  | append_singleton us u ih =>
    rw [foldl_append, foldl_cons, foldl_nil, gathering] at h
    split at h
    · next hhead =>
      obtain ⟨g₀, hg₀, hnext⟩ := Option.bind_eq_some_iff.mp h
      obtain ⟨as, q, bs, head, rfl, hq, hlength, hextent⟩ := ih hg₀
      refine ⟨as, q, bs ++ [u], head, by simp, hq, ?_, fun rest => ?_⟩
      · rw [distance_next hnext, ← hlength, length_append, length_singleton]
      · rw [append_assoc, singleton_append, hextent, extent_cons_of_next hhead hnext,
          length_append, length_singleton, Nat.add_assoc, Nat.add_comm 1]
    · next head hhead =>
      cases h
      exact ⟨us, u, [], head, rfl, hhead, rfl, fun rest => by simp⟩

/-- A directive collects as far as its arguments reach. -/
theorem foldl_gathering_of_lt_extent {bs : List Piece}
    {vs : List Piece} (h : bs.length < (extent g.ready (bs ++ p :: vs)).1) :
    p.isNewline = false ∧
      ∃ ready, bs.foldl gathering (some g) = some ⟨g.distance + bs.length, ready⟩ := by
  induction bs generalizing g with
  | nil =>
    refine ⟨?_, g.ready, rfl⟩
    rw [nil_append, extent] at h
    split at h
    · cases h
    · next hline => rwa [Bool.not_eq_true] at hline
  | cons b bs ih =>
    rw [length_cons, cons_append] at h
    obtain ⟨-, hhead, ready, hextent, hnext⟩ := extent_cons_of_lt (by omega :
      1 < (extent g.ready (b :: (bs ++ p :: vs))).1)
    rw [hextent] at h
    obtain ⟨hline, ready', hfold⟩ := ih (g := ⟨g.distance + 1, ready⟩) (Nat.lt_of_succ_lt_succ h)
    refine ⟨hline, ready', ?_⟩
    rw [foldl_cons, gathering, hhead, Option.bind_some, hnext g rfl, hfold, length_cons,
      Nat.add_assoc, Nat.add_comm 1]

/-- **A piece counts back to a directive if and only if it is one of its arguments.** -/
theorem owner_owned_iff (hp : p.owner = none) (vs : List Piece) {k : Nat} :
    (owned (us.foldl gathering none) p).owner = some k ↔
      ∃ as q bs head, us = as ++ q :: bs ∧ bs.length = k ∧ q.head? = some head ∧
        k < (extent (!head.bodyAfterComma) (bs ++ p :: vs)).1 := by
  constructor
  · intro h
    cases hg : us.foldl gathering none with
    | none =>
      rw [hg, owned, hp] at h
      cases h
    | some g =>
      rw [hg, owned] at h
      split at h
      · rw [hp] at h
        cases h
      · next hline =>
        cases h
        obtain ⟨as, q, bs, head, rfl, hq, hlength, hextent⟩ := exists_directive_of_gathering hg
        refine ⟨as, q, bs, head, rfl, hlength, hq, ?_⟩
        have hpos := extent_cons_pos (Bool.eq_false_iff.mpr hline) g.ready vs
        rw [hextent, hlength]
        omega
  · rintro ⟨as, q, bs, head, rfl, rfl, hq, hlt⟩
    have hstart : (as ++ [q]).foldl gathering none = some ⟨0, !head.bodyAfterComma⟩ := by
      rw [foldl_append, foldl_cons, foldl_nil, gathering, hq]
    obtain ⟨hline, ready, hfold⟩ :=
      foldl_gathering_of_lt_extent (g := ⟨0, !head.bodyAfterComma⟩) hlt
    have hall : (as ++ q :: bs).foldl gathering none = some ⟨bs.length, ready⟩ := by
      rw [← singleton_append, ← append_assoc, foldl_append, hstart, hfold, Nat.zero_add]
    rw [hall, owned, if_neg (by simp [hline])]

end Macro10.Row
