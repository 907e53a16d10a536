import Macro10.Proofs.Row.Acts

/-!
# Comments in a row

No rule takes a comment, and one that the walk comes to stays as it is. But a directive on the pass
blanks out its arguments, and a comment at the end of its line is one of them
(`remains_retargetRow`).
-/

namespace Macro10.Row

open List

variable {x y : Item} {i : Nat} {xs : List Item}

open Retarget (conditional quoteSingle)

/-- The item at `i` is an argument before the body of the directive `k` at `j`, which is about the
pass. -/
structure Strikes (xs : List Item) (j i : Nat) (k : Item) : Prop where
  word : xs[j]? = some k
  pass : ∃ head, k.value.head? = some head ∧ head.isPass = true
  lt : j < i
  le : i ≤ j + leading k.value

/-- What is struck after a step was struck before it. -/
theorem Strikes.of_leaves {k' : Item} {ahead ys : List Item} {n j : Nat}
    (h : Strikes ys j i k') (hleaves : Leaves x ahead n ys) :
    ∃ k, Strikes (x :: ahead) (n + j + 1) (n + i + 1) k ∧ Aged k k' := by
  obtain ⟨k, hk, -, haged⟩ := hleaves.get_back h.word
  obtain ⟨head, hhead, hpass⟩ := h.pass
  have hle := h.le
  have hlt := h.lt
  rw [leading_congr haged.marks_eq] at hle
  exact ⟨k, ⟨hk, ⟨head, haged.head?_eq hhead, hpass⟩, by omega, by omega⟩, haged⟩

/-- The item `y` at `i` is among the items `out`, or a directive that has acted strikes it. -/
def Remains (xs : List Item) (i : Nat) (y : Item) (out : List Item) : Prop :=
  y ∈ out ∨ ∃ j k k', Strikes xs j i k ∧ Aged k k' ∧ k'.value.kind = .identifier ∧
    Item.setText conditional k' ∈ out

theorem Remains.mono {out out' : List Item} (h : Remains xs i y out)
    (hsub : out ⊆ out') : Remains xs i y out' := by
  rcases h with hmem | ⟨j, k, k', hstrikes, haged, hkind, hmem⟩
  · exact .inl (hsub hmem)
  · exact .inr ⟨j, k, k', hstrikes, haged, hkind, hsub hmem⟩

/-- One step of the walk keeps a comment or strikes it. -/
theorem remains_of_leaves {ahead ys out : List Item} {n l : Nat}
    (hleaves : Leaves x ahead n ys) (hy : ahead[n + l]? = some y) (hkind : y.value.kind = .comment)
    (hself : ∀ {head : Head}, x.value.head? = some head → 0 < leading x.value →
      Item.setText head.opener x ∈ out)
    (hrest : ys[l]? = some y → Remains ys l y out) : Remains (x :: ahead) (n + l + 1) y out := by
  obtain ⟨y', hy', halters, -⟩ := hleaves.get hy
  rcases halters.eq_or_erased (.inr hkind) with rfl | ⟨hlt, -, head, hhead, hpass⟩
  · rcases hrest hy' with hmem | ⟨j, k', k'', hstrikes, haged, hword, hmem⟩
    · exact .inl hmem
    · obtain ⟨k, hstrikes, haged'⟩ := hstrikes.of_leaves hleaves
      exact .inr ⟨_, k, k'', hstrikes, haged'.trans haged, hword, hmem⟩
  · refine .inr ⟨0, x, x, ⟨rfl, ⟨head, hhead, hpass⟩, by omega, by omega⟩, .refl x,
      Piece.kind_of_head? hhead, ?_⟩
    have hmem := hself hhead (by omega)
    cases head with
    | ifFirstPass | ifSecondPass => exact hmem
    | ifZero | ifNotZero | define => cases hpass

/-- **A comment remains,** unless a directive on the pass has it among its arguments. -/
theorem remains_retargetRow (h : Tame xs) (opening : Text) (before : List Piece)
    {i : Nat} {y : Item} (hy : xs[i]? = some y) (hkind : y.value.kind = .comment) :
    Remains xs i y (retargetRow opening before xs) := by
  fun_induction retargetRow opening before xs generalizing i with
  | case1 => cases hy
  | case2 before x ahead hword r ih =>
    cases i with
    | zero =>
      cases hy
      rw [hkind] at hword
      cases hword
    | succ i =>
      rw [getElem?_cons_succ] at hy
      have htaken : r.taken ≤ i := by
        by_contra hlt
        exact ((acts_word hword opening before ahead).not_ended (not_le.mp hlt) hy).2 hkind
      obtain ⟨l, rfl⟩ := Nat.exists_eq_add_of_le htaken
      have hleaves := leaves_word h hword opening before
      refine remains_of_leaves hleaves hy hkind ?_ fun hl => ?_
      · intro head hhead hpos
        rw [← self_word_of_head? hhead hpos opening before ahead]
        exact mem_append_left _ mem_cons_self
      · exact (ih (hleaves.tame h) hl).mono (subset_append_right _ _)
  | case3 before x ahead hword z ih =>
    cases i with
    | zero =>
      obtain rfl := Option.some.inj hy
      have hsame : z = x := by
        show written quoteSingle opening before x ahead = x
        rw [written, hkind]
      rw [hsame]
      exact .inl (mem_append_right _ mem_cons_self)
    | succ i =>
      obtain ⟨l, rfl⟩ : ∃ l, i = 0 + l := ⟨i, (Nat.zero_add i).symm⟩
      have hleaves := leaves_after h.tail.leafy x
      refine remains_of_leaves hleaves hy hkind ?_ fun hl => ?_
      · intro head hhead
        exact absurd (Piece.kind_of_head? hhead) hword
      · refine (ih (hleaves.tame h) hl).mono fun w hw => ?_
        exact mem_append_right _ (mem_cons_of_mem _ hw)

end Macro10.Row
