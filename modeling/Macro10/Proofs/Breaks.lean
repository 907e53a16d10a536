import Macro10.Source.Line
import Macro10.Text.Blank
import Mathlib.Algebra.GroupWithZero.Nat
import Mathlib.Data.List.Basic

/-!
# Line breaks

A carriage return that ends one text and a line feed that starts the next are one terminator. So the
terminators of a text add up only if every carriage return stands before a line feed of its own
part: `Text.Breaks` says this together with the number (`Breaks.append`, `Breaks.terminators_eq`).
-/

namespace Macro10

open List
open Macro10.Symbol (isSpace)

theorem Symbol.endsLine_eq_false {s : Symbol} :
    s.endsLine = false ↔ s ≠ .char '\n' ∧ s ≠ .char '\r' := by
  rw [← Bool.not_eq_true, endsLine, Bool.or_eq_true, is_iff, is_iff, not_or]

namespace Text

/-- Every carriage return is followed by a line feed. -/
def Paired : Text → Prop
  | [] => True
  | s :: rest => (s = .char '\r' → rest.head? = some (.char '\n')) ∧ Paired rest

instance decidablePaired : (t : Text) → Decidable t.Paired
  | [] => .isTrue trivial
  | s :: rest =>
    have := decidablePaired rest
    inferInstanceAs (Decidable ((s = .char '\r' → rest.head? = some (.char '\n')) ∧ Paired rest))

/-- The number of lines that have a terminator. -/
def terminators (t : Text) : Nat := (Line.split t).countP (·.terminator.isSome)

/-- The text has `n` terminators, and its carriage returns all belong to one. -/
structure Breaks (t : Text) (n : Nat) : Prop where
  paired : t.Paired
  count : t.count (.char '\n') = n

namespace Paired

variable {t u : Text}

theorem append (ht : t.Paired) (hu : u.Paired) : (t ++ u).Paired := by
  induction t with
  | nil => exact hu
  | cons s rest ih =>
    refine ⟨fun hs => ?_, ih ht.2⟩
    show (rest ++ u).head? = _
    rw [head?_append, ht.1 hs]
    rfl

theorem right (h : (t ++ u).Paired) : u.Paired := by
  induction t with
  | nil => exact h
  | cons s rest ih => exact ih h.2

/-- What comes after a text does not count if no line feed starts it. -/
theorem left (h : (t ++ u).Paired) (hu : u.head? ≠ some (.char '\n')) : t.Paired := by
  induction t with
  | nil => trivial
  | cons s rest ih =>
    refine ⟨fun hs => ?_, ih h.2⟩
    cases rest with
    | nil => exact absurd (h.1 hs) hu
    | cons r rest => exact h.1 hs

end Paired

namespace Breaks

variable {t u : Text} {n m : Nat}

theorem append (ht : t.Breaks n) (hu : u.Breaks m) : (t ++ u).Breaks (n + m) :=
  ⟨ht.paired.append hu.paired, by rw [count_append, ht.count, hu.count]⟩

theorem of_not_endsLine (h : ∀ s ∈ t, s.endsLine = false) : t.Breaks 0 where
  paired := by
    induction t with
    | nil => trivial
    | cons s rest ih =>
      obtain ⟨hs, hrest⟩ := forall_mem_cons.mp h
      exact ⟨fun heq => absurd heq (Symbol.endsLine_eq_false.mp hs).2, ih hrest⟩
  count := count_eq_zero.mpr fun hmem => (Symbol.endsLine_eq_false.mp (h _ hmem)).1 rfl

theorem not_endsLine (h : t.Breaks 0) : ∀ s ∈ t, s.endsLine = false := by
  obtain ⟨hpaired, hcount⟩ := h
  induction t with
  | nil => exact forall_mem_nil _
  | cons s rest ih =>
    have hfeed := count_eq_zero.mp hcount
    refine forall_mem_cons.mpr ⟨Symbol.endsLine_eq_false.mpr ⟨?_, ?_⟩, ih hpaired.2 ?_⟩
    · rintro rfl
      exact hfeed mem_cons_self
    · -- The line feed after a carriage return would be in the text.
      intro hs
      exact hfeed (mem_cons_of_mem s (mem_of_mem_head? (hpaired.1 hs)))
    · exact count_eq_zero.mpr fun hmem => hfeed (mem_cons_of_mem s hmem)

theorem nil : Breaks [] 0 := of_not_endsLine (forall_mem_nil _)

theorem flatMap {α : Type} {f : α → Text} {g : α → Nat} {xs : List α}
    (h : ∀ x ∈ xs, (f x).Breaks (g x)) : Breaks (xs.flatMap f) (xs.map g).sum := by
  induction xs with
  | nil => exact nil
  | cons x xs ih =>
    obtain ⟨hx, hxs⟩ := forall_mem_cons.mp h
    rw [flatMap_cons, map_cons, sum_cons]
    exact hx.append (ih hxs)

/-- What is within a line can be cut off at both ends. -/
theorem middle {pre suf : Text} (h : (pre ++ t ++ suf).Breaks n) (hpre : pre.Breaks 0)
    (hsuf : suf.Breaks 0) : t.Breaks n where
  paired := by
    have hleft : (pre ++ t).Paired := by
      refine h.paired.left fun hhead => ?_
      have hfeed := hsuf.not_endsLine _ (mem_of_mem_head? hhead)
      exact (Symbol.endsLine_eq_false.mp hfeed).1 rfl
    exact hleft.right
  count := by
    have hcount := h.count
    rw [count_append, count_append, hpre.count, hsuf.count] at hcount
    omega

theorem replaceSymbol (h : t.Breaks n) {old new : Symbol} (hold : old.endsLine = false)
    (hnew : new.endsLine = false) : (Text.replaceSymbol old new t).Breaks n := by
  rw [Symbol.endsLine_eq_false] at hold hnew
  have hsame {c s : Symbol} : c ≠ old → c ≠ new → ((if s = old then new else s) = c ↔ s = c) := by
    intro hc hc'
    by_cases hs : s = old
    · rw [if_pos hs, hs]
      exact ⟨fun heq => absurd heq.symm hc', fun heq => absurd heq.symm hc⟩
    · rw [if_neg hs]
  obtain ⟨hpaired, rfl⟩ := h
  induction t with
  | nil => exact nil
  | cons s rest ih =>
    obtain ⟨hrest, hcount⟩ := ih hpaired.2
    refine ⟨⟨fun hs => ?_, hrest⟩, ?_⟩
    · rw [hsame hold.2.symm hnew.2.symm] at hs
      have hhead := hpaired.1 hs
      cases rest with
      | nil => cases hhead
      | cons r rest =>
        cases hhead
        exact congrArg some ((hsame hold.1.symm hnew.1.symm).mpr rfl)
    · rw [Text.replaceSymbol, map_cons, count_cons, count_cons, ← hcount]
      simp only [beq_iff_eq, hsame hold.1.symm hnew.1.symm]
      rfl

/-- **The terminators of a text are those of its lines.** -/
theorem terminators_eq (h : t.Breaks n) : t.terminators = n := by
  obtain ⟨hpaired, rfl⟩ := h
  unfold terminators
  fun_induction Line.split t with
  | case1 => rfl
  | case2 rest ih => simpa [countP_cons] using ih hpaired.2.2
  | case3 rest hne ih =>
    -- The carriage return stands alone.
    have hhead := hpaired.1 rfl
    cases rest with
    | nil => cases hhead
    | cons r rest => exact absurd (Option.some.inj hhead) (fun heq => hne rest (by rw [heq]))
  | case4 rest ih => simpa [countP_cons] using ih hpaired.2
  | case5 s rest _ _ hfeed ih =>
    have hfirst (lines : List Line) : (Line.consFirst s lines).countP (·.terminator.isSome) =
        lines.countP (·.terminator.isSome) := by
      cases lines with
      | nil => rfl
      | cons line lines => simp [Line.consFirst, countP_cons]
    rw [hfirst, ih hpaired.2, count_cons_of_ne hfeed]

end Breaks

/-! ## Trimming -/

theorem mem_takeWhile_append {p : Symbol → Bool} {t : Text} {s : Symbol} (h : s ∈ t.takeWhile p)
    (u : Text) : s ∈ (t ++ u).takeWhile p := by
  rw [takeWhile_append]
  split
  · exact mem_append_left _ ((List.takeWhile_prefix p).subset h)
  · exact h

/-- Texts that are within a line each, or else do not start with white space, have no line break in
the white space that they start with together. -/
theorem not_endsLine_takeWhile {us : List Text}
    (h : ∀ u ∈ us, u.Breaks 0 ∨ u.head?.any (! isSpace ·) = true) :
    ∀ s ∈ us.flatten.takeWhile isSpace, s.endsLine = false := by
  induction us with
  | nil => exact forall_mem_nil _
  | cons u us ih =>
    obtain ⟨hu, hus⟩ := forall_mem_cons.mp h
    intro s hs
    rw [flatten_cons, takeWhile_append] at hs
    rcases hu with hflat | hsolid
    · split at hs
      · rcases mem_append.mp hs with hs | hs
        · exact hflat.not_endsLine s hs
        · exact ih hus s hs
      · exact hflat.not_endsLine s ((List.takeWhile_prefix _).subset hs)
    · cases u with
      | nil => cases hsolid
      | cons r rest =>
        have hr : r.isSpace = false := by simpa using hsolid
        simp [hr] at hs

/-- Trimming keeps the number of terminators if there are none in the white space at both ends. -/
theorem Breaks.trim {t : Text} {n : Nat} (h : t.Breaks n)
    (hstart : ∀ s ∈ t.takeWhile isSpace, s.endsLine = false)
    (hend : ∀ s ∈ t.reverse.takeWhile isSpace, s.endsLine = false) : t.trim.Breaks n := by
  have hfront := takeWhile_append_dropWhile (p := isSpace) (l := t)
  have hback := takeWhile_append_dropWhile (p := isSpace) (l := (t.dropWhile isSpace).reverse)
  have hsplit : t = t.takeWhile isSpace ++ t.trim ++
      ((t.dropWhile isSpace).reverse.takeWhile isSpace).reverse := by
    rw [append_assoc, Text.trim, trimEnd, ← reverse_append, hback, reverse_reverse, hfront]
  rw [hsplit] at h
  refine h.middle (.of_not_endsLine hstart) (.of_not_endsLine fun s hs => hend s ?_)
  have hrev : t.reverse = (t.dropWhile isSpace).reverse ++ (t.takeWhile isSpace).reverse := by
    rw [← reverse_append, hfront]
  rw [hrev]
  exact mem_takeWhile_append (mem_reverse.mp hs) _

end Text

end Macro10
