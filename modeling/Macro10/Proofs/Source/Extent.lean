import Macro10.Proofs.Source.Occurrence

/-!
# Stretches in their lines

The lines of a source are counted while reading, and when the source is split into lines. Both
counts agree: a stretch that ends no line stands in the line of its number, right after as many
symbols as come before its column (`Visit.Route.exists_line`).
-/

namespace Macro10

open List

namespace Stretch

variable {s : Stretch} {xs ys : List Stretch}

theorem lineAfter_of_ne (h : ∀ t, s ≠ terminator t) (line : Nat) : s.lineAfter line = line := by
  cases s with
  | terminator t => exact absurd rfl (h t)
  | lexeme | remark | setRadix | opening | closing | unended => rfl

theorem columnAfter_of_ne (h : ∀ t, s ≠ terminator t) (column : Nat) :
    s.columnAfter column = column + s.source.length := by
  cases s with
  | terminator t => exact absurd rfl (h t)
  | lexeme | remark | setRadix | opening | closing | unended => rfl

theorem Tidy.endsLine_eq_false (h : Tidy (s :: ys)) (hs : ∀ t, s ≠ terminator t) :
    ∀ x ∈ s.source, x.endsLine = false := by
  have h := h.1
  cases s with
  | terminator t => exact absurd rfl (hs t)
  | lexeme | remark | setRadix | opening | closing | unended => exact h

theorem Tidy.of_append (h : Tidy (xs ++ ys)) : Tidy ys := by
  induction xs with
  | nil => exact h
  | cons s xs ih => exact ih h.2

/-- The lines of `t`, which ends with `u`: some that are `done`, the first line of `u` after `pre`,
and the later lines of `u`. -/
def Leads (t u : Text) (done : List Line) (pre : Text) : Prop :=
  ∀ first later, Line.split u = first :: later →
    Line.split t = done ++ { first with content := pre ++ first.content } :: later

variable {t u x pre : Text} {done : List Line}

theorem Leads.terminator (h : Leads t u done pre) {e : Terminator}
    (he : e = .carriageReturn → t.head? ≠ some (.char '\n')) :
    Leads (e.text ++ t) u (⟨[], some e⟩ :: done) pre := by
  intro first later hu
  rw [Line.split_terminator_append he, h first later hu, cons_append]

theorem Leads.append (h : Leads t u [] pre) (hx : ∀ s ∈ x, s.endsLine = false) :
    Leads (x ++ t) u [] (x ++ pre) := by
  intro first later hu
  rw [Line.split_append_of_not_endsLine hx (h first later hu), append_assoc]
  rfl

/-- Symbols within a line belong to the first line that is done. -/
theorem Leads.append_cons {line : Line} (h : Leads t u (line :: done) pre)
    (hx : ∀ s ∈ x, s.endsLine = false) :
    Leads (x ++ t) u ({ line with content := x ++ line.content } :: done) pre := by
  intro first later hu
  rw [Line.split_append_of_not_endsLine hx (h first later hu)]
  rfl

/-- **The place after some stretches, as their lines tell it.** -/
theorem Tidy.exists_leads (h : Tidy (xs ++ ys)) (line column : Nat) :
    ∃ done pre, Leads ((xs ++ ys).flatMap source) (ys.flatMap source) done pre ∧
      linesAfter line xs = line + done.length ∧
      columnsAfter column xs = (if done = [] then column else 1) + pre.length := by
  induction xs generalizing line column with
  | nil => exact ⟨[], [], fun _ _ h => h, rfl, rfl⟩
  | cons s xs ih =>
    obtain ⟨done, pre, hleads, hline, hcolumn⟩ := ih h.2 (s.lineAfter line) (s.columnAfter column)
    rw [linesAfter_cons, columnsAfter_cons, hline, hcolumn, cons_append, flatMap_cons]
    by_cases hs : ∀ t, s ≠ terminator t
    · rw [lineAfter_of_ne hs, columnAfter_of_ne hs]
      have hends := Tidy.endsLine_eq_false h hs
      cases done with
      | nil =>
        refine ⟨[], s.source ++ pre, hleads.append hends, rfl, ?_⟩
        simp only [if_true, length_append]
        omega
      | cons first lines => exact ⟨_, pre, hleads.append_cons hends, rfl, rfl⟩
    · obtain ⟨t, ht⟩ := not_forall.mp hs
      obtain rfl := not_not.mp ht
      refine ⟨⟨[], some t⟩ :: done, pre, hleads.terminator h.1, ?_, ?_⟩
      · simp only [lineAfter, length_cons]
        omega
      · simp [columnAfter]

end Stretch

/-- **A stretch that ends no line stands in the line and the column where it is visited.** -/
theorem Visit.Route.exists_line {source : Text} {radix : Option Int} {w : List Visit} {v : Visit}
    (h : Route 1 1 radix w) (hsource : w.map stretch = source.stretches) (hv : v ∈ w)
    (hne : ∀ t, v.stretch ≠ .terminator t) :
    ∃ line pre post, (Line.split source)[v.line - 1]? = some line ∧ 1 ≤ v.line ∧
      line.content = pre ++ v.stretch.source ++ post ∧ v.column = pre.length + 1 := by
  obtain ⟨before, after, rfl⟩ := mem_iff_append.mp hv
  obtain ⟨hline, hcolumn, -⟩ := h.place
  have htidy : Stretch.Tidy source.stretches :=
    Line.tidy_allStretches none (Line.apart_split source)
  have htext := Text.flatMap_source_stretches source
  rw [← hsource, map_append] at htidy htext
  obtain ⟨done, pre, hleads, hlines, hcolumns⟩ := htidy.exists_leads 1 1
  rw [htext] at hleads
  -- the rest starts with the stretch itself, which lies in the first of its lines
  obtain ⟨first, later, hrest⟩ :=
    Line.exists_split_eq ((after.map stretch).flatMap Stretch.source)
  have hfirst := Line.split_append_of_not_endsLine
    (Stretch.Tidy.endsLine_eq_false htidy.of_append hne) hrest
  rw [hline, hcolumn, hlines, hcolumns, hleads _ _ hfirst]
  refine ⟨⟨pre ++ (v.stretch.source ++ first.content), first.terminator⟩, pre, first.content, ?_,
    by omega, (append_assoc ..).symm, ?_⟩
  · rw [getElem?_append_right (by omega), show 1 + done.length - 1 - done.length = 0 by omega]
    rfl
  · split <;> omega

end Macro10
