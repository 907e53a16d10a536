import Macro10.Proofs.Source.Steps

/-!
# Reading on top of other pieces

What a reader makes of a line depends on the radix and on the piece directly before. So two readers
stay alike (`Over`) if one of them has more pieces below what both have, and perhaps more open
groups around it. Only a closing bracket that closes none of the groups that both have can break
this.
-/

namespace Macro10

open List

variable {r s r' : Reader}

/-! ## Rows of a reader -/

theorem Forest.items_reverseOnto (f done : Forest) :
    (f.reverseOnto done).items = f.items.reverse ++ done.items := by
  induction f generalizing done with
  | nil => rfl
  | leaf kind text position rest ih => rw [reverseOnto, ih, items, items]; simp
  | group position closed children rest _ ih => rw [reverseOnto, ih, items, items]; simp

@[simp]
theorem Forest.items_reverse (f : Forest) : f.reverse.items = f.items.reverse := by
  rw [reverse, items_reverseOnto, items, append_nil]

namespace Reader

/-- The pieces of the open groups, innermost first, and in each group last piece first. -/
def rows (r : Reader) : List (List Item) :=
  r.scope.items :: r.frames.map fun frame => frame.before.items

/-- A piece is added to the innermost row. -/
def consTop (x : Item) : List (List Item) → List (List Item)
  | [] => []
  | row :: rows => (x :: row) :: rows

/-- Rows on top of more pieces, and within more rows. -/
def stacked (base : List Item) (outer : List (List Item)) : List (List Item) → List (List Item)
  | [] => outer
  | [row] => (row ++ base) :: outer
  | row :: row' :: rows => row :: stacked base outer (row' :: rows)

variable {base : List Item} {outer rows : List (List Item)}

/-- What is put on top goes on top of either. -/
theorem stacked_consTop (x : Item) (hrows : rows ≠ []) :
    stacked base outer (consTop x rows) = consTop x (stacked base outer rows) := by
  match rows with
  | [_] => rfl
  | _ :: _ :: _ => rfl

theorem stacked_cons (row : List Item) (hrows : rows ≠ []) :
    stacked base outer (row :: rows) = row :: stacked base outer rows := by
  obtain ⟨row', rows, rfl⟩ := exists_cons_of_ne_nil hrows
  rfl

theorem stacked_ne_nil (hrows : rows ≠ []) : stacked base outer rows ≠ [] := by
  match rows with
  | [_] => exact cons_ne_nil _ _
  | _ :: _ :: _ => exact cons_ne_nil _ _

theorem consTop_inj {x : Item} {rows' : List (List Item)} (hrows : rows ≠ [])
    (hrows' : rows' ≠ []) (h : consTop x rows = consTop x rows') : rows = rows' := by
  obtain ⟨row, rows, rfl⟩ := exists_cons_of_ne_nil hrows
  obtain ⟨row', rows', rfl⟩ := exists_cons_of_ne_nil hrows'
  simpa [consTop] using h

theorem rows_ne_nil (r : Reader) : r.rows ≠ [] := cons_ne_nil _ _

@[simp]
theorem rows_put (r : Reader) (kind : Kind) (text : Text) (position : Position) :
    (r.put kind text position).rows = consTop (.node { kind, text } []) r.rows := rfl

@[simp]
theorem rows_report (r : Reader) (problem : Problem) (position : Position) (length : Int)
    (severity : Severity) : (r.report problem position length severity).rows = r.rows := rfl

@[simp]
theorem rows_openGroup (r : Reader) (position : Position) :
    (r.openGroup position).rows = [] :: r.rows := rfl

/-- A group that is closed. -/
def closedGroup (inside : List Item) : Item :=
  .node { kind := .container, opening := [.char '<'], closing := [.char '>'] } inside

/-- A group that is closed goes on top of the row around it. -/
theorem rows_closeGroup {row : List Item}
    (h : r.rows = row :: rows) (hrows : rows ≠ []) (position : Position) :
    (r.closeGroup position).rows = consTop (closedGroup row.reverse) rows := by
  obtain ⟨hscope, hframes⟩ := List.cons.inj h
  obtain ⟨frame, frames, hcons⟩ : ∃ frame frames, r.frames = frame :: frames := by
    cases hf : r.frames with
    | nil => exact absurd (by simpa [hf] using hframes.symm) hrows
    | cons frame frames => exact ⟨frame, frames, rfl⟩
  rw [hcons] at hframes
  rw [← hframes, ← hscope]
  simp only [closeGroup, hcons, Reader.rows, Forest.items, Forest.items_reverse, if_true]
  rfl

/-! ## Readers that stay alike -/

/-- The item is the operator that marks a numeral. -/
def isMark (x : Item) : Bool := x.value.kind = .operator && x.value.text = [.char '^']

/-- A mark is seen as the last item. -/
theorem afterMark_eq (r : Reader) : r.afterMark = r.scope.items.head?.any isMark := by
  unfold afterMark
  split
  · next heq => rw [heq]; rfl
  · next hne =>
    cases hscope : r.scope with
    | nil => rfl
    | group position closed children rest => rfl
    | leaf kind text position rest =>
      have hnot : ¬(kind = .operator ∧ text = [.char '^']) := by
        rintro ⟨rfl, rfl⟩
        exact hne position rest hscope
      show false = (decide (kind = .operator) && decide (text = [.char '^']))
      rw [eq_comm, Bool.and_eq_false_iff, decide_eq_false_iff_not, decide_eq_false_iff_not,
        ← not_and_or]
      exact hnot

theorem exists_of_afterMark (h : r.afterMark = true) :
    ∃ position rest, r.scope = .leaf .operator [.char '^'] position rest := by
  unfold afterMark at h
  split at h
  · next position rest heq => exact ⟨position, rest, heq⟩
  · cases h

/-- The reader `s` has the pieces of `r` on top of others. -/
structure Over (base : List Item) (outer : List (List Item)) (r s : Reader) : Prop where
  radix : s.radix = r.radix
  rows : s.rows = stacked base outer r.rows

namespace Over

/-- A reader that has read nothing, and one whose groups are all closed. -/
theorem start (hframes : s.frames = []) : Over s.scope.items [] { radix := s.radix } s :=
  ⟨rfl, by rw [Reader.rows, hframes]; rfl⟩

variable (h : Over base outer r s)
include h

/-- Both put the same piece. -/
theorem put (kind : Kind) (text : Text) (p p' : Position) :
    Over base outer (r.put kind text p) (s.put kind text p') := by
  refine ⟨h.radix, ?_⟩
  rw [rows_put, rows_put, h.rows, stacked_consTop _ r.rows_ne_nil]

theorem report (problem : Problem) (p : Position) (length : Int) (severity : Severity) :
    Over base outer (r.report problem p length severity) s := ⟨h.radix, h.rows⟩

theorem report' (problem : Problem) (p : Position) (length : Int) (severity : Severity) :
    Over base outer r (s.report problem p length severity) := ⟨h.radix, h.rows⟩

/-- Both open a group. -/
theorem openGroup (p p' : Position) : Over base outer (r.openGroup p) (s.openGroup p') := by
  refine ⟨h.radix, ?_⟩
  rw [rows_openGroup, rows_openGroup, h.rows, stacked_cons _ r.rows_ne_nil]

/-- Both close a group that both have. -/
theorem closeGroup (hframes : r.frames ≠ []) (p p' : Position) :
    Over base outer (r.closeGroup p) (s.closeGroup p') := by
  have hrows : (r.frames.map fun frame => frame.before.items) ≠ [] := by simpa using hframes
  have hs : s.rows = r.scope.items ::
      stacked base outer (r.frames.map fun frame => frame.before.items) :=
    h.rows.trans (stacked_cons _ hrows)
  refine ⟨?_, ?_⟩
  · unfold Reader.closeGroup
    split <;> split <;> exact h.radix
  · rw [rows_closeGroup rfl hrows, rows_closeGroup hs (stacked_ne_nil hrows),
      stacked_consTop _ hrows]

theorem afterMark_eq (hbase : base.head?.any isMark = false) : s.afterMark = r.afterMark := by
  have hrows := h.rows
  rw [Reader.afterMark_eq, Reader.afterMark_eq]
  unfold Reader.rows at hrows
  cases hframes : r.frames with
  | nil =>
    rw [hframes, map_nil, stacked] at hrows
    rw [(List.cons.inj hrows).1]
    cases r.scope.items with
    | nil => simpa using hbase
    | cons x xs => rfl
  | cons frame frames =>
    rw [hframes, map_cons, stacked_cons _ (cons_ne_nil _ _)] at hrows
    rw [(List.cons.inj hrows).1]

/-- Both use up a mark. -/
theorem blankLast (hmark : r.afterMark = true) (hmark' : s.afterMark = true) :
    Over base outer r.blankLast s.blankLast := by
  obtain ⟨p, rest, hscope⟩ := exists_of_afterMark hmark
  obtain ⟨p', rest', hscope'⟩ := exists_of_afterMark hmark'
  have hr : r.rows = consTop (.node { kind := .operator, text := [.char '^'] } [])
      (rest.items :: r.frames.map fun frame => frame.before.items) := by
    rw [Reader.rows, hscope]
    rfl
  have hs : s.rows = consTop (.node { kind := .operator, text := [.char '^'] } [])
      (rest'.items :: s.frames.map fun frame => frame.before.items) := by
    rw [Reader.rows, hscope']
    rfl
  have hbelow := h.rows
  rw [hr, hs, stacked_consTop _ (cons_ne_nil _ _)] at hbelow
  have hrest := consTop_inj (cons_ne_nil _ _) (stacked_ne_nil (cons_ne_nil _ _)) hbelow
  refine ⟨?_, ?_⟩
  · simp only [Reader.blankLast, hscope, hscope', h.radix]
  · have hblank : ∀ {t : Reader} {q : Position} {f : Forest},
        t.scope = .leaf .operator [.char '^'] q f → t.blankLast.rows =
          consTop (.node { kind := .whitespace, text := [] } [])
            (f.items :: t.frames.map fun frame => frame.before.items) := by
      intro t q f ht
      simp only [Reader.blankLast, ht]
      rfl
    rw [hblank hscope, hblank hscope', hrest, stacked_consTop _ (cons_ne_nil _ _)]

end Over

/-! ## Reading keeps readers alike -/

/-- No closing bracket was found outside all groups. -/
def Quiet (r : Reader) : Prop := ∀ d ∈ r.diagnostics, d.problem ≠ .unmatchedClose

theorem Quiet.of_steps (h : r'.Quiet) (hsteps : Steps r r') : r.Quiet :=
  fun d hd => h d (hsteps.diagnostics.subset hd)

theorem Quiet.frames_ne_nil {p : Position} (h : (r.closeGroup p).Quiet) : r.frames ≠ [] := by
  intro hframes
  refine absurd rfl (h ⟨.unmatchedClose, p, .warning, 1⟩ ?_)
  simp [Reader.closeGroup, hframes, Reader.report]

namespace Over

/-- Reading keeps readers alike, closing brackets apart. -/
theorem parallel (base : List Item) (outer : List (List Item)) :
    Parallel (fun _ _ => True) (Over base outer) where
  lineStart := id
  put h _ _ _ text := h.put _ text ..
  report h _ _ _ _ := (h.report ..).report' ..
  blankLast h := h.blankLast
  openGroup h _ := h.openGroup ..
  noteRadix h _ _ := ⟨rfl, h.rows⟩

variable (h : Over base outer r s) (hbase : base.head?.any isMark = false)
include h

/-- A closing bracket closes a group that both readers have, or none. -/
theorem closeGroup_of_frames (hclosing : outer = [] ∨ r.frames ≠ []) (p p' : Position) :
    Over base outer (r.closeGroup p) (s.closeGroup p') := by
  by_cases hframes : r.frames = []
  · obtain rfl := hclosing.resolve_right (not_not_intro hframes)
    have hrows := h.rows
    rw [Reader.rows, Reader.rows, hframes, map_nil, stacked] at hrows
    have hframes' : s.frames = [] := map_eq_nil_iff.mp (List.cons.inj hrows).2
    simp only [Reader.closeGroup, hframes, hframes']
    exact (h.report ..).report' ..
  · exact h.closeGroup hframes p p'

include hbase

/-- A stretch keeps readers alike. -/
theorem take (x : Stretch) (hclosing : x = .closing → outer = [] ∨ r.frames ≠ [])
    (line column line' column' : Nat) :
    Abreast (Over base outer) (r.take line column x) (s.take line' column' x) :=
  (parallel base outer).take h trivial
    (fun l _ => verdictOn_congr h.radix (h.afterMark_eq hbase) l)
    fun hx => h.closeGroup_of_frames (hclosing hx) _ _

omit h in
/-- **Readers with no other group around them read alike,** and stop alike. -/
theorem takeAll (h : Over base [] r s) (stretches : List Stretch)
    (line column line' column' : Nat) :
    Abreast (Over base []) (r.takeAll line column stretches)
      (s.takeAll line' column' stretches) := by
  induction stretches generalizing r s line column line' column' with
  | nil => exact .ok h
  | cons st stretches ih =>
    exact (h.take hbase st (fun _ => .inl rfl) line column line' column').bind
      fun r₁ s₁ h₁ => ih h₁ _ _ _ _

/-- Every closing bracket closes a group that both readers have, or there is no other. -/
theorem exists_takeAll {line column : Nat} {stretches : List Stretch}
    (hr : r.takeAll line column stretches = .ok r') (hquiet : outer = [] ∨ r'.Quiet)
    (line' column' : Nat) :
    ∃ s', s.takeAll line' column' stretches = .ok s' ∧ Over base outer r' s' := by
  induction stretches generalizing r s line column line' column' with
  | nil =>
    cases hr
    exact ⟨s, rfl, h⟩
  | cons st stretches ih =>
    obtain ⟨r₁, hr₁, hr⟩ := bind_eq_ok.mp hr
    have hclosing : st = .closing → outer = [] ∨ r.frames ≠ [] := by
      rintro rfl
      cases hr₁
      exact hquiet.imp_right fun hquiet => (hquiet.of_steps (steps_takeAll hr)).frames_ne_nil
    obtain ⟨s₁, hs₁, h₁⟩ := (h.take hbase st hclosing line column line' column').exists_right hr₁
    obtain ⟨s', hs', h'⟩ := ih h₁ hr (st.lineAfter line') (st.columnAfter column')
    exact ⟨s', bind_eq_ok.mpr ⟨s₁, hs₁, hs'⟩, h'⟩

end Over

/-! ## The end of a source -/

/-- A group that is never closed. -/
def openGroupItem (inside : List Item) : Item :=
  .node { kind := .container, opening := [.char '<'] } inside

/-- The outermost row, after the groups that are still open have ended. -/
def outermost (row : List Item) : List (List Item) → List Item
  | [] => row
  | row' :: rows => outermost (openGroupItem row.reverse :: row') rows

theorem items_endGroups (r : Reader) (frames : List Frame) :
    (r.endGroups frames).scope.items =
      outermost r.scope.items (frames.map fun frame => frame.before.items) := by
  induction frames generalizing r with
  | nil => rfl
  | cons frame frames ih =>
    rw [endGroups, ih, map_cons, outermost]
    congr 1
    simp only [Forest.items, Forest.items_reverse, Bool.false_eq_true, if_false]
    rfl

theorem outermost_stacked (row : List Item) (hrows : rows ≠ []) :
    outermost row (stacked base [] rows) = outermost row rows ++ base := by
  induction rows generalizing row with
  | nil => exact absurd rfl hrows
  | cons row₁ rows ih =>
    cases rows with
    | nil => rfl
    | cons row₂ rows => exact ih (openGroupItem row.reverse :: row₁) (cons_ne_nil _ _)

/-- At the end, one has the items of the other on top. -/
theorem Over.items_endGroups (h : Over base [] r s) :
    (s.endGroups s.frames).scope.items = (r.endGroups r.frames).scope.items ++ base := by
  have hrows := h.rows
  rw [Reader.items_endGroups, Reader.items_endGroups]
  cases hframes : r.frames with
  | nil =>
    rw [Reader.rows, Reader.rows, hframes, map_nil, stacked] at hrows
    obtain ⟨hscope, hframes'⟩ := List.cons.inj hrows
    rw [hscope, hframes']
    rfl
  | cons frame frames =>
    have hne : ((frame :: frames).map fun frame => frame.before.items) ≠ [] := by simp
    rw [Reader.rows, Reader.rows, hframes, stacked_cons _ hne] at hrows
    obtain ⟨hscope, hframes'⟩ := List.cons.inj hrows
    rw [hscope, hframes', outermost_stacked _ hne]

end Reader

end Macro10
