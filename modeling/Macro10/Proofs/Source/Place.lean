import Macro10.Proofs.Source.Visit

/-!
# Places in a source

The place after some text is its line and column, both counted from one. A carriage return and a
line feed that follows it end one line.

Main statement: each stretch of a source starts at the place after the text before it
(`Text.place_stretches`).
-/

namespace Macro10

open List

/-- The line and the column after a text that starts in the given ones. -/
def Text.placeAfter (line column : Nat) : Text → Nat × Nat
  | [] => (line, column)
  | .char '\r' :: .char '\n' :: rest => placeAfter (line + 1) 1 rest
  | .char '\r' :: rest => placeAfter (line + 1) 1 rest
  | .char '\n' :: rest => placeAfter (line + 1) 1 rest
  | _ :: rest => placeAfter line (column + 1) rest

namespace Text

variable {line column : Nat}

/-- A text within a line moves the column only. -/
theorem placeAfter_append {x : Text} (h : ∀ s ∈ x, s.endsLine = false) (t : Text) :
    placeAfter line column (x ++ t) = placeAfter line (column + x.length) t := by
  induction x generalizing column with
  | nil => rfl
  | cons s x ih =>
    obtain ⟨hs, hx⟩ := forall_mem_cons.mp h
    simp only [Symbol.endsLine, Symbol.is, Bool.or_eq_false_iff, beq_eq_false_iff_ne] at hs
    have hstep : placeAfter line column (s :: (x ++ t)) =
        placeAfter line (column + 1) (x ++ t) := by
      rw [placeAfter.eq_def]
      split <;> simp_all
    rw [cons_append, hstep, ih hx, length_cons, Nat.add_assoc, Nat.add_comm 1]

/-- After a terminator a new line starts, unless the next symbol belongs to the terminator. -/
theorem placeAfter_terminator {terminator : Terminator} {t : Text}
    (h : terminator = .carriageReturn → t.head? ≠ some (.char '\n')) :
    placeAfter line column (terminator.text ++ t) = placeAfter (line + 1) 1 t := by
  cases terminator with
  | lineFeed | both => rfl
  | carriageReturn =>
    cases t with
    | nil => rfl
    | cons s rest =>
      have hs : s ≠ .char '\n' := fun hs => h rfl (congrArg some hs)
      show placeAfter line column (.char '\r' :: s :: rest) = _
      rw [placeAfter]
      exact fun _ hs' => hs (List.cons.inj hs').1

end Text

/-! ## Line ends stand in terminators -/

/-- Line ends stand in terminators only, and no terminator is cut short. -/
def Stretch.Tidy : List Stretch → Prop
  | [] => True
  | s :: rest => (match s with
      | terminator t => t = .carriageReturn → (rest.flatMap source).head? ≠ some (.char '\n')
      | s => ∀ x ∈ s.source, x.endsLine = false) ∧ Tidy rest

namespace Stretch

variable {s : Stretch} {xs rest : List Stretch}

/-- Within tidy stretches, the place after some of them is the place after their text. -/
theorem Tidy.placeAfter (line column : Nat) (h : Tidy (xs ++ rest)) :
    Text.placeAfter line column (xs.flatMap source) =
      (linesAfter line xs, columnsAfter column xs) := by
  induction xs generalizing line column with
  | nil => rfl
  | cons s xs ih =>
    obtain ⟨hs, hrest⟩ := h
    have hcode (hs : ∀ x ∈ s.source, x.endsLine = false) (hline : s.lineAfter line = line)
        (hcolumn : s.columnAfter column = column + s.source.length) :
        Text.placeAfter line column ((s :: xs).flatMap source) =
          (linesAfter line (s :: xs), columnsAfter column (s :: xs)) := by
      rw [flatMap_cons, Text.placeAfter_append hs, ih _ _ hrest, linesAfter_cons,
        columnsAfter_cons, hline, hcolumn]
    cases s with
    | terminator t =>
      have ht : t = .carriageReturn → (xs.flatMap source).head? ≠ some (.char '\n') := by
        intro hreturn hhead
        refine hs hreturn ?_
        show ((xs ++ rest).flatMap source).head? = _
        rw [flatMap_append, head?_append, hhead]
        rfl
      rw [flatMap_cons]
      exact (Text.placeAfter_terminator ht).trans (ih _ _ hrest)
    | lexeme | remark | setRadix | opening | closing | unended => exact hcode hs rfl rfl

theorem Tidy.append (h : ∀ s ∈ xs, (∀ t, s ≠ terminator t) ∧ ∀ x ∈ s.source, x.endsLine = false)
    (hrest : Tidy rest) : Tidy (xs ++ rest) := by
  induction xs with
  | nil => exact hrest
  | cons s xs ih =>
    obtain ⟨⟨hne, hs⟩, hxs⟩ := forall_mem_cons.mp h
    refine ⟨?_, ih hxs⟩
    cases s with
    | terminator t => exact absurd rfl (hne t)
    | lexeme | remark | setRadix | opening | closing | unended => exact hs

theorem Tidy.code {text : Text} (h : ∀ x ∈ text, x.endsLine = false) (hrest : Tidy rest) :
    Tidy (ofCode text ++ rest) := by
  refine .append (fun s hs => ⟨fun t => ?_, fun x hx => h x ?_⟩) hrest
  · obtain ⟨l, -, rfl⟩ := mem_map.mp hs
    exact nofun
  · rw [← flatMap_source_ofCode text]
    exact mem_flatMap.mpr ⟨s, hs, hx⟩

end Stretch

namespace Line

variable {line : Line} {later : List Line} {column : Nat} {text : Text} {segments : List Segment}
  {rest : List Stretch}

/-- The lines hold no line ends, and no terminator is cut short. -/
def Apart : List Line → Prop
  | [] => True
  | line :: rest => (∀ x ∈ line.content, x.endsLine = false) ∧
      (line.terminator = some .carriageReturn → (flatten rest).head? ≠ some (.char '\n')) ∧
      Apart rest

theorem apart_split (source : Text) : Apart (split source) := by
  fun_induction split source with
  | case1 => exact ⟨forall_mem_nil _, by simp, trivial⟩
  | case2 rest ih | case4 rest ih => exact ⟨forall_mem_nil _, by simp, ih⟩
  | case3 rest hrest ih =>
    refine ⟨forall_mem_nil _, fun _ hhead => ?_, ih⟩
    rw [flatten_split] at hhead
    obtain ⟨tail, rfl⟩ := List.head?_eq_some_iff.mp hhead
    exact hrest tail rfl
  | case5 s rest hboth hreturn hfeed ih =>
    have hs : s.endsLine = false := by
      simp only [Symbol.endsLine, Symbol.is, Bool.or_eq_false_iff, beq_eq_false_iff_ne]
      exact ⟨hfeed, hreturn⟩
    cases h : split rest with
    | nil => exact ⟨by simpa [consFirst] using hs, by simp, trivial⟩
    | cons line lines =>
      rw [h] at ih
      exact ⟨forall_mem_cons.mpr ⟨hs, ih.1⟩, ih.2⟩

variable (hrest : Stretch.Tidy rest)
  (hreturn : line.terminator = some .carriageReturn →
    (rest.flatMap Stretch.source).head? ≠ some (.char '\n'))

include hrest hreturn

theorem tidy_ended : Stretch.Tidy (line.ended ++ rest) := by
  rw [ended]
  cases ht : line.terminator with
  | none => exact hrest
  | some t =>
    refine ⟨?_, hrest⟩
    rintro rfl
    exact hreturn ht

section

variable (hline : ∀ x ∈ line.content, x.endsLine = false)
include hline

theorem tidy_remark : Stretch.Tidy (line.remark ++ rest) :=
  ⟨hline, tidy_ended hrest hreturn⟩

theorem tidy_blockStretches : Stretch.Tidy (line.blockStretches ++ rest) := by
  rw [blockStretches]
  split
  · exact hrest
  · exact tidy_remark hrest hreturn hline

theorem tidy_endStretches {segment : Segment} (htext : ∀ x ∈ segment.text, x.endsLine = false) :
    Stretch.Tidy ((line.endStretches later segment).1 ++ rest) := by
  rw [endStretches]
  split
  · rw [append_assoc]
    refine tidy_remark ?_ ?_ hline
    · split
      · exact hrest
      · exact ⟨forall_mem_nil _, hrest⟩
    · split <;> exact hreturn
  · exact ⟨hline, tidy_ended hrest hreturn⟩
  · exact tidy_remark hrest hreturn hline
  · rw [append_assoc]
    exact .code htext (tidy_ended hrest hreturn)

theorem tidy_stretches
    (hcover : Segment.Cover column text segments) (htext : ∀ x ∈ text, x.endsLine = false) :
    Stretch.Tidy ((line.stretches later segments).1 ++ rest) := by
  induction hcover with
  | lineEnd column text => exact tidy_endStretches hrest hreturn hline htext
  | opening text hcover ih | closing text hcover ih =>
    obtain ⟨htext, hbracket⟩ := forall_mem_append.mp htext
    obtain ⟨hbracket, htail⟩ := forall_mem_cons.mp hbracket
    simp only [stretches, append_assoc, cons_append]
    exact .code htext ⟨forall_mem_singleton.mpr hbracket, ih htail⟩

end

omit hrest hreturn

theorem tidy_allStretches (marker : Option Text) {lines : List Line} (h : Apart lines) :
    Stretch.Tidy (allStretches marker lines) := by
  induction lines generalizing marker with
  | nil => trivial
  | cons line later ih =>
    obtain ⟨hline, hreturn, hlater⟩ := h
    have hreturn' (marker : Option Text) : line.terminator = some .carriageReturn →
        ((allStretches marker later).flatMap Stretch.source).head? ≠ some (.char '\n') := by
      rwa [flatMap_source_allStretches]
    cases marker with
    | some m => exact tidy_blockStretches (ih _ hlater) (hreturn' _) hline
    | none =>
      exact tidy_stretches (ih _ hlater) (hreturn' _) hline (Segment.cover_segments line.content)
        hline

end Line

/-- **Each stretch of a source starts at the place after the text before it.** -/
theorem Text.place_stretches {source : Text} {before after : List Stretch}
    (h : source.stretches = before ++ after) :
    Text.placeAfter 1 1 (before.flatMap Stretch.source) =
      (Stretch.linesAfter 1 before, Stretch.columnsAfter 1 before) := by
  have htidy : Stretch.Tidy source.stretches :=
    Line.tidy_allStretches none (Line.apart_split source)
  rw [h] at htidy
  exact htidy.placeAfter 1 1

/-! ## Places along a route -/

/-- The position after a text. -/
def Text.positionAfter (text : Text) : Position :=
  ⟨(placeAfter 1 1 text).1, (placeAfter 1 1 text).2⟩

/-- The radix in force after some stretches. -/
def Stretch.radixesAfter (radix : Option Int) (stretches : List Stretch) : Option Int :=
  stretches.foldl radixAfter radix

/-- The first position comes before the second. -/
def Position.Before (p q : Position) : Prop :=
  p.line < q.line ∨ p.line = q.line ∧ p.column < q.column

theorem Position.Before.ne {p q : Position} (h : p.Before q) : p ≠ q := by
  rintro rfl
  unfold Before at h
  omega

namespace Visit.Route

variable {before after : List Visit} {v : Visit}

variable {line column : Nat} {radix : Option Int} {w : List Visit}

theorem place (h : Route line column radix (before ++ v :: after)) :
    v.line = Stretch.linesAfter line (before.map stretch) ∧
      v.column = Stretch.columnsAfter column (before.map stretch) ∧
      v.radix = Stretch.radixesAfter radix (before.map stretch) := by
  induction before generalizing line column radix with
  | nil => exact ⟨h.1, h.2.1, h.2.2.1⟩
  | cons u before ih => exact ih h.2.2.2

/-- A visit of a source stands where the text before it ends. -/
theorem position_eq {source : Text} (h : Route 1 1 radix (before ++ v :: after))
    (hsource : (before ++ v :: after).map stretch = source.stretches) :
    v.position = Text.positionAfter ((before.map stretch).flatMap Stretch.source) := by
  obtain ⟨hline, hcolumn, -⟩ := h.place
  rw [map_append] at hsource
  rw [Text.positionAfter, Text.place_stretches hsource.symm, Visit.position, hline, hcolumn]

theorem start_le (h : Route line column radix w) :
    ∀ v ∈ w, line < v.line ∨ line = v.line ∧ column ≤ v.column := by
  induction w generalizing line column radix with
  | nil => exact forall_mem_nil _
  | cons u w ih =>
    obtain ⟨hline, hcolumn, -, hrest⟩ := h
    refine forall_mem_cons.mpr ⟨by omega, fun v hv => ?_⟩
    have hv := ih hrest v hv
    cases hs : u.stretch with
    | terminator t =>
      simp only [hs, Stretch.lineAfter, Stretch.columnAfter] at hv
      omega
    | lexeme | remark | setRadix | opening | closing | unended =>
      simp only [hs, Stretch.lineAfter, Stretch.columnAfter] at hv
      omega

/-- **Visits on a route stand one after another.** -/
theorem pairwise (h : Route line column radix w) :
    w.Pairwise fun u v => u.stretch.source ≠ [] → u.position.Before v.position := by
  induction w generalizing line column radix with
  | nil => exact .nil
  | cons u w ih =>
    obtain ⟨hline, hcolumn, -, hrest⟩ := h
    refine .cons (fun v hv hne => ?_) (ih hrest)
    have hv := hrest.start_le v hv
    have hpos := length_pos_of_ne_nil hne
    unfold Position.Before position
    cases hs : u.stretch with
    | terminator t =>
      simp only [hs, Stretch.lineAfter, Stretch.columnAfter] at hv
      simp only
      omega
    | lexeme | remark | setRadix | opening | closing | unended =>
      simp only [hs, Stretch.lineAfter, Stretch.columnAfter] at hv hpos
      simp only
      omega

end Visit.Route

end Macro10
