import Macro10.Proofs.Source.Over

/-!
# Lines read one after another

The lines of a text that ends with a line terminator, and then those of the next text, are the lines
of both together (`exists_split_append`), and likewise for stretches, if the first text leaves no
comment block open (`Text.exists_stretches_append`).
-/

namespace Macro10

open List

/-! ## Lines of two texts -/

namespace Line

variable {lines : List Line} {s : Symbol} {t u : Text}

/-- The last line of a text that ends with a line terminator. -/
def empty : Line := ⟨[], none⟩

/-- The text is empty or ends with a line terminator. -/
def Whole (t : Text) : Prop :=
  t = [] ∨ t.getLast? = some (.char '\n') ∨ t.getLast? = some (.char '\r')
deriving Decidable

/-- A carriage return at the end of `t` and a line feed at the start of `u` would be one
terminator. -/
def Merges (t u : Text) : Prop :=
  t.getLast? = some (.char '\r') ∧ u.head? = some (.char '\n')
deriving Decidable

theorem consFirst_append (s : Symbol) (hne : lines ≠ []) (later : List Line) :
    consFirst s (lines ++ later) = consFirst s lines ++ later := by
  obtain ⟨line, lines, rfl⟩ := exists_cons_of_ne_nil hne
  rfl

theorem Whole.tail (h : Whole (s :: t))
    (hs : s ≠ .char '\n' ∧ s ≠ .char '\r') : t ≠ [] ∧ Whole t := by
  cases t with
  | nil => simp [Whole, hs.1, hs.2] at h
  | cons s' t => exact ⟨cons_ne_nil _ _, .inr (by simpa [Whole] using h)⟩

theorem Whole.of_cons (h : Whole (s :: t)) : Whole t := by
  cases t with
  | nil => exact .inl rfl
  | cons s' t => exact .inr (by simpa [Whole] using h)

theorem not_merges_of_cons (h : ¬Merges (s :: t) u) : ¬Merges t u := by
  cases t with
  | nil => exact fun hmerges => (nomatch hmerges.1)
  | cons s' t => simpa [Merges] using h

/-- The lines of two texts, if the first one falls into whole lines. -/
theorem exists_split_append (ht : Whole t) (hu : ¬Merges t u) :
    ∃ lines, split t = lines ++ [empty] ∧ split (t ++ u) = lines ++ split u ∧
      ∀ line ∈ lines, line.terminator.isSome := by
  fun_induction split t with
  | case1 => exact ⟨[], rfl, rfl, forall_mem_nil _⟩
  | case2 rest ih =>
    obtain ⟨lines, hsplit, happend, hlines⟩ := ih ht.of_cons.of_cons
      (not_merges_of_cons (not_merges_of_cons hu))
    refine ⟨⟨[], some .both⟩ :: lines, by rw [hsplit]; rfl, ?_, ?_⟩
    · rw [cons_append, cons_append, split, happend]
      rfl
    · exact forall_mem_cons.mpr ⟨rfl, hlines⟩
  | case3 rest hrest ih =>
    obtain ⟨lines, hsplit, happend, hlines⟩ := ih ht.of_cons (not_merges_of_cons hu)
    refine ⟨⟨[], some .carriageReturn⟩ :: lines, by rw [hsplit]; rfl, ?_, ?_⟩
    · -- no line feed follows the carriage return, in the text or after it
      have hne : ∀ rest', rest ++ u = .char '\n' :: rest' → False := by
        intro rest' h
        cases rest with
        | nil => exact hu ⟨rfl, congrArg List.head? h⟩
        | cons s rest => exact hrest rest (congrArg (· :: rest) (List.cons.inj h).1)
      rw [cons_append, split, happend]
      · rfl
      · exact hne
    · exact forall_mem_cons.mpr ⟨rfl, hlines⟩
  | case4 rest ih =>
    obtain ⟨lines, hsplit, happend, hlines⟩ := ih ht.of_cons (not_merges_of_cons hu)
    refine ⟨⟨[], some .lineFeed⟩ :: lines, by rw [hsplit]; rfl, ?_, ?_⟩
    · rw [cons_append, split, happend]
      rfl
    · exact forall_mem_cons.mpr ⟨rfl, hlines⟩
  | case5 s rest h₁ h₂ h₃ ih =>
    obtain ⟨hrest, hwhole⟩ := ht.tail ⟨h₃, h₂⟩
    obtain ⟨lines, hsplit, happend, hlines⟩ := ih hwhole (not_merges_of_cons hu)
    have hne : lines ≠ [] := by
      rintro rfl
      exact hrest (by simpa [hsplit, flatten, empty, text, ending] using (flatten_split rest).symm)
    refine ⟨consFirst s lines, by rw [hsplit, consFirst_append s hne], ?_, ?_⟩
    · rw [cons_append, split, happend, consFirst_append s hne]
      · rintro _ rfl h
        exact h₂ rfl
      · exact h₂
      · exact h₃
    · obtain ⟨line, lines, rfl⟩ := exists_cons_of_ne_nil hne
      exact forall_mem_cons.mpr (forall_mem_cons.mp hlines)

theorem split_append_of_not_endsLine {x : Text} (hx : ∀ s ∈ x, s.endsLine = false)
    {line : Line} (h : split t = line :: lines) :
    split (x ++ t) = { line with content := x ++ line.content } :: lines := by
  induction x with
  | nil => exact h
  | cons s x ih =>
    obtain ⟨hs, hx⟩ := forall_mem_cons.mp hx
    simp only [Symbol.endsLine, Symbol.is, Bool.or_eq_false_iff, beq_eq_false_iff_ne] at hs
    rw [cons_append, split, ih hx]
    · rfl
    · rintro _ rfl
      exact absurd rfl hs.2
    · exact hs.2
    · exact hs.1

/-- A text that starts with a line terminator has an empty first line. -/
theorem exists_split_eq_cons (h : t.head?.any Symbol.endsLine = true) :
    ∃ terminator lines, split t = ⟨[], some terminator⟩ :: lines := by
  fun_cases split t with
  | case1 => cases h
  | case2 rest => exact ⟨_, _, rfl⟩
  | case3 rest hrest => exact ⟨_, _, rfl⟩
  | case4 rest => exact ⟨_, _, rfl⟩
  | case5 s rest _ hreturn hfeed =>
    simp only [head?_cons, Option.any_some, Symbol.endsLine, Bool.or_eq_true, Symbol.is_iff] at h
    exact absurd h (not_or.mpr ⟨hfeed, hreturn⟩)

/-! ## Newlines -/

theorem newline_cons (line : Line) (lines : List Line) :
    newline (line :: lines) =
      match line.terminator with
      | some .both => Terminator.both.text
      | some .lineFeed => Terminator.lineFeed.text
      | _ => newline lines := by
  obtain ⟨content, terminator⟩ := line
  match terminator with
  | some .both | some .lineFeed | some .carriageReturn | none => rfl

theorem newline_congr {lines' : List Line}
    (h : lines'.map terminator = lines.map terminator) : newline lines' = newline lines := by
  induction lines generalizing lines' with
  | nil => rw [map_eq_nil_iff.mp h]
  | cons line lines ih =>
    cases lines' with
    | nil => cases h
    | cons line' lines' =>
      obtain ⟨hline, hlines⟩ := List.cons.inj h
      rw [newline_cons, newline_cons, hline, ih hlines]

theorem exists_newline_eq (lines : List Line) : ∃ t : Terminator, newline lines = t.text := by
  induction lines with
  | nil => exact ⟨.lineFeed, rfl⟩
  | cons line lines ih =>
    rw [newline_cons]
    split
    · exact ⟨.both, rfl⟩
    · exact ⟨.lineFeed, rfl⟩
    · exact ih

/-- One more line that ends with the newline of a text changes nothing. -/
theorem newline_append {t : Terminator} (h : newline (lines ++ [empty]) = t.text) (content : Text) :
    newline (lines ++ [⟨content, some t⟩, empty]) = t.text := by
  induction lines with
  | nil =>
    cases t with
    | lineFeed => rfl
    | both => rfl
    | carriageReturn => cases h
  | cons line lines ih =>
    rw [cons_append, newline_cons] at h ⊢
    split at h
    · exact h
    · exact h
    · exact ih h

end Line

/-! ## Their stretches -/

namespace Line

/-- The notice after a line that opens a comment block, if the block does not end. -/
def notice (marker : Option Text) (later : List Line) : List Stretch :=
  match marker with
  | some m => if later.any fun l => Text.contains m l.content then [] else [.unended m]
  | none => []

/-- The stretches of a line end with its terminator, and perhaps a notice. -/
theorem exists_stretches (line : Line) {column : Nat} {text : Text} {segments : List Segment}
    (h : Segment.Cover column text segments) :
    ∃ front marker, (∀ m, marker = some m → m ≠ []) ∧ ∀ later,
      line.stretches later segments = (front ++ line.ended ++ notice marker later, marker) := by
  induction h with
  | lineEnd column text =>
    simp only [stretches, endStretches]
    cases hclass : LineClass.ofSegment ⟨column, text, .lineEnd⟩ with
    | commentBlock m =>
      refine ⟨[.remark line.content], some m, ?_, fun later => rfl⟩
      rintro _ ⟨⟩
      exact Text.ne_nil_of_mem_words (LineClass.mem_words (.inl hclass))
    | setRadix operand =>
      exact ⟨[.setRadix line.content operand], none, by simp, fun later => by simp [notice]⟩
    | suppressed =>
      exact ⟨[.remark line.content], none, by simp, fun later => by simp [notice, remark]⟩
    | code => exact ⟨Stretch.ofCode text, none, by simp, fun later => by simp [notice]⟩
  | opening text h ih =>
    obtain ⟨front, marker, hmarker, heq⟩ := ih
    exact ⟨Stretch.ofCode text ++ .opening :: front, marker, hmarker,
      fun later => by simp [stretches, heq]⟩
  | closing text h ih =>
    obtain ⟨front, marker, hmarker, heq⟩ := ih
    exact ⟨Stretch.ofCode text ++ .closing :: front, marker, hmarker,
      fun later => by simp [stretches, heq]⟩

/-- The stretches end with a terminator, or there are none. -/
def Done (xs : List Stretch) : Prop := xs = [] ∨ ∃ ys t, xs = ys ++ [.terminator t]

theorem Done.line {line : Line} (h : line.terminator.isSome) {xs : List Stretch} (hxs : Done xs)
    (front : List Stretch) : Done (front ++ line.ended ++ xs) := by
  obtain ⟨t, ht⟩ := Option.isSome_iff_exists.mp h
  rcases hxs with rfl | ⟨ys, u, rfl⟩
  · exact .inr ⟨front, t, by simp [ended, ht]⟩
  · exact .inr ⟨front ++ line.ended ++ ys, u, by simp⟩

/-- **The stretches of whole lines** that leave no comment block open do not depend on the lines to
come. -/
theorem exists_allStretches_append {marker : Option Text} {lines : List Line}
    (hlines : ∀ line ∈ lines, line.terminator.isSome)
    (hmarker : ∀ m, marker = some m → ∃ l ∈ lines, Text.contains m l.content)
    (hended : ∀ m, .unended m ∉ allStretches marker (lines ++ [empty])) :
    ∃ xs, Done xs ∧
      ∀ later, allStretches marker (lines ++ later) = xs ++ allStretches none later := by
  induction lines generalizing marker with
  | nil =>
    cases marker with
    | none => exact ⟨[], .inl rfl, fun later => rfl⟩
    | some m =>
      obtain ⟨l, hl, -⟩ := hmarker m rfl
      cases hl
  | cons line lines ih =>
    obtain ⟨hline, hlines⟩ := forall_mem_cons.mp hlines
    cases marker with
    | some m =>
      rw [cons_append, allStretches] at hended
      have hnext : ∀ m', (if Text.contains m line.content then none else some m) = some m' →
          ∃ l ∈ lines, Text.contains m' l.content := by
        intro m' hm'
        split at hm'
        · cases hm'
        · next hnot =>
          cases hm'
          obtain ⟨l, hl, hcontains⟩ := hmarker m rfl
          rcases mem_cons.mp hl with rfl | hl
          · exact absurd hcontains hnot
          · exact ⟨l, hl, hcontains⟩
      obtain ⟨xs, hdone, hxs⟩ := ih hlines hnext fun m hm => hended m (mem_append_right _ hm)
      refine ⟨[.remark line.content] ++ line.ended ++ xs, hdone.line hline _, fun later => ?_⟩
      obtain ⟨t, ht⟩ := Option.isSome_iff_exists.mp hline
      rw [cons_append, allStretches, hxs, blockStretches, if_neg (by simp [ht]), remark]
      simp
    | none =>
      obtain ⟨front, marker, hne, heq⟩ :=
        line.exists_stretches (Segment.cover_segments line.content)
      simp only [cons_append, allStretches, heq] at hended ⊢
      -- The block that the line opens ends within the lines: the last one is empty.
      have hcontains : ∀ m, marker = some m → ∃ l ∈ lines, Text.contains m l.content := by
        rintro m rfl
        by_contra hnot
        refine hended m (mem_append_left _ (mem_append_right _ ?_))
        rw [notice, if_neg]
        · exact mem_singleton.mpr rfl
        · rw [any_append, Bool.or_eq_true, any_eq_true, any_eq_true]
          rintro (hl | ⟨l, hl, hcontains⟩)
          · exact hnot hl
          · obtain rfl := mem_singleton.mp hl
            exact hne m rfl (List.isEmpty_iff.mp hcontains)
      have hnotice (later : List Line) : notice marker (lines ++ later) = [] := by
        cases marker with
        | none => rfl
        | some m =>
          obtain ⟨l, hl, hcontains⟩ := hcontains m rfl
          exact if_pos (any_eq_true.mpr ⟨l, mem_append_left _ hl, hcontains⟩)
      obtain ⟨xs, hdone, hxs⟩ := ih hlines hcontains fun m hm =>
        hended m (mem_append_right _ hm)
      refine ⟨front ++ line.ended ++ xs, hdone.line hline front, fun later => ?_⟩
      rw [hnotice, hxs]
      simp

end Line

/-- **The stretches of two texts,** if the first one falls into whole lines and leaves no comment
block open. -/
theorem Text.exists_stretches_append {t u : Text} (ht : Line.Whole t) (hu : ¬Line.Merges t u)
    (hended : ∀ m, .unended m ∉ t.stretches) :
    Line.Done t.stretches ∧ (t ++ u).stretches = t.stretches ++ u.stretches := by
  obtain ⟨lines, hsplit, happend, hlines⟩ := Line.exists_split_append ht hu
  rw [stretches, hsplit] at hended
  obtain ⟨xs, hdone, hxs⟩ := Line.exists_allStretches_append hlines (fun _ h => by cases h) hended
  have hfirst : t.stretches = xs := by
    rw [stretches, hsplit, hxs]
    exact append_nil xs
  refine ⟨hfirst ▸ hdone, ?_⟩
  rw [hfirst, stretches, happend, hxs]
  rfl

/-! ## Reading them -/

namespace Reader

variable {r r' : Reader} {line column : Nat} {xs : List Stretch}

theorem exists_of_unended {m : Text} (hm : .unended m ∈ xs)
    (h : r.takeAll line column xs = .ok r') :
    ∃ d ∈ r'.diagnostics, d.problem = .blockNeverClosed m := by
  obtain ⟨ys, zs, rfl⟩ := append_of_mem hm
  rw [takeAll_append] at h
  obtain ⟨r₁, -, h⟩ := bind_eq_ok.mp h
  obtain ⟨r₂, h₂, h⟩ := bind_eq_ok.mp h
  cases h₂
  exact ⟨_, (steps_takeAll h).diagnostics.subset (mem_append_right _ (mem_singleton.mpr rfl)), rfl⟩

/-- After whole lines the last piece is a line terminator, if there is one. -/
theorem items_of_done (hxs : Line.Done xs) {radix : Option Int}
    (h : ({ radix } : Reader).takeAll line column xs = .ok r) :
    r.scope.items = [] ∨ ∃ (t : Terminator) (rest : List Item),
      r.scope.items = .node { kind := .whitespace, text := t.text } [] :: rest := by
  rcases hxs with rfl | ⟨ys, t, rfl⟩
  · cases h
    exact .inl rfl
  · rw [takeAll_append] at h
    obtain ⟨r₁, -, h⟩ := bind_eq_ok.mp h
    cases h
    exact .inr ⟨t, _, rfl⟩

end Reader

end Macro10
