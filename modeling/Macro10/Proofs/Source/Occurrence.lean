import Macro10.Proofs.Source.Place

/-!
# The first occurrence of a word

A comment block ends with the line that holds its marker again. While lines are searched one after
another, here the text is searched as a whole (`Line.blockEnd`). The two agree, since a word lies
within one line (`Line.exists_block`).
-/

namespace Macro10

open Text (contains)

variable {t : Text}

/-- The number of symbols up to the end of the first occurrence of `part`. -/
def Text.endOfFirst (part : Text) : Text → Nat
  | [] => 0
  | s :: t => if part.isPrefixOf (s :: t) then part.length else endOfFirst part t + 1

namespace Line

variable {line : Line} {later xs ys : List Line} {m : Text} {s : Symbol}

/-- The number of symbols up to the end, terminator included, of the line that holds the end of the
first occurrence of `marker`. -/
def blockEnd (marker t : Text) : Nat :=
  let found := Text.endOfFirst marker t
  found + ((split (t.drop found)).head?.map fun line => line.text.length).getD 0

/-! ## Lines at the two ends of a text -/

theorem exists_split_eq (t : Text) : ∃ line later, split t = line :: later := by
  fun_cases split t with
  | case1 | case2 | case3 | case4 => exact ⟨_, _, rfl⟩
  | case5 s rest => cases split rest <;> exact ⟨_, _, rfl⟩

/-- The lines after the first one are those of the text after it. -/
theorem split_flatten_later (h : split t = line :: later)
    (hlater : later ≠ []) : split (flatten later) = later := by
  fun_induction split t generalizing line with
  | case1 =>
    obtain ⟨-, rfl⟩ := List.cons.inj h
    exact absurd rfl hlater
  | case2 rest ih | case3 rest _ ih | case4 rest ih =>
    obtain ⟨-, rfl⟩ := List.cons.inj h
    rw [flatten_split]
  | case5 s rest _ _ _ ih =>
    obtain ⟨first, lines, hrest⟩ := exists_split_eq rest
    rw [hrest] at h
    obtain ⟨-, rfl⟩ := List.cons.inj h
    exact ih hrest

theorem split_flatten_rest (h : split t = xs ++ ys) (hys : ys ≠ []) : split (flatten ys) = ys := by
  induction xs generalizing t with
  | nil => rw [← List.nil_append ys, ← h, flatten_split]
  | cons line xs ih => exact ih (split_flatten_later h (by simp [hys]))

theorem split_terminator_append {terminator : Terminator}
    (h : terminator = .carriageReturn → t.head? ≠ some (.char '\n')) :
    split (terminator.text ++ t) = ⟨[], some terminator⟩ :: split t := by
  cases terminator with
  | lineFeed | both => rfl
  | carriageReturn =>
    cases t with
    | nil => rfl
    | cons s rest =>
      have hs : s ≠ .char '\n' := fun hs => h rfl (congrArg some hs)
      show split (.char '\r' :: s :: rest) = _
      rw [split]
      exact fun _ hs' => hs (List.cons.inj hs').1

/-- A line that is written out is read back. -/
theorem split_text_append {content : Text} {terminator : Terminator}
    (hcontent : ∀ s ∈ content, s.endsLine = false)
    (h : terminator = .carriageReturn → t.head? ≠ some (.char '\n')) :
    split (content ++ terminator.text ++ t) = ⟨content, some terminator⟩ :: split t := by
  rw [List.append_assoc, split_append_of_not_endsLine hcontent (split_terminator_append h),
    List.append_nil]

/-- Lines at the start of a text, if others follow, are the lines of their own text, up to the
empty line at its end. -/
theorem split_flatten_init (h : split t = xs ++ ys) (hys : ys ≠ []) :
    split (flatten xs) = xs ++ [empty] := by
  induction xs generalizing t with
  | nil => rfl
  | cons line xs ih =>
    have hne : xs ++ ys ≠ [] := by simp [hys]
    have hended := ended_split t
    have hapart := apart_split t
    rw [h] at hended hapart
    obtain ⟨terminator, hterminator⟩ := Option.isSome_iff_exists.mp (hended.1 hne)
    have hhead : terminator = .carriageReturn → (flatten xs).head? ≠ some (.char '\n') := by
      rintro rfl hhead
      refine hapart.2.1 hterminator ?_
      show (flatten (xs ++ ys)).head? = _
      rw [flatten, List.flatMap_append, List.head?_append, ← flatten, hhead]
      rfl
    have hline : line.text = line.content ++ terminator.text := by
      rw [text, ending, hterminator]
      rfl
    rw [show flatten (line :: xs) = line.content ++ terminator.text ++ flatten xs by
        rw [flatten, List.flatMap_cons, hline, flatten],
      split_text_append hapart.1 hhead, ih (split_flatten_later h hne), ← hterminator]
    rfl

theorem isSome_terminator_of_mem (h : Ended (xs ++ ys)) (hys : ys ≠ [])
    (hline : line ∈ xs) : line.terminator.isSome := by
  induction xs with
  | nil => cases hline
  | cons first xs ih =>
    rcases List.mem_cons.mp hline with rfl | hline
    · exact h.1 (by simp [hys])
    · exact ih h.2 hline

theorem text_ne_nil_of_terminator (h : line.terminator.isSome) : line.text ≠ [] := by
  obtain ⟨terminator, hterminator⟩ := Option.isSome_iff_exists.mp h
  rw [text, ending, hterminator]
  cases terminator <;> simp [Terminator.text]

/-- The lines at the start of a text are the lines of their own text that are not empty. -/
theorem filter_split_flatten (h : split t = xs ++ ys)
    (hlast : ∀ line ∈ xs.getLast?, line.text ≠ []) :
    (split (flatten xs)).filter (·.text ≠ []) = xs := by
  by_cases hys : ys = []
  · subst hys
    rw [List.append_nil] at h
    rw [← h, flatten_split, h, List.filter_eq_self]
    intro line hline
    obtain rfl | ⟨init, last, rfl⟩ := List.eq_nil_or_concat xs
    · cases hline
    rw [List.concat_eq_append] at *
    rcases List.mem_append.mp hline with hline | hline
    · exact decide_eq_true (text_ne_nil_of_terminator
        (isSome_terminator_of_mem (h ▸ ended_split t) (List.cons_ne_nil _ _) hline))
    · exact decide_eq_true (hlast line (by rw [List.mem_singleton.mp hline]; simp))
  · rw [split_flatten_init h hys, List.filter_append, List.filter_eq_self.mpr,
      List.filter_eq_nil_iff.mpr, List.append_nil]
    · rintro line hline
      rw [List.mem_singleton.mp hline]
      decide
    · exact fun line hline => decide_eq_true (text_ne_nil_of_terminator
        (isSome_terminator_of_mem (h ▸ ended_split t) hys hline))

/-! ## Words lie within lines -/

theorem not_isPrefixOf_of_endsLine (hm : m ≠ []) (hends : ∀ s ∈ m, s.endsLine = false)
    (hs : s.endsLine = true) (t : Text) : m.isPrefixOf (s :: t) = false := by
  obtain ⟨first, m, rfl⟩ := List.exists_cons_of_ne_nil hm
  rw [List.isPrefixOf_cons_cons, Bool.and_eq_false_imp]
  intro heq
  rw [beq_iff_eq] at heq
  exact absurd (hends first List.mem_cons_self) (by rw [heq, hs]; decide)

theorem blockEnd_cons (h : m.isPrefixOf (s :: t) = false) :
    blockEnd m (s :: t) = blockEnd m t + 1 := by
  simp only [blockEnd, Text.endOfFirst, h, Bool.false_eq_true, if_false, List.drop_succ_cons]
  omega

theorem blockEnd_of_append (hm : m ≠ [])
    (h : split t = line :: later) : blockEnd m (m ++ t) = (m ++ line.text).length := by
  have hfound : Text.endOfFirst m (m ++ t) = m.length := by
    obtain ⟨first, m, rfl⟩ := List.exists_cons_of_ne_nil hm
    rw [List.cons_append, Text.endOfFirst, if_pos (by simp)]
  simp [blockEnd, hfound, h]

/-- The lines of a text, up to the first one that holds the word, and after it. -/
structure Block (m t : Text) (before : List Line) (line : Line) (later : List Line) : Prop where
  lines : split t = before ++ line :: later
  missing : ∀ l ∈ before, contains m l.content = false
  found : contains m line.content = true
  size : blockEnd m t = (flatten (before ++ [line])).length

section

variable {m t : Text} {before later : List Line} {line : Line}

/-- A terminator, which no word starts with, makes an empty line in front. -/
theorem Block.terminator (h : Block m t before line later) (hm : m ≠ []) {e : Terminator}
    (hsplit : split (e.text ++ t) = ⟨[], some e⟩ :: split t)
    (hsize : blockEnd m (e.text ++ t) = blockEnd m t + e.text.length) :
    Block m (e.text ++ t) (⟨[], some e⟩ :: before) line later where
  lines := by rw [hsplit, h.lines, List.cons_append]
  missing := List.forall_mem_cons.mpr ⟨by simp [contains, hm], h.missing⟩
  found := h.found
  size := by
    rw [hsize, h.size, List.cons_append, flatten, flatten, List.flatMap_cons, List.length_append]
    exact Nat.add_comm ..

/-- A word at the start of a text lies within the first line. -/
theorem block_of_append (hm : m ≠ []) (hends : ∀ s ∈ m, s.endsLine = false)
    (h : split t = line :: later) :
    Block m (m ++ t) [] { line with content := m ++ line.content } later where
  lines := split_append_of_not_endsLine hends h
  missing := nofun
  found := by
    obtain ⟨first, m, rfl⟩ := List.exists_cons_of_ne_nil hm
    rw [List.cons_append, contains, Bool.or_eq_true]
    exact .inl (by simp)
  size := by
    rw [blockEnd_of_append hm h]
    simp [flatten, text, ending]

/-- A symbol in front of the text belongs to the first line. -/
theorem Block.consFirst (h : Block m t before line later) {s : Symbol}
    (hsplit : split (s :: t) = consFirst s (split t)) (hstarts : m.isPrefixOf (s :: t) = false) :
    ∃ before line, Block m (s :: t) before line later := by
  have hsize := h.size
  rw [h.lines] at hsplit
  cases before with
  | nil =>
    refine ⟨[], { line with content := s :: line.content }, hsplit, nofun, ?_, ?_⟩
    · rw [contains, h.found, Bool.or_true]
    · rw [blockEnd_cons hstarts, hsize]
      simp [flatten, text, ending]
  | cons first before =>
    obtain ⟨hfirst, hbefore⟩ := List.forall_mem_cons.mp h.missing
    refine ⟨{ first with content := s :: first.content } :: before, line, hsplit,
      List.forall_mem_cons.mpr ⟨?_, hbefore⟩, h.found, ?_⟩
    · -- what the first line starts with, the text starts with
      have htext : first.content <+: t := by
        rw [← flatten_split t, h.lines]
        simp [flatten, text, List.append_assoc]
      rw [contains, hfirst, Bool.or_false, Bool.eq_false_iff]
      intro hline
      rw [List.isPrefixOf_iff_prefix] at hline
      have hcons : s :: first.content <+: s :: t := List.cons_prefix_cons.mpr ⟨rfl, htext⟩
      exact Bool.eq_false_iff.mp hstarts (List.isPrefixOf_iff_prefix.mpr (hline.trans hcons))
    · rw [blockEnd_cons hstarts, hsize]
      simp [flatten, text, ending, Nat.add_assoc]

/-- **The first line with a word holds its first occurrence.** -/
theorem exists_block (hm : m ≠ []) (hends : ∀ s ∈ m, s.endsLine = false)
    (h : contains m t = true) : ∃ before line later, Block m t before line later := by
  have hskip {s : Symbol} (hs : s.endsLine = true) (t : Text) :=
    not_isPrefixOf_of_endsLine hm hends hs t
  fun_induction split t with
  | case1 => simp [contains, hm] at h
  | case2 rest ih =>
    rw [contains, hskip rfl, Bool.false_or, contains, hskip rfl, Bool.false_or] at h
    obtain ⟨before, line, later, hblock⟩ := ih h
    refine ⟨_, line, later, hblock.terminator hm (e := .both) rfl ?_⟩
    show blockEnd m (.char '\r' :: .char '\n' :: rest) = blockEnd m rest + 2
    rw [blockEnd_cons (hskip rfl _), blockEnd_cons (hskip rfl _)]
  | case3 rest hrest ih =>
    rw [contains, hskip rfl, Bool.false_or] at h
    obtain ⟨before, line, later, hblock⟩ := ih h
    refine ⟨_, line, later, hblock.terminator hm (e := .carriageReturn) ?_ ?_⟩
    · exact split.eq_3 rest hrest
    · exact blockEnd_cons (hskip rfl _)
  | case4 rest ih =>
    rw [contains, hskip rfl, Bool.false_or] at h
    obtain ⟨before, line, later, hblock⟩ := ih h
    exact ⟨_, line, later, hblock.terminator hm (e := .lineFeed) rfl (blockEnd_cons (hskip rfl _))⟩
  | case5 s rest hboth hreturn hfeed ih =>
    cases hstarts : m.isPrefixOf (s :: rest) with
    | true =>
      obtain ⟨tail, htail⟩ := List.isPrefixOf_iff_prefix.mp hstarts
      obtain ⟨line, later, hsplit⟩ := exists_split_eq tail
      exact ⟨_, _, later, htail ▸ block_of_append hm hends hsplit⟩
    | false =>
      rw [contains, hstarts, Bool.false_or] at h
      obtain ⟨before, line, later, hblock⟩ := ih h
      obtain ⟨before, line, hblock⟩ :=
        hblock.consFirst (split.eq_5 s rest hboth hreturn hfeed) hstarts
      exact ⟨before, line, later, hblock⟩

theorem Block.text_ne_nil (h : Block m t before line later) (hm : m ≠ []) :
    ∀ l ∈ before ++ [line], l.text ≠ [] := by
  intro l hl
  rcases List.mem_append.mp hl with hl | hl
  · have hended := ended_split t
    rw [h.lines] at hended
    exact text_ne_nil_of_terminator (isSome_terminator_of_mem hended (List.cons_ne_nil _ _) hl)
  · rw [List.mem_singleton.mp hl]
    intro hempty
    have hfound := h.found
    rw [(List.append_eq_nil_iff.mp hempty).1] at hfound
    simp [contains, hm] at hfound

/-- The text of a block, and what comes after it. -/
theorem Block.take_eq (h : Block m t before line later) :
    t.take (blockEnd m t) = flatten (before ++ [line]) ∧ t.drop (blockEnd m t) = flatten later := by
  have ht : t = flatten (before ++ [line]) ++ flatten later := by
    conv_lhs => rw [← flatten_split t, h.lines]
    simp [flatten]
  rw [h.size]
  conv in t.take _ => rw [ht]
  conv in t.drop _ => rw [ht]
  simp

end

end Line

end Macro10
