import Macro10.Proofs.Brackets.Matching
import Macro10.Proofs.Source.Place

/-!
# Structural brackets

A bracket is structural if it stands outside strings and comments, and its line is not kept as a
comment from an earlier `<` on. This is said of the text before the bracket (`Text.isStructural`),
and these are the brackets at which a source is cut (`Visit.Route.brackets_eq`).
-/

namespace Macro10

open List

variable {column : Nat} {mode : Mode} {s : Stretch} {text : Text}

open Segment (Mode)

/-! ## Strings, comments and directives -/

/-- How symbols are looked at after one more of them. -/
def Segment.Mode.after : Mode → Symbol → Mode
  | code, s => if s = .char '"' then quoted else if s = .char ';' then verbatim else code
  | quoted, s => if s = .char '"' then code else quoted
  | verbatim, _ => verbatim

/-- The symbol is a bracket. -/
def Symbol.isBracket (s : Symbol) : Bool := s = .char '<' || s = .char '>'

namespace Text

/-- How symbols are looked at after the text, as far as strings and comments go. -/
def modeAfter (t : Text) : Mode := t.foldl Mode.after .code

/-- Some symbol of the text has the property, given what stands before it. -/
def anySplit (p : Text → Symbol → Bool) (t : Text) : Bool :=
  (List.range t.length).any fun i => t[i]?.any (p (t.take i))

/-- The text holds a bracket outside strings and comments. -/
def hasBracket : Text → Bool := anySplit fun before s => s.isBracket && modeAfter before = .code

/-- The text is a directive that is not converted; if a `<` follows, the line is kept as a
comment. -/
def isDirective (t : Text) : Bool :=
  modeAfter t = .code && !hasBracket t && Keyword.isSuppressed t

/-- The text holds a `<` from which on the line is kept as a comment. -/
def isKept : Text → Bool := anySplit fun before s => s = .char '<' && isDirective before

/-- The symbol is a structural bracket in a line in which `before` stands before it. -/
def isStructural (before : Text) (s : Symbol) : Bool :=
  s.isBracket && modeAfter before = .code && !isKept before &&
    !(s = .char '<' && isDirective before)

theorem modeAfter_concat (t : Text) (s : Symbol) :
    modeAfter (t ++ [s]) = (modeAfter t).after s := by
  rw [modeAfter, foldl_append]
  rfl

theorem anySplit_concat (p : Text → Symbol → Bool) (t : Text) (s : Symbol) :
    anySplit p (t ++ [s]) = (anySplit p t || p t s) := by
  have hearlier : (List.range t.length).any
      (fun i => (t ++ [s])[i]?.any (p ((t ++ [s]).take i))) = anySplit p t := by
    rw [anySplit, Bool.eq_iff_iff, any_eq_true, any_eq_true]
    refine exists_congr fun i => and_congr_right fun hi => ?_
    have hi := mem_range.mp hi
    rw [getElem?_append_left hi, take_append_of_le_length hi.le]
  rw [anySplit, length_append, length_singleton, range_succ, any_append, hearlier]
  simp

end Text

/-! ## The brackets of a source -/

/-- The bracket that the symbol is. -/
def Bracket.ofSymbol (s : Symbol) (position : Position) : Bracket :=
  if s = .char '<' then opening position else closing position

namespace Line

/-- The structural brackets of the rest of a line; `before` stands before it. -/
def bracketsAfter (number : Nat) (before : Text) : Text → List Bracket
  | [] => []
  | s :: rest =>
    (if Text.isStructural before s then [Bracket.ofSymbol s ⟨number, before.length + 1⟩] else []) ++
      bracketsAfter number (before ++ [s]) rest

/-- The structural brackets of a line. -/
def brackets (number : Nat) (line : Line) : List Bracket := bracketsAfter number [] line.content

/-- The marker of the comment block that the line opens. -/
def block? (line : Line) : Option Text :=
  match LineClass.ofSegment ⟨1, line.content, .lineEnd⟩ with
  | .commentBlock marker => if line.brackets 1 = [] then some marker else none
  | _ => none

/-- The structural brackets of lines; within a comment block, `marker` ends it. -/
def allBrackets (number : Nat) (marker : Option Text) : List Line → List Bracket
  | [] => []
  | line :: later =>
    match marker with
    | some m => allBrackets (number + 1)
        (if Text.contains m line.content then none else some m) later
    | none => line.brackets number ++ allBrackets (number + 1) line.block? later

end Line

/-- The structural brackets of a source. -/
def Text.brackets (source : Text) : List Bracket := Line.allBrackets 1 none (Line.split source)

/-! ## The brackets at which a line is cut -/

namespace Segment

/-- The bracket that ends the segment. -/
def bracket? (number : Nat) (segment : Segment) : Option Bracket :=
  match segment.stop with
  | .opening => some (.opening ⟨number, segment.stopColumn⟩)
  | .closing => some (.closing ⟨number, segment.stopColumn⟩)
  | .lineEnd => none

/-- After `before`, the line is looked at in the given mode, and the segment that starts in the
given column has the symbols `done` so far. -/
structure Scanned (before : Text) (column : Nat) (done : Text) (mode : Mode) : Prop where
  start : ∃ earlier, before = earlier ++ done.reverse ∧ column = earlier.length + 1
  verbatim : mode = .verbatim → Text.modeAfter before = .verbatim ∨ Text.isKept before = true
  other : mode ≠ .verbatim → Text.modeAfter before = mode ∧ Text.isKept before = false ∧
    (Text.hasBracket before = true ↔ column ≠ 1)

namespace Scanned

variable {before done : Text} {number : Nat} {s : Symbol}

section

variable (h : Scanned before column done mode)
include h

theorem length_eq : column + done.length = before.length + 1 := by
  obtain ⟨earlier, rfl, rfl⟩ := h.start
  simp only [length_append, length_reverse]
  omega

theorem start_cons (s : Symbol) :
    ∃ earlier, before ++ [s] = earlier ++ (s :: done).reverse ∧ column = earlier.length + 1 := by
  obtain ⟨earlier, rfl, hcolumn⟩ := h.start
  exact ⟨earlier, by simp, hcolumn⟩

/-- One more symbol of the same segment, which is no bracket outside strings and comments. -/
theorem next (hmode : mode ≠ .verbatim) (hs : s.isBracket = true → mode ≠ .code) :
    Scanned (before ++ [s]) column (s :: done) (mode.after s) := by
  obtain ⟨hafter, hkept, hbracket⟩ := h.other hmode
  have hinside : (s.isBracket && decide (Text.modeAfter before = .code)) = false := by
    rw [hafter, Bool.and_eq_false_iff]
    by_cases hb : s.isBracket = true
    · exact .inr (decide_eq_false (hs hb))
    · exact .inl (Bool.eq_false_iff.mpr hb)
  have hdirective : (decide (s = .char '<') && Text.isDirective before) = false := by
    by_cases hopen : s = .char '<'
    · have hcode := hs (by rw [hopen]; rfl)
      rw [Text.isDirective, hafter, decide_eq_false hcode]
      simp
    · simp [hopen]
  refine ⟨h.start_cons s, fun hverbatim => .inl ?_, fun _ => ⟨?_, ?_, ?_⟩⟩
  · rw [Text.modeAfter_concat, hafter, hverbatim]
  · rw [Text.modeAfter_concat, hafter]
  · rw [Text.isKept, Text.anySplit_concat, ← Text.isKept, hkept, hdirective]
    rfl
  · rw [Text.hasBracket, Text.anySplit_concat, ← Text.hasBracket, hinside, Bool.or_false]
    exact hbracket

end

theorem next_verbatim (h : Scanned before column done .verbatim) (s : Symbol) :
    Scanned (before ++ [s]) column (s :: done) .verbatim := by
  refine ⟨h.start_cons s, fun _ => ?_, fun hne => absurd rfl hne⟩
  rcases h.verbatim rfl with hmode | hkept
  · exact .inl (by rw [Text.modeAfter_concat, hmode]; rfl)
  · exact .inr (by rw [Text.isKept, Text.anySplit_concat, ← Text.isKept, hkept, Bool.true_or])

section

variable (h : Scanned before column done .code)
include h

theorem next_directive (hdirective : Text.isDirective before = true) :
    Scanned (before ++ [.char '<']) column (.char '<' :: done) .verbatim := by
  refine ⟨h.start_cons _, fun _ => .inr ?_, fun hne => absurd rfl hne⟩
  rw [Text.isKept, Text.anySplit_concat, hdirective]
  simp

theorem next_structural (hs : Text.isStructural before s = true) :
    Scanned (before ++ [s]) (column + done.length + 1) [] .code := by
  obtain ⟨hafter, hkept, -⟩ := h.other (by decide)
  simp only [Text.isStructural, Bool.and_eq_true, Bool.not_eq_true', decide_eq_true_eq] at hs
  obtain ⟨⟨⟨hbracket, -⟩, -⟩, hdirective⟩ := hs
  refine ⟨⟨before ++ [s], by simp, ?_⟩, nofun, fun _ => ⟨?_, ?_, ?_⟩⟩
  · rw [h.length_eq, length_append, length_singleton]
  · rw [Text.modeAfter_concat, hafter]
    simp only [Symbol.isBracket, Bool.or_eq_true, decide_eq_true_eq] at hbracket
    rcases hbracket with rfl | rfl <;> rfl
  · rw [Text.isKept, Text.anySplit_concat, ← Text.isKept, hkept, hdirective]
    rfl
  · rw [Text.hasBracket, Text.anySplit_concat, hbracket, hafter]
    have hlength := h.length_eq
    simp only [decide_true, Bool.and_self, Bool.or_true, true_iff]
    omega

/-- Whether a directive stands before a bracket can be read off the segment. -/
theorem isDirective_eq :
    Text.isDirective before = (column = 1 && Keyword.isSuppressed done.reverse) := by
  obtain ⟨hafter, -, hbracket⟩ := h.other (by decide)
  rw [Text.isDirective, hafter]
  by_cases hcolumn : column = 1
  · have hnone : Text.hasBracket before = false := by
      rw [Bool.eq_false_iff]
      exact fun hb => hbracket.mp hb hcolumn
    obtain ⟨earlier, rfl, hstart⟩ := h.start
    obtain rfl : earlier = [] := length_eq_zero_iff.mp (by omega)
    rw [nil_append] at hnone ⊢
    simp [hcolumn, hnone]
  · simp [hcolumn, hbracket.mpr hcolumn]

end

end Scanned

/-- **A line is cut at its structural brackets.** -/
theorem filterMap_bracket?_segmentsFrom {number : Nat} {before done rest : Text}
    (h : Scanned before column done mode) :
    (segmentsFrom column done mode rest).filterMap (bracket? number) =
      Line.bracketsAfter number before rest := by
  have hplain {before : Text} {s : Symbol} {rest : Text}
      (hs : Text.isStructural before s = false) :
      Line.bracketsAfter number before (s :: rest) =
        Line.bracketsAfter number (before ++ [s]) rest := by
    rw [Line.bracketsAfter, hs]
    rfl
  have hbracket {before done : Text} {column : Nat} {s : Symbol} {rest : Text}
      (h : Scanned before column done .code) (hs : Text.isStructural before s = true) :
      Line.bracketsAfter number before (s :: rest) =
        Bracket.ofSymbol s ⟨number, (column + done.length : Nat)⟩ ::
          Line.bracketsAfter number (before ++ [s]) rest := by
    rw [Line.bracketsAfter, hs, h.length_eq]
    rfl
  fun_induction segmentsFrom column done mode rest generalizing before with
  | case1 column done mode => rfl
  | case2 column done s rest ih =>
    rw [ih (h.next_verbatim s), hplain]
    rcases h.verbatim rfl with hmode | hkept
    · simp [Text.isStructural, hmode]
    · simp [Text.isStructural, hkept]
  | case3 column done s rest ih =>
    have hnext := h.next (s := s) (by decide) fun _ => by decide
    rw [hplain (by simp [Text.isStructural, (h.other (by decide)).1])]
    exact ih hnext
  | case4 column done rest ih =>
    have hnext := h.next (s := .char '"') (by decide) (by decide)
    rw [hplain (by simp [Text.isStructural, Symbol.isBracket])]
    exact ih hnext
  | case5 column done rest hs ih =>
    have hnext := h.next (s := .char ';') (by decide) (by decide)
    rw [hplain (by simp [Text.isStructural, Symbol.isBracket])]
    exact ih hnext
  | case6 column done rest hsuppressed hs hs' ih =>
    have hdirective : Text.isDirective before = true := by rw [h.isDirective_eq, hsuppressed]
    rw [hplain (by simp [Text.isStructural, hdirective])]
    exact ih (h.next_directive hdirective)
  | case7 column done rest hopen hs hs' ih =>
    obtain ⟨hafter, hkept, -⟩ := h.other (by decide)
    have hdirective : Text.isDirective before = false := by
      rw [h.isDirective_eq, Bool.eq_false_iff.mpr hopen]
    have hstructural : Text.isStructural before (.char '<') = true := by
      simp [Text.isStructural, Symbol.isBracket, hafter, hkept, hdirective]
    rw [hbracket h hstructural, ← ih (h.next_structural hstructural)]
    simp [bracket?, stopColumn, Bracket.ofSymbol]
  | case8 column done rest hs hs' hs'' ih =>
    obtain ⟨hafter, hkept, -⟩ := h.other (by decide)
    have hstructural : Text.isStructural before (.char '>') = true := by
      simp [Text.isStructural, Symbol.isBracket, hafter, hkept]
    rw [hbracket h hstructural, ← ih (h.next_structural hstructural)]
    simp [bracket?, stopColumn, Bracket.ofSymbol]
  | case9 column done s rest hs hs' hs'' hs''' ih =>
    have hplainSymbol : s.isBracket = false := by simp [Symbol.isBracket, hs'', hs''']
    have hnext := h.next (s := s) (by decide) (by simp [hplainSymbol])
    rw [hplain (by simp [Text.isStructural, hplainSymbol])]
    exact ih (by simpa [Mode.after, hs, hs'] using hnext)

theorem filterMap_bracket?_segments (number : Nat) (line : Line) :
    (segments line.content).filterMap (bracket? number) = line.brackets number :=
  filterMap_bracket?_segmentsFrom ⟨⟨[], rfl, rfl⟩, nofun, fun _ => ⟨rfl, rfl, by decide⟩⟩

end Segment

/-! ## The brackets among the stretches -/

namespace Stretch

/-- The bracket that the stretch at the given place is. -/
def bracket? (line column : Nat) : Stretch → Option Bracket
  | opening => some (.opening ⟨line, column⟩)
  | closing => some (.closing ⟨line, column⟩)
  | _ => none

/-- The brackets among stretches, the first of which starts at the given place. -/
def brackets (line column : Nat) : List Stretch → List Bracket
  | [] => []
  | s :: rest =>
    (s.bracket? line column).toList ++ brackets (s.lineAfter line) (s.columnAfter column) rest

theorem brackets_append (line column : Nat) (xs ys : List Stretch) :
    brackets line column (xs ++ ys) =
      brackets line column xs ++ brackets (linesAfter line xs) (columnsAfter column xs) ys := by
  induction xs generalizing line column with
  | nil => rfl
  | cons s xs ih =>
    simp only [cons_append, brackets, ih, append_assoc, linesAfter_cons, columnsAfter_cons]

theorem brackets_eq_nil {stretches : List Stretch} (line column : Nat)
    (h : ∀ s ∈ stretches, s ≠ opening ∧ s ≠ closing) : brackets line column stretches = [] := by
  induction stretches generalizing line column with
  | nil => rfl
  | cons s rest ih =>
    obtain ⟨⟨hopening, hclosing⟩, hrest⟩ := forall_mem_cons.mp h
    rw [brackets, ih _ _ hrest, append_nil]
    cases s with
    | opening => exact absurd rfl hopening
    | closing => exact absurd rfl hclosing
    | lexeme | terminator | remark | setRadix | unended => rfl

theorem ne_bracket_of_mem_ofCode (h : s ∈ ofCode text) : s ≠ opening ∧ s ≠ closing := by
  obtain ⟨l, -, rfl⟩ := mem_map.mp h
  exact ⟨nofun, nofun⟩

end Stretch

namespace Line

variable {line : Line} {later : List Line} {segments : List Segment}

theorem ne_bracket_of_mem_remark (h : s ∈ line.remark) : s ≠ .opening ∧ s ≠ .closing := by
  rcases mem_cons.mp h with rfl | h
  · exact ⟨nofun, nofun⟩
  · obtain ⟨t, -, rfl⟩ := mem_map.mp h
    exact ⟨nofun, nofun⟩

theorem ne_bracket_of_mem_endStretches {segment : Segment}
    (h : s ∈ (line.endStretches later segment).1) : s ≠ .opening ∧ s ≠ .closing := by
  unfold endStretches at h
  split at h
  · rcases mem_append.mp h with h | h
    · exact ne_bracket_of_mem_remark h
    · split at h
      · cases h
      · rcases mem_singleton.mp h with rfl
        exact ⟨nofun, nofun⟩
  · rcases mem_cons.mp h with rfl | h
    · exact ⟨nofun, nofun⟩
    · exact ne_bracket_of_mem_remark (mem_cons_of_mem _ h)
  · exact ne_bracket_of_mem_remark h
  · rcases mem_append.mp h with h | h
    · exact Stretch.ne_bracket_of_mem_ofCode h
    · exact ne_bracket_of_mem_remark (mem_cons_of_mem _ h)

theorem brackets_stretches (number : Nat) (h : Segment.Cover column text segments) :
    Stretch.brackets number column (line.stretches later segments).1 =
      segments.filterMap (Segment.bracket? number) := by
  induction h with
  | lineEnd column text =>
    exact Stretch.brackets_eq_nil _ _ fun s hs => ne_bracket_of_mem_endStretches hs
  | @opening column tail rest text h ih | @closing column tail rest text h ih =>
    simp only [stretches, Stretch.brackets_append, Stretch.linesAfter_ofCode,
      Stretch.columnsAfter_ofCode,
      Stretch.brackets_eq_nil _ _ fun s hs => Stretch.ne_bracket_of_mem_ofCode hs]
    show _ :: Stretch.brackets number (column + text.length + 1) _ = _
    rw [ih]
    rfl

theorem marker_stretches_of_ne_one (h : Segment.Cover column text segments) (hcolumn : 1 < column) :
    (line.stretches later segments).2 = none := by
  induction h with
  | lineEnd column text =>
    have hcode : LineClass.ofSegment ⟨column, text, .lineEnd⟩ = .code := by
      rw [LineClass.ofSegment, if_pos hcolumn.ne']
    rw [stretches, endStretches]
    simp only [hcode]
  | opening text h ih | closing text h ih => exact ih (by omega)

theorem marker_stretches (line : Line) (later : List Line) :
    (line.stretches later (Segment.segments line.content)).2 = line.block? := by
  have hbrackets := Segment.filterMap_bracket?_segments 1 line
  have hcover := Segment.cover_segments line.content
  rw [block?, ← hbrackets]
  obtain ⟨content, terminator⟩ := line
  simp only at hcover ⊢
  generalize Segment.segments content = segments at hcover
  cases hcover with
  | lineEnd =>
    rw [stretches, endStretches]
    cases LineClass.ofSegment ⟨1, content, .lineEnd⟩ <;> simp [Segment.bracket?]
  | @opening _ tail rest text h | @closing _ tail rest text h =>
    have hnone (line : Line) : (line.stretches later rest).2 = none :=
      marker_stretches_of_ne_one h (by omega)
    rw [stretches]
    simp only [hnone]
    split
    · simp [Segment.bracket?]
    · rfl

theorem brackets_allStretches (number : Nat) (marker : Option Text) {lines : List Line}
    (h : Line.Ended lines) :
    Stretch.brackets number 1 (allStretches marker lines) = allBrackets number marker lines := by
  induction lines generalizing number marker with
  | nil => rfl
  | cons line later ih =>
    cases marker with
    | some m =>
      have hnone : Stretch.brackets number 1 line.blockStretches = [] := by
        refine Stretch.brackets_eq_nil _ _ fun s hs => ?_
        unfold blockStretches at hs
        split at hs
        · cases hs
        · exact ne_bracket_of_mem_remark hs
      rw [allStretches, allBrackets, Stretch.brackets_append, hnone, nil_append,
        ← ih (number + 1) _ h.2]
      cases later with
      | nil => rfl
      | cons next later =>
        obtain ⟨hlines, hcolumns⟩ :=
          linesAfter_blockStretches (h.1 (cons_ne_nil _ _)) number
        rw [hlines, hcolumns]
    | none =>
      have hcover := Segment.cover_segments line.content
      rw [allStretches, allBrackets, Stretch.brackets_append, brackets_stretches number hcover,
        Segment.filterMap_bracket?_segments, marker_stretches, ← ih (number + 1) _ h.2]
      cases later with
      | nil => rfl
      | cons next later =>
        obtain ⟨hlines, hcolumns⟩ :=
          linesAfter_stretches (h.1 (cons_ne_nil _ _)) number hcover
        rw [hlines, hcolumns]

end Line

/-! ## The brackets on a route -/

namespace Visit

variable {v : Visit} {line : Nat} {radix : Option Int} {w : List Visit}

/-- The bracket that the visited stretch is. -/
def bracket? (v : Visit) : Option Bracket := v.stretch.bracket? v.line v.column

/-- The brackets among the visits. -/
def brackets (w : List Visit) : List Bracket := w.filterMap bracket?

@[simp]
theorem brackets_append (w w' : List Visit) : brackets (w ++ w') = brackets w ++ brackets w' :=
  filterMap_append

theorem brackets_opening (hv : v.stretch = .opening) (w : List Visit) :
    brackets (v :: w) = .opening v.position :: brackets w := by
  simp [brackets, bracket?, hv, Stretch.bracket?, position]

theorem brackets_closing (hv : v.stretch = .closing) (w : List Visit) :
    brackets (v :: w) = .closing v.position :: brackets w := by
  simp [brackets, bracket?, hv, Stretch.bracket?, position]

theorem Route.brackets_eq_stretches (h : Route line column radix w) :
    brackets w = Stretch.brackets line column (w.map stretch) := by
  induction w generalizing line column radix with
  | nil => rfl
  | cons v w ih =>
    obtain ⟨hline, hcolumn, -, hrest⟩ := h
    rw [map_cons, Stretch.brackets, ← ih hrest, brackets, filterMap_cons, bracket?, hline, hcolumn]
    cases v.stretch.bracket? line column <;> rfl

/-- **The brackets at which a source is cut are its structural brackets.** -/
theorem Route.brackets_eq {source : Text} (h : Route 1 1 radix w)
    (hw : w.map stretch = source.stretches) : brackets w = source.brackets := by
  rw [h.brackets_eq_stretches, hw]
  exact Line.brackets_allStretches 1 none (Line.ended_split source)

theorem position_of_bracket? {b : Bracket} (h : v.bracket? = some b) :
    (b = .opening v.position ∧ v.stretch = .opening ∨
      b = .closing v.position ∧ v.stretch = .closing) ∧ v.stretch.source ≠ [] := by
  unfold bracket? at h
  cases hs : v.stretch with
  | opening =>
    rw [hs] at h
    exact ⟨.inl ⟨(Option.some.inj h).symm, rfl⟩, cons_ne_nil _ _⟩
  | closing =>
    rw [hs] at h
    exact ⟨.inr ⟨(Option.some.inj h).symm, rfl⟩, cons_ne_nil _ _⟩
  | lexeme | terminator | remark | setRadix | unended => rw [hs] at h; cases h

theorem Route.nodup_brackets (h : Route line column radix w) :
    (Bracket.openings (brackets w)).Nodup ∧ (Bracket.closings (brackets w)).Nodup := by
  have hpairwise := h.pairwise
  have hnodup (f : Bracket → Option Position)
      (hf : ∀ {v : Visit} {p}, v.bracket?.bind f = some p → p = v.position ∧
      v.stretch.source ≠ []) :
      ((brackets w).filterMap f).Nodup := by
    rw [brackets, filterMap_filterMap]
    refine List.Pairwise.filterMap _ (fun u v huv p hp q hq => ?_) hpairwise
    obtain ⟨rfl, hne⟩ := hf hp
    obtain ⟨rfl, -⟩ := hf hq
    exact (huv hne).ne
  constructor
  · refine hnodup _ fun {v p} hp => ?_
    obtain ⟨b, hb, hp⟩ := Option.bind_eq_some_iff.mp hp
    obtain ⟨⟨rfl, -⟩ | ⟨rfl, -⟩, hne⟩ := position_of_bracket? hb
    · exact ⟨(Option.some.inj hp).symm, hne⟩
    · cases hp
  · refine hnodup _ fun {v p} hp => ?_
    obtain ⟨b, hb, hp⟩ := Option.bind_eq_some_iff.mp hp
    obtain ⟨⟨rfl, -⟩ | ⟨rfl, -⟩, hne⟩ := position_of_bracket? hb
    · cases hp
    · exact ⟨(Option.some.inj hp).symm, hne⟩

end Visit

end Macro10
