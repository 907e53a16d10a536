import Macro10.Proofs.Brackets.Loose
import Macro10.Proofs.CommentBlock
import Macro10.Proofs.Source.Balanced

/-!
# Lines that are kept as comments

A line with listing control or with a radix directive is kept as a comment, whatever else it holds.
There is one exception for each of the two: the line is cut at a `>` that comes before every `<`
before it is known to be kept (`Reader.readSegments_suppressed`), and a comment directly after the
numeral of a radix directive is taken for a part of it (`Reader.readSegments_setRadix`). So it is
for each line of a source, outside groups and comment blocks (`Reader.Reaches`).
-/

namespace Macro10

open List
open Line (remarks)
open Keyword (isSuppressed setRadix)
open Forest (onTop)
open Segment (isPlain_of segments)

open Segment (Mode)
open Segment.Mode (meetsBracket)

/-! ## The lines of a source -/

/-- With the radix set, the lines `before` of a source leave the reader `r`, if the lines `later`
come after them; `marker` ends the comment block that is open then. -/
inductive Reader.Reaches (radix : Option Int) :
    List Line → List Line → Reader → Option Text → Prop
  | start (lines : List Line) : Reaches radix [] lines { radix } none
  | block {before later : List Line} {line : Line} {r : Reader} {m : Text}
      (h : Reaches radix before (line :: later) r (some m)) :
    Reaches radix (before ++ [line]) later (r.putBlockLine (before.length + 1) line)
      (if Text.contains m line.content then none else some m)
  | line {before later : List Line} {line : Line} {r r' : Reader} {marker : Option Text}
      (h : Reaches radix before (line :: later) r none)
      (hline : r.readSegments (before.length + 1) line later (segments line.content) =
        .ok (r', marker)) :
    Reaches radix (before ++ [line]) later r' marker

variable {content digits : Text} {line : Line} {r : Reader} {before later : List Line}
  {radix : Option Int}

namespace Reader

/-- Reading goes on from what is reached. -/
theorem Reaches.readLines_eq {marker : Option Text} (h : Reaches radix before later r marker) :
    ({ radix } : Reader).readLines 1 none (before ++ later) =
      r.readLines (before.length + 1) marker later := by
  induction h with
  | start => rfl
  | block h ih => rw [append_assoc, singleton_append, ih, readLines, length_append, length_singleton]
  | line h hline ih =>
    rw [append_assoc, singleton_append, ih, readLines, hline, length_append, length_singleton]

/-- Each line of a source that is read is reached. -/
theorem exists_reaches {source : Text} {r' : Reader} (h : Reads radix source r')
    (hsplit : Line.split source = before ++ later) :
    ∃ r marker, Reaches radix before later r marker := by
  induction before using reverseRecOn generalizing later with
  | nil => exact ⟨_, _, .start later⟩
  | append_singleton before line ih =>
    rw [append_assoc, singleton_append] at hsplit
    obtain ⟨r, marker, hr⟩ := ih hsplit
    cases marker with
    | some m => exact ⟨_, _, .block hr⟩
    | none =>
      rw [Reads, hsplit, hr.readLines_eq, readLines] at h
      split at h
      · next hline => exact ⟨_, _, .line hr hline⟩
      · cases h

end Reader

/-! ## Listing control -/

namespace Keyword

/-- A line that is kept is kept up to each `<` of it already. -/
theorem isSuppressed_of_append {front rest : Text}
    (h : isSuppressed (front ++ .char '<' :: rest) = true) : isSuppressed front = true := by
  rcases isSuppressed_cases h with ⟨tail, hdollar⟩ | ⟨word, later, hwords, hlisting⟩
  · cases front with
    | nil => cases hdollar
    | cons s front =>
      obtain ⟨rfl, -⟩ := List.cons.inj hdollar
      rfl
  · obtain ⟨blanks, tail, heq, hblanks, hne, hword, htail⟩ := Text.exists_eq_of_words hwords
    have hplain : .char '<' ∉ blanks ++ word := by
      intro hmem
      rcases mem_append.mp hmem with hmem | hmem
      · exact absurd (hblanks _ hmem) (by decide)
      · exact absurd (isPlain_of_mem_listing hlisting _ hmem) (by decide)
    -- The bracket comes after the word, and not directly.
    rcases append_eq_append_iff.mp heq.symm with ⟨a, hfront, ha⟩ | ⟨c, hc, htail'⟩
    · have hstart : a.takeWhile (!·.isSpace) = [] := by
        cases a with
        | nil => rfl
        | cons s a => rw [ha] at htail; simpa using htail
      have hfirst := Text.words_append_of_ne_nil hne hword a
      rw [hstart, append_nil, ← Text.words_append_of_isSpace hblanks, ← append_assoc,
        ← hfront] at hfirst
      exact isSuppressed_of_words hfirst hlisting
    · cases c with
      | nil =>
        rw [nil_append] at htail'
        rw [← htail'] at htail
        cases htail
      | cons s c =>
        obtain ⟨rfl, -⟩ := List.cons.inj htail'
        exact absurd (by simp [hc]) hplain

end Keyword

/-- The first bracket of the text outside strings and comments is a `>`. -/
def Segment.Mode.closesFirst : Mode → Text → Bool
  | _, [] => false
  | mode, s :: rest =>
    if s.isBracket && mode = .code then s = .char '>' else closesFirst (mode.after s) rest

@[inherit_doc Segment.Mode.closesFirst]
def Text.closesFirst (t : Text) : Bool := Segment.Mode.closesFirst .code t

namespace Segment

open Mode (closesFirst)

variable {mode : Mode} {t : Text}

theorem exists_of_closesFirst (h : closesFirst mode t = true) (column : Nat) (done : Text) :
    ∃ front rest : Text, t = front ++ .char '>' :: rest ∧ segmentsFrom column done mode t =
      ⟨column, done.reverse ++ front, .closing⟩ ::
        segmentsFrom (column + (done.reverse ++ front).length + 1) [] .code rest := by
  induction t generalizing mode done with
  | nil => cases h
  | cons s t ih =>
    rw [closesFirst] at h
    split at h
    · next hs =>
      obtain ⟨-, rfl⟩ : s.isBracket = true ∧ mode = .code := by simpa using hs
      obtain rfl := of_decide_eq_true h
      refine ⟨[], t, rfl, ?_⟩
      rw [segmentsFrom, if_neg (by decide), if_neg (by decide), if_neg (by decide), if_pos rfl,
        append_nil, length_reverse]
    · next hs =>
      obtain ⟨front, rest, rfl, hcut⟩ := ih h (s :: done)
      refine ⟨s :: front, rest, rfl, ?_⟩
      rw [segmentsFrom_cons (Bool.eq_false_iff.mpr hs), hcut, reverse_cons, append_assoc,
        singleton_append]

/-- Other texts are not cut if they have no brackets outside strings and comments, or if the line is
kept. -/
theorem segmentsFrom_of_not_closesFirst (h : closesFirst mode t = false) (column : Nat)
    (done : Text) (hkept : meetsBracket mode t = true →
      column = 1 ∧ isSuppressed (done.reverse ++ t) = true) :
    segmentsFrom column done mode t = [⟨column, done.reverse ++ t, .lineEnd⟩] := by
  induction t generalizing mode done with
  | nil => rw [segmentsFrom, append_nil]
  | cons s t ih =>
    rw [closesFirst] at h
    split at h
    · next hs =>
      obtain ⟨hbracket, rfl⟩ : s.isBracket = true ∧ mode = .code := by simpa using hs
      obtain ⟨rfl, hline⟩ := hkept (by rw [meetsBracket, hs, Bool.true_or])
      obtain rfl : s = .char '<' := by simpa [Symbol.isBracket, of_decide_eq_false h] using hbracket
      rw [segmentsFrom, if_neg (by decide), if_neg (by decide), if_pos rfl,
        Keyword.isSuppressed_of_append hline, if_pos (by decide), segmentsFrom_verbatim,
        reverse_cons, append_assoc, singleton_append]
    · next hs =>
      have hs := Bool.eq_false_iff.mpr hs
      rw [segmentsFrom_cons hs, ih h (s :: done) fun hmeets => ?_]
      · rw [reverse_cons, append_assoc, singleton_append]
      · rw [reverse_cons, append_assoc, singleton_append]
        exact hkept (by rw [meetsBracket, hs, hmeets, Bool.or_true])

theorem segments_of_free (h : content.hasBracket = false) :
    segments content = [⟨1, content, .lineEnd⟩] := by
  rw [Text.hasBracket_eq] at h
  have hfirst {mode : Mode} {t : Text} (h : meetsBracket mode t = false) :
      closesFirst mode t = false := by
    induction t generalizing mode with
    | nil => rfl
    | cons s t ih =>
      rw [meetsBracket, Bool.or_eq_false_iff] at h
      rw [closesFirst, h.1, if_neg (by decide), ih h.2]
  exact segmentsFrom_of_not_closesFirst (hfirst h) 1 [] fun hmeets => by
    rw [h] at hmeets
    cases hmeets

end Segment

theorem LineClass.ofSegment_of_isSuppressed
    (h : isSuppressed content = true) : ofSegment ⟨1, content, .lineEnd⟩ = .suppressed := by
  rcases Keyword.isSuppressed_cases h with ⟨rest, rfl⟩ | ⟨word, later, hwords, hlisting⟩
  · exact ofSegment_dollar rest
  · exact ofSegment_of_mem_listing hwords hlisting

namespace Reader

/-- A line whose first bracket is a `>`, outside all groups: the text before the bracket is code,
and the bracket is reported. -/
theorem exists_readSegments_closing (hframes : r.frames = [])
    (h : line.content.closesFirst = true) (number : Nat) (later : List Line) :
    ∃ front rest, line.content = front ++ .char '>' :: rest ∧
      r.readSegments number line later (segments line.content) =
        r.readCode number 1 front >>= fun r₁ =>
          (r₁.report .unmatchedClose ⟨number, front.length + 1⟩ 1 .warning).readSegments number line
            later (Segment.segmentsFrom (front.length + 2) [] .code rest) := by
  obtain ⟨front, rest, hcontent, hcut⟩ := Segment.exists_of_closesFirst h 1 []
  refine ⟨front, rest, hcontent, ?_⟩
  rw [segments, hcut, reverse_nil, nil_append, readSegments]
  cases hcode : r.readCode number 1 front with
  | error e => rfl
  | ok r₁ =>
    have hr₁ : r₁.frames = [] := (frames_readLexemes hcode).trans hframes
    have hclose : r₁.closeGroup ⟨number, (⟨1, front, .closing⟩ : Segment).stopColumn⟩ =
        r₁.report .unmatchedClose ⟨number, front.length + 1⟩ 1 .warning := by
      simp [closeGroup, hr₁, Segment.stopColumn, Int.add_comm]
    rw [show 1 + front.length + 1 = front.length + 2 by omega]
    exact congrArg (readSegments · number line later _) hclose

/-- Unless its first bracket is a `>`, a line of listing control is one comment. -/
theorem readSegments_eq_remarks (hkept : isSuppressed line.content = true)
    (h : line.content.closesFirst = false) (r : Reader) (number : Nat) (later : List Line) :
    r.readSegments number line later (segments line.content) =
      .ok ({ r with scope := onTop (remarks number [line]) r.scope }, none) := by
  have hsegments : segments line.content = [⟨1, line.content, .lineEnd⟩] :=
    Segment.segmentsFrom_of_not_closesFirst h 1 [] fun _ => ⟨rfl, hkept⟩
  rw [hsegments, readSegments, endLine, LineClass.ofSegment_of_isSuppressed hkept,
    ← putCommentLine_eq]

/-- **A line of listing control is one comment,** whatever it holds, unless its first bracket
outside strings and comments is a `>`. Then the text before the bracket is read as code, and the
bracket is reported. -/
theorem readSegments_suppressed (hframes : r.frames = [])
    (hkept : isSuppressed line.content = true) (number : Nat) (later : List Line) :
    (r.readSegments number line later (segments line.content) =
        .ok ({ r with scope := onTop (remarks number [line]) r.scope }, none) ↔
          line.content.closesFirst = false) ∧
      (line.content.closesFirst = true →
        ∃ front rest, line.content = front ++ .char '>' :: rest ∧
          r.readSegments number line later (segments line.content) =
            r.readCode number 1 front >>= fun r₁ =>
              (r₁.report .unmatchedClose ⟨number, front.length + 1⟩ 1 .warning).readSegments number
                line later (Segment.segmentsFrom (front.length + 2) [] .code rest)) := by
  refine ⟨⟨fun h => ?_, fun h => readSegments_eq_remarks hkept h r number later⟩,
    fun h => exists_readSegments_closing hframes h number later⟩
  by_contra hfirst
  obtain ⟨front, rest, -, hread⟩ :=
    exists_readSegments_closing hframes (Bool.not_eq_false _ ▸ hfirst) number later
  rw [hread] at h
  obtain ⟨r₁, hcode, h⟩ := bind_eq_ok.mp h
  -- The report is there, but a comment line reports nothing.
  rw [readCode_eq] at hcode
  have hbefore := (steps_takeAll hcode).diagnostics.length_le
  have hcover := Segment.cover_segmentsFrom (front.length + 2) [] .code rest
  have hafter := (steps_readSegments hcover h).diagnostics.length_le
  rw [report, length_append, length_singleton] at hafter
  dsimp only at hafter
  omega

/-- Brackets, quotes and digits on a line of listing control. -/
theorem readSegments_suppressed_title :
    let line : Line := ⟨"\ttitle \"a>b\" 9 <c>;\"", some .both⟩
    let r : Reader := { radix := some 8 }
    r.frames = [] ∧ isSuppressed line.content = true ∧
      r.readSegments 3 line [] (segments line.content) =
        .ok ({ r with scope := onTop (remarks 3 [line]) r.scope }, none) := by
  intro line r
  have hframes : r.frames = [] := rfl
  have hkept : isSuppressed line.content = true := by decide
  exact ⟨hframes, hkept, (readSegments_suppressed hframes hkept 3 []).1.mpr (by decide)⟩

/-- A line that starts with a dollar sign is taken for code up to a `>`. -/
theorem suppressed_line_cut :
    let line : Line := ⟨"$A>B", some .lineFeed⟩
    let r : Reader := { radix := some 8 }
    isSuppressed line.content = true ∧
      r.readSegments 1 line [] (segments line.content) ≠
        .ok ({ r with scope := onTop (remarks 1 [line]) r.scope }, none) ∧
      (convert "$A>B\n" [] 8).toOption = some (Text.ofString "$AB\n") := by
  decide +kernel

/-- **Of a source,** each line of listing control outside groups and comment blocks is one comment,
unless its first bracket is a `>`. -/
theorem Reaches.suppressed (h : Reaches radix before (line :: later) r none)
    (hkept : isSuppressed line.content = true) (hfirst : line.content.closesFirst = false) :
    Reaches radix (before ++ [line]) later
      { r with scope := onTop (remarks (before.length + 1) [line]) r.scope } none :=
  .line h (readSegments_eq_remarks hkept hfirst ..)

end Reader

/-! ## Radix directives -/

namespace Numeral

theorem IsRun.all_below_ten (h : IsRun digits) : digits.all (below 10) = true := by
  refine all_eq_true.mpr fun s hs => ?_
  have hdigit := h.2 s hs
  cases s with
  | stray b => cases hdigit
  | char c =>
    have hbound := hdigit
    simp only [Symbol.isDigit, Bool.and_eq_true, decide_eq_true_eq, Char.le_def,
      UInt32.le_iff_toNat_le] at hbound
    have hle : c.toNat ≤ 0x39 := hbound.2
    rw [below, digitValue?, charValue?_of_isDigit hdigit, Option.any_some, decide_eq_true_eq]
    omega

/-- A decimal numeral is read unless it is too long. -/
theorem IsRun.readDigits_ten (h : IsRun digits) :
    readDigits digits 10 =
      if Text.digitLimit < digits.length then .error (.tooManyDigits digits.length)
      else .ok (some (valueOf 10 (digitValues digits))) := by
  have hne : digits.isEmpty = false := isEmpty_eq_false_iff.mpr h.1
  rw [readDigits_eq (.inl (by decide)), hne]
  simp [h.all_below_ten, maxRadix, isLimited]

/-- The numeral of a radix directive. -/
theorem IsRun.readRadix_eq (h : IsRun digits) (hmin : 2 ≤ valueOf 10 (digitValues digits))
    (hmax : valueOf 10 (digitValues digits) ≤ maxRadix) :
    readRadix digits =
      if Text.digitLimit < digits.length then .error (.tooManyDigits digits.length)
      else .ok (valueOf 10 (digitValues digits)) := by
  rw [readRadix, h.readDigits_ten]
  split
  · rfl
  · have hradix : (decide (2 ≤ valueOf 10 (digitValues digits)) &&
        decide (valueOf 10 (digitValues digits) ≤ maxRadix)) = true := by
      rw [decide_eq_true hmin, decide_eq_true hmax, Bool.and_self]
    simp only [bind, Except.bind, pure, Except.pure, if_pos hradix]

theorem readDigits_comment (digits text : Text) :
    readDigits (digits ++ .char ';' :: text) 10 = .ok none := by
  have hall : (digits ++ .char ';' :: text).all (below 10) = false := by
    rw [all_append, all_cons, show below 10 (.char ';') = false by decide, Bool.false_and,
      Bool.and_false]
  rw [readDigits_eq (.inl (by decide)), if_pos]
  rw [show (10 : Int).toNat = 10 from rfl, hall, Bool.not_false, Bool.or_true]

end Numeral

namespace Line

/-- The line is a radix directive: its second word starts with the numeral `digits`, and `tail` is
the rest of the line. -/
def SetsRadix (line : Line) (digits tail : Text) : Prop :=
  ∃ blanks word gap, line.content = blanks ++ (word ++ (gap ++ (digits ++ tail))) ∧
    (∀ s ∈ blanks, s.isSpace = true) ∧ (∀ s ∈ word, s.isSpace = false) ∧
    Text.upper word = setRadix ∧ gap ≠ [] ∧ (∀ s ∈ gap, s.isSpace = true) ∧
    Numeral.IsRun digits

namespace SetsRadix

variable {tail : Text} (h : line.SetsRadix digits tail)
include h

/-- The operand goes up to the first white space after the numeral. -/
theorem ofSegment_eq : LineClass.ofSegment ⟨1, line.content, .lineEnd⟩ =
    .setRadix (digits ++ tail.takeWhile (!·.isSpace)) := by
  obtain ⟨blanks, word, gap, hcontent, hblanks, hword, hupper, hgap, hspaces, hdigits⟩ := h
  have hne : word ≠ [] := by
    rintro rfl
    exact absurd hupper (by decide)
  have hsolid : ∀ s ∈ digits, s.isSpace = false := fun s hs =>
    Numeral.isSpace_of_isNumeralSymbol (hdigits.isNumeralSymbol s hs)
  obtain ⟨g, gap, rfl⟩ := exists_cons_of_ne_nil hgap
  have hg : (!g.isSpace) = false := by rw [hspaces g mem_cons_self]; rfl
  have hwords : Text.words line.content = word :: (digits ++ tail.takeWhile (!·.isSpace)) ::
      Text.words (tail.dropWhile (!·.isSpace)) := by
    rw [hcontent, Text.words_append_of_isSpace hblanks, Text.words_append_of_ne_nil hne hword,
      cons_append, takeWhile_cons_of_neg (by simp [hg]),
      dropWhile_cons_of_neg (by simp [hg]), append_nil, ← cons_append,
      Text.words_append_of_isSpace hspaces, Text.words_append_of_ne_nil hdigits.1 hsolid]
  have hblock : setRadix ≠ Keyword.commentBlock := by decide
  rw [LineClass.ofSegment, if_neg (by simp)]
  simp only [hwords, hupper]
  split
  · next marker hoperands =>
    rw [if_neg hblock, if_pos trivial, (List.cons.inj hoperands).1]
  · next hoperands => rw [if_pos trivial, (List.cons.inj hoperands).1]
  · next hoperands => cases hoperands

/-- The line is one segment if the rest of it has no brackets outside strings and comments. -/
theorem segments_eq (htail : tail.hasBracket = false) :
    segments line.content = [⟨1, line.content, .lineEnd⟩] := by
  obtain ⟨blanks, word, gap, hcontent, hblanks, hword, hupper, hgap, hspaces, hdigits⟩ := h
  have hplain : ∀ s ∈ blanks ++ (word ++ (gap ++ digits)), Segment.isPlain s = true := by
    refine forall_mem_append.mpr ⟨?_, forall_mem_append.mpr ⟨?_, forall_mem_append.mpr ⟨?_, ?_⟩⟩⟩
    · exact fun s hs => isPlain_of (by decide) (hblanks s hs)
    · exact Keyword.isPlain_of_upper (by rw [hupper]; decide)
    · exact fun s hs => isPlain_of (by decide) (hspaces s hs)
    · exact fun s hs => isPlain_of (by decide) (hdigits.2 s hs)
  refine Segment.segments_of_free ?_
  rw [Text.hasBracket_eq] at htail ⊢
  rw [← htail, ← Segment.Mode.meetsBracket_plain hplain tail, hcontent]
  simp only [append_assoc]

end SetsRadix

end Line

namespace Reader

variable {tail : Text}

/-- The reader with the radix that a line sets. -/
def inRadix (r : Reader) (number : Nat) (radix : Int) : Reader :=
  { r with radix := some radix, changes := r.changes ++ [⟨number, radix⟩] }

/-- A radix directive is kept as a comment, and its operand goes up to the next white space. -/
theorem readSegments_of_setsRadix (h : line.SetsRadix digits tail) (htail : tail.hasBracket = false)
    (r : Reader) (number : Nat) (later : List Line) :
    r.readSegments number line later (segments line.content) =
      r.setRadix number line (digits ++ tail.takeWhile (!·.isSpace)) >>= fun r' =>
        .ok ({ r' with scope := onTop (remarks number [line]) r'.scope }, none) := by
  simp only [h.segments_eq htail, readSegments, endLine, h.ofSegment_eq, ← putCommentLine_eq]
  rfl

/-- White space after the numeral of a radix directive: the radix is the value of the numeral. -/
theorem readSegments_eq_inRadix (h : line.SetsRadix digits tail) {n : Nat}
    (hvalue : Numeral.valueOf 10 (Numeral.digitValues digits) = n)
    (hradix : 2 ≤ n ∧ n ≤ Numeral.maxRadix) (hspace : tail.head?.all Symbol.isSpace = true)
    (htail : tail.hasBracket = false) (r : Reader) (number : Nat) (later : List Line) :
    r.readSegments number line later (segments line.content) =
      if Text.digitLimit < digits.length then .error (.tooManyDigits digits.length)
      else .ok ({ r.inRadix number n with
        scope := onTop (remarks number [line]) r.scope }, none) := by
  obtain ⟨-, -, -, -, -, -, -, -, -, hdigits⟩ := id h
  have htake : tail.takeWhile (!·.isSpace) = [] := by
    cases tail with
    | nil => rfl
    | cons s tail => exact takeWhile_cons_of_neg (by simpa using hspace)
  subst hvalue
  rw [readSegments_of_setsRadix h htail, htake, append_nil, setRadix,
    hdigits.readRadix_eq hradix.1 hradix.2, hdigits.readDigits_ten]
  split
  · rfl
  · simp only [bind, Except.bind, Option.map_some, Int.ofNat_eq_natCast, if_true]
    rfl

/-- **A radix directive sets the radix to the value of its numeral** and reports nothing, if white
space follows the numeral or the line ends there. A comment directly after the numeral is taken for
a part of the operand: then the radix is ten, and this is reported. -/
theorem readSegments_setRadix (h : line.SetsRadix digits tail) {n : Nat}
    (hvalue : Numeral.valueOf 10 (Numeral.digitValues digits) = n)
    (hradix : 2 ≤ n ∧ n ≤ Numeral.maxRadix) (r : Reader) (number : Nat) (later : List Line) :
    (tail.head?.all Symbol.isSpace = true → tail.hasBracket = false →
      r.readSegments number line later (segments line.content) =
        if Text.digitLimit < digits.length then .error (.tooManyDigits digits.length)
        else .ok ({ r.inRadix number n with
          scope := onTop (remarks number [line]) r.scope }, none)) ∧
      ∀ text, tail = .char ';' :: text →
        r.readSegments number line later (segments line.content) =
          .ok ({ (r.report (.badRadix (digits ++ .char ';' :: text.takeWhile (!·.isSpace)) 10)
            ⟨number, 1⟩ (Text.trimEnd line.content).length .info).inRadix number 10 with
              scope := onTop (remarks number [line]) r.scope }, none) := by
  refine ⟨fun hspace htail => readSegments_eq_inRadix h hvalue hradix hspace htail r number later,
    fun text htail => ?_⟩
  subst htail
  have hfree : Text.hasBracket (.char ';' :: text) = false := by
    rw [Text.hasBracket_eq, meetsBracket, Segment.Mode.after, if_neg (by decide),
      if_pos (by decide), Segment.Mode.meetsBracket_verbatim]
    rfl
  have htake : List.takeWhile (fun s : Symbol => !s.isSpace) (.char ';' :: text) =
      .char ';' :: text.takeWhile (!·.isSpace) := takeWhile_cons_of_pos (by decide)
  have hread := Numeral.readDigits_comment digits (text.takeWhile (!·.isSpace))
  have hten : Numeral.readRadix (digits ++ .char ';' :: text.takeWhile (!·.isSpace)) = .ok 10 := by
    rw [Numeral.readRadix, hread]
    rfl
  rw [readSegments_of_setsRadix h hfree, htake, setRadix, hten, hread]
  rfl

/-- The numeral of a radix directive is read in decimal, whatever the comment on the line holds. -/
theorem readSegments_setRadix_sixteen :
    let line : Line := ⟨"\tradix 16 ;<x", some .both⟩
    let r : Reader := { radix := some 8 }
    line.SetsRadix "16" " ;<x" ∧
      r.readSegments 3 line [] (segments line.content) =
        .ok ({ r.inRadix 3 16 with scope := onTop (remarks 3 [line]) r.scope }, none) := by
  intro line r
  have hline : line.SetsRadix "16" " ;<x" := ⟨"\t", "radix", " ", by decide⟩
  have hradix := (readSegments_setRadix hline rfl (by decide) r 3 []).1 (by decide) (by decide)
  exact ⟨hline, hradix.trans (if_neg (by decide))⟩

/-- A comment directly after the numeral changes the radix. -/
theorem setRadix_with_comment :
    let line : Line := ⟨"RADIX 16;x", some .lineFeed⟩
    let r : Reader := { radix := some 8 }
    line.SetsRadix "16" ";x" ∧
      r.readSegments 1 line [] (segments line.content) ≠
        .ok ({ r.inRadix 1 16 with scope := onTop (remarks 1 [line]) r.scope }, none) ∧
      (convert "RADIX 16;x\nLDA 20\n" [] 8).toOption =
        some (Text.ofString ";RADIX 16;x\nLDA 20\n") := by
  intro line r
  refine ⟨⟨[], "RADIX", " ", by decide⟩, ?_⟩
  decide +kernel

/-- **Of a source,** each radix directive outside comment blocks sets the radix for the lines after
it and reports nothing, if white space follows its numeral. -/
theorem Reaches.setRadix (h : Reaches radix before (line :: later) r none)
    (hline : line.SetsRadix digits tail) (hspace : tail.head?.all Symbol.isSpace = true)
    (htail : tail.hasBracket = false) {n : Nat}
    (hvalue : Numeral.valueOf 10 (Numeral.digitValues digits) = n)
    (hradix : 2 ≤ n ∧ n ≤ Numeral.maxRadix) (hlength : digits.length ≤ Text.digitLimit) :
    Reaches radix (before ++ [line]) later { r.inRadix (before.length + 1) n with
      scope := onTop (remarks (before.length + 1) [line]) r.scope } none :=
  .line h ((readSegments_eq_inRadix hline hvalue hradix hspace htail ..).trans
    (if_neg (not_lt.mpr hlength)))

end Reader

end Macro10
