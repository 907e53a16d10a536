import Macro10.Proofs.Numeral
import Macro10.Source.Reader

/-!
# Stretches of a source

A source falls into stretches: lexemes, line terminators, brackets, and lines that are kept as
comments. Where it is cut depends on the source only. To read a source is to take its stretches one
after another (`readLines_eq`), and together they are the source (`flatMap_source_stretches`).
-/

namespace Macro10

open List

variable {l : Lexeme} {line : Line} {later lines : List Line} {column : Nat} {r : Reader}
  {new : Text}

variable {s : Stretch}

/-- A computation that gives a result does so in each of its parts. -/
theorem bind_eq_ok {ε α β : Type} {x : Except ε α} {f : α → Except ε β} {b : β} :
    x >>= f = .ok b ↔ ∃ a, x = .ok a ∧ f a = .ok b := by
  cases x with
  | error e => exact ⟨fun h => (nomatch h), fun ⟨_, h, _⟩ => (nomatch h)⟩
  | ok a => exact ⟨fun h => ⟨a, rfl, h⟩, fun ⟨_, h, hf⟩ => by cases h; exact hf⟩

/-- A computation whose result passes a test gives a result. -/
theorem exists_eq_ok_of_any {ε α : Type} {x : Except ε α} {p : α → Bool}
    (h : x.toOption.any p = true) : ∃ a, x = .ok a ∧ p a = true := by
  cases x with
  | error e => cases h
  | ok a => exact ⟨a, rfl, h⟩

/-- A computation gives a result, of which `P` holds. -/
theorem exists_eq_ok_and {ε α : Type} {x : Except ε α} {P : α → Prop} (h : x.toOption.isSome = true)
    (hP : ∀ {a}, x = .ok a → P a) : ∃ a, x = .ok a ∧ P a := by
  cases x with
  | error e => cases h
  | ok a => exact ⟨a, rfl, hP rfl⟩

/-! ## Stretches -/

/-- A stretch of a source that is read in one step. -/
inductive Stretch where
  /-- A lexeme of a line of code. -/
  | lexeme (lexeme : Lexeme)
  /-- The terminator of a line. -/
  | terminator (terminator : Terminator)
  /-- A line that is kept as a comment: a directive, or a line of a comment block. -/
  | remark (content : Text)
  /-- A radix directive, which is kept as a comment, too. -/
  | setRadix (content operand : Text)
  /-- A `<` that opens a group. -/
  | opening
  /-- A `>` that closes a group, or that stands outside all groups. -/
  | closing
  /-- No symbols at all: the place where a comment block starts that does not end. -/
  | unended (marker : Text)
deriving DecidableEq, Repr

namespace Stretch

/-- The symbols of the stretch. -/
def source : Stretch → Text
  | lexeme l => l.source
  | terminator t => t.text
  | remark content | setRadix content _ => content
  | opening => [.char '<']
  | closing => [.char '>']
  | unended _ => []

/-- The line in which the stretch ends that starts in the given one. -/
def lineAfter (line : Nat) : Stretch → Nat
  | terminator _ => line + 1
  | _ => line

/-- The column after the stretch that starts in the given one. -/
def columnAfter (column : Nat) : Stretch → Nat
  | terminator _ => 1
  | s => column + s.source.length

end Stretch

/-- The radix that a radix directive sets. -/
def Numeral.radixOf (operand : Text) : Int := (readRadix operand).toOption.getD 10

/-- The radix in force after the stretch. -/
def Stretch.radixAfter (radix : Option Int) : Stretch → Option Int
  | setRadix _ operand => some (Numeral.radixOf operand)
  | _ => radix

/-! ## What lexemes hold -/

namespace Lexeme

/-- The symbols of a lexeme are of its sort. -/
def Proper : Lexeme → Prop
  | comment text => text.head? = some (.char ';')
  | string text closed => ∃ body, (∀ s ∈ body, s ≠ .char '"') ∧
      text = .char '"' :: body ++ if closed then [.char '"'] else []
  | blank text => text ≠ [] ∧ ∀ s ∈ text, s.isBlank = true
  | digits text _ => Numeral.IsRun text
  | name text => ∃ s rest, text = s :: rest ∧ s.isLetter = true ∧
      ∀ t ∈ rest, t.isNameSymbol = true
  | operator text => text = [.char '=', .char '='] ∨ ∃ s, text = [s]

theorem proper_ofQuote (rest : Text) : (ofQuote (.char '"') rest).Proper := by
  have htake : ∀ s ∈ rest.takeWhile (· != .char '"'), s ≠ .char '"' := fun s hs =>
    bne_iff_ne.mp (all_eq_true.mp all_takeWhile s hs)
  unfold ofQuote
  split
  · next hdrop =>
    have hsplit := takeWhile_append_dropWhile (p := (· != Symbol.char '"')) (l := rest)
    rw [hdrop, append_nil] at hsplit
    exact ⟨rest, hsplit ▸ htake, by simp⟩
  · next close tail hdrop =>
    have hclose : close = .char '"' := by
      have hhead := head?_dropWhile_not (· != Symbol.char '"') rest
      rw [hdrop] at hhead
      simpa using hhead
    exact ⟨_, htake, by simp [hclose]⟩

theorem proper_first (s : Symbol) (rest : Text) : (first s rest).Proper := by
  unfold first
  split
  · next hs => exact congrArg some hs
  · split
    · next hs =>
      subst hs
      exact proper_ofQuote rest
    · split
      · next hs =>
        exact ⟨cons_ne_nil _ _, forall_mem_cons.mpr ⟨hs, all_eq_true.mp all_takeWhile⟩⟩
      · split
        · next hs =>
          exact ⟨cons_ne_nil _ _, forall_mem_cons.mpr ⟨hs, all_eq_true.mp all_takeWhile⟩⟩
        · split
          · next hs => exact ⟨s, _, rfl, hs, all_eq_true.mp all_takeWhile⟩
          · unfold ofOperator
            split
            · exact .inl rfl
            · exact .inr ⟨s, rfl⟩

theorem proper_of_mem_lexemesAfter {taken : Nat} {text : Text}
    (h : l ∈ lexemesAfter taken text) : l.Proper := by
  induction text generalizing taken with
  | nil => cases taken <;> cases h
  | cons s rest ih =>
    cases taken with
    | succ taken => exact ih h
    | zero =>
      rcases mem_cons.mp h with rfl | h
      · exact proper_first s rest
      · exact ih h

theorem proper_of_mem_lexemes {text : Text} (h : l ∈ lexemes text) : l.Proper :=
  proper_of_mem_lexemesAfter h

end Lexeme

/-! ## Cutting a source -/

/-- The lexemes of a text without brackets. -/
def Stretch.ofCode (text : Text) : List Stretch := (Lexeme.lexemes text).map .lexeme

namespace Line

/-- The terminator of a line. -/
def ended (line : Line) : List Stretch := line.terminator.toList.map .terminator

/-- A line that is kept as a comment. -/
def remark (line : Line) : List Stretch := .remark line.content :: line.ended

/-- A line of a comment block. What follows the last terminator is a line only if it is not
empty. -/
def blockStretches (line : Line) : List Stretch :=
  if line.content.isEmpty && line.terminator.isNone then [] else line.remark

/-- The end of a line from its last segment on, and the marker of the comment block that the line
opens. -/
def endStretches (line : Line) (later : List Line) (segment : Segment) :
    List Stretch × Option Text :=
  match LineClass.ofSegment segment with
  | .commentBlock marker =>
    (line.remark ++
      if later.any fun l => Text.contains marker l.content then [] else [.unended marker],
      some marker)
  | .setRadix operand => (.setRadix line.content operand :: line.ended, none)
  | .suppressed => (line.remark, none)
  | .code => (Stretch.ofCode segment.text ++ line.ended, none)

/-- A line with the given segments. -/
def stretches (line : Line) (later : List Line) : List Segment → List Stretch × Option Text
  | [] => ([], none)
  | segment :: rest =>
    match segment.stop with
    | .opening =>
      let (tail, marker) := line.stretches later rest
      (Stretch.ofCode segment.text ++ .opening :: tail, marker)
    | .closing =>
      let (tail, marker) := line.stretches later rest
      (Stretch.ofCode segment.text ++ .closing :: tail, marker)
    | .lineEnd => line.endStretches later segment

/-- Lines one after another; within a comment block, `marker` ends it. -/
def allStretches (marker : Option Text) : List Line → List Stretch
  | [] => []
  | line :: later =>
    match marker with
    | some m =>
      line.blockStretches ++
        allStretches (if Text.contains m line.content then none else some m) later
    | none =>
      let (head, marker) := line.stretches later (Segment.segments line.content)
      head ++ allStretches marker later

end Line

/-- The stretches of a source. -/
def Text.stretches (source : Text) : List Stretch := Line.allStretches none (Line.split source)

/-! ## The segments of a line cover it -/

/-- The segments cover the text that starts in the given column. -/
inductive Segment.Cover : Nat → Text → List Segment → Prop
  | lineEnd (column : Nat) (text : Text) : Cover column text [⟨column, text, .lineEnd⟩]
  | opening {column : Nat} {tail : Text} {rest : List Segment} (text : Text)
      (h : Cover (column + text.length + 1) tail rest) :
      Cover column (text ++ .char '<' :: tail) (⟨column, text, .opening⟩ :: rest)
  | closing {column : Nat} {tail : Text} {rest : List Segment} (text : Text)
      (h : Cover (column + text.length + 1) tail rest) :
      Cover column (text ++ .char '>' :: tail) (⟨column, text, .closing⟩ :: rest)

theorem Segment.cover_segmentsFrom (column : Nat) (done : Text) (mode : Mode) (text : Text) :
    Cover column (done.reverse ++ text) (segmentsFrom column done mode text) := by
  fun_induction segmentsFrom column done mode text with
  | case1 column done mode => simpa using Cover.lineEnd column done.reverse
  | case2 column done s rest ih => simpa using ih
  | case3 column done s rest ih => simpa using ih
  | case4 column done rest ih => simpa using ih
  | case5 column done rest hs ih => simpa using ih
  | case6 column done rest hs hs' hkept ih => simpa using ih
  | case7 column done rest hs hs' hopen ih =>
    exact .opening done.reverse (by simpa using ih)
  | case8 column done rest hs hs' hs'' ih => exact .closing done.reverse (by simpa using ih)
  | case9 column done s rest hs hs' hs'' hs''' ih => simpa using ih

theorem Segment.cover_segments (content : Text) : Cover 1 content (segments content) :=
  cover_segmentsFrom 1 [] .code content

/-! ## Nothing is lost -/

theorem flatMap_source_map_lexeme (lexemes : List Lexeme) :
    (lexemes.map Stretch.lexeme).flatMap Stretch.source = lexemes.flatMap Lexeme.source := by
  induction lexemes with
  | nil => rfl
  | cons l lexemes ih => simp [Stretch.source, ih]

@[simp]
theorem Stretch.flatMap_source_ofCode (text : Text) : (ofCode text).flatMap source = text := by
  rw [ofCode, flatMap_source_map_lexeme, Lexeme.flatMap_source_lexemes]

/-- Only a line that is a single segment has a meaning of its own. -/
theorem LineClass.column_eq_one (segment : Segment)
    (h : LineClass.ofSegment segment ≠ .code) : segment.column = 1 := by
  by_contra hne
  exact h (by rw [LineClass.ofSegment, if_pos hne])

theorem LineClass.mem_words {segment : Segment} {word : Text}
    (h : ofSegment segment = commentBlock word ∨ ofSegment segment = setRadix word) :
    word ∈ Text.words segment.text := by
  unfold ofSegment at h
  split at h
  · simp at h
  · split at h
    · simp at h
    · next hwords =>
      rw [hwords]
      grind

namespace Line

variable {text : Text} {segments : List Segment}

@[simp]
theorem flatMap_source_ended (line : Line) : line.ended.flatMap Stretch.source = line.ending := by
  cases h : line.terminator <;> simp [ended, ending, Stretch.source, h]

@[simp]
theorem flatMap_source_remark (line : Line) : line.remark.flatMap Stretch.source = line.text := by
  simp [remark, Stretch.source, Line.text]

theorem flatMap_source_blockStretches (line : Line) :
    line.blockStretches.flatMap Stretch.source = line.text := by
  rw [blockStretches]
  split
  · next h =>
    simp only [Bool.and_eq_true, List.isEmpty_iff, Option.isNone_iff_eq_none] at h
    simp [Line.text, ending, h]
  · exact flatMap_source_remark line

theorem flatMap_source_endStretches (hline : column = 1 → text = line.content) :
    (line.endStretches later ⟨column, text, .lineEnd⟩).1.flatMap Stretch.source =
      text ++ line.ending := by
  have hcolumn := LineClass.column_eq_one ⟨column, text, .lineEnd⟩
  rw [endStretches]
  split
  · next marker h =>
    rw [hline (hcolumn (by simp [h])), flatMap_append, flatMap_source_remark]
    split <;> simp [Line.text, Stretch.source]
  · next operand h =>
    rw [hline (hcolumn (by simp [h]))]
    simp [Stretch.source]
  · next h => rw [hline (hcolumn (by simp [h])), flatMap_source_remark, Line.text]
  · simp

theorem flatMap_source_stretches (h : Segment.Cover column text segments)
    (hcolumn : 1 ≤ column) (hline : column = 1 → text = line.content) :
    (line.stretches later segments).1.flatMap Stretch.source = text ++ line.ending := by
  induction h with
  | lineEnd column text => exact flatMap_source_endStretches hline
  | opening text h ih | closing text h ih =>
    simp [stretches, Stretch.source, ih (by omega) (by omega)]

theorem flatMap_source_allStretches (marker : Option Text) (lines : List Line) :
    (allStretches marker lines).flatMap Stretch.source = flatten lines := by
  induction lines generalizing marker with
  | nil => rfl
  | cons line later ih =>
    cases marker with
    | some m => simp [allStretches, ih, flatMap_source_blockStretches, flatten]
    | none =>
      simp [allStretches, ih, flatten, Line.text,
        flatMap_source_stretches (Segment.cover_segments line.content) (Nat.le_refl 1) fun _ => rfl]

end Line

/-- **Nothing is lost:** the stretches of a source, written one after another, are the source. -/
theorem Text.flatMap_source_stretches (source : Text) :
    source.stretches.flatMap Stretch.source = source := by
  rw [stretches, Line.flatMap_source_allStretches, Line.flatten_split]

/-! ## What stretches hold -/

/-- The symbols of a stretch are of its sort. A line is a radix directive by its words. -/
def Stretch.Proper : Stretch → Prop
  | lexeme l => l.Proper
  | setRadix content operand => LineClass.ofSegment ⟨1, content, .lineEnd⟩ = .setRadix operand
  | _ => True

theorem Stretch.proper_of_mem_ofCode {text : Text} (h : s ∈ ofCode text) : s.Proper := by
  obtain ⟨l, hl, rfl⟩ := mem_map.mp h
  exact Lexeme.proper_of_mem_lexemes hl

namespace Line

variable {text : Text} {segments : List Segment}

theorem proper_of_mem_ended (h : s ∈ line.ended) : s.Proper := by
  obtain ⟨t, -, rfl⟩ := mem_map.mp h
  trivial

theorem proper_of_mem_remark (h : s ∈ line.remark) : s.Proper := by
  rcases mem_cons.mp h with rfl | h
  · trivial
  · exact proper_of_mem_ended h

theorem proper_of_mem_endStretches (hline : column = 1 → text = line.content)
    (h : s ∈ (line.endStretches later ⟨column, text, .lineEnd⟩).1) : s.Proper := by
  have hcolumn := LineClass.column_eq_one ⟨column, text, .lineEnd⟩
  unfold endStretches at h
  split at h
  · rcases mem_append.mp h with h | h
    · exact proper_of_mem_remark h
    · split at h
      · cases h
      · rcases mem_singleton.mp h with rfl
        trivial
  · next operand hclass =>
    rcases mem_cons.mp h with rfl | h
    · obtain rfl : column = 1 := hcolumn (by simp [hclass])
      rw [hline rfl] at hclass
      exact hclass
    · exact proper_of_mem_ended h
  · exact proper_of_mem_remark h
  · rcases mem_append.mp h with h | h
    · exact Stretch.proper_of_mem_ofCode h
    · exact proper_of_mem_ended h

theorem proper_of_mem_stretches (hcover : Segment.Cover column text segments) (hcolumn : 1 ≤ column)
    (hline : column = 1 → text = line.content) (h : s ∈ (line.stretches later segments).1) :
    s.Proper := by
  induction hcover with
  | lineEnd column text => exact proper_of_mem_endStretches hline h
  | opening text hcover ih | closing text hcover ih =>
    rcases mem_append.mp h with h | h
    · exact Stretch.proper_of_mem_ofCode h
    · rcases mem_cons.mp h with rfl | h
      · trivial
      · exact ih (by omega) (by omega) h

theorem proper_of_mem_allStretches {marker : Option Text}
    (h : s ∈ allStretches marker lines) : s.Proper := by
  induction lines generalizing marker with
  | nil => cases h
  | cons line later ih =>
    cases marker with
    | some m =>
      rcases mem_append.mp h with h | h
      · unfold blockStretches at h
        split at h
        · cases h
        · exact proper_of_mem_remark h
      · exact ih h
    | none =>
      rcases mem_append.mp h with h | h
      · exact proper_of_mem_stretches (Segment.cover_segments line.content) (Nat.le_refl 1)
          (fun _ => rfl) h
      · exact ih h

end Line

theorem Text.proper_of_mem_stretches {source : Text} (h : s ∈ source.stretches) :
    s.Proper := Line.proper_of_mem_allStretches h

/-! ## Places -/

namespace Stretch

/-- The line after some stretches. -/
def linesAfter (line : Nat) (stretches : List Stretch) : Nat := stretches.foldl lineAfter line

/-- The column after some stretches. -/
def columnsAfter (column : Nat) (stretches : List Stretch) : Nat :=
  stretches.foldl columnAfter column

@[simp]
theorem linesAfter_cons (line : Nat) (s : Stretch) (rest : List Stretch) :
    linesAfter line (s :: rest) = linesAfter (s.lineAfter line) rest := rfl

@[simp]
theorem columnsAfter_cons (column : Nat) (s : Stretch) (rest : List Stretch) :
    columnsAfter column (s :: rest) = columnsAfter (s.columnAfter column) rest := rfl

@[simp]
theorem linesAfter_append (line : Nat) (xs ys : List Stretch) :
    linesAfter line (xs ++ ys) = linesAfter (linesAfter line xs) ys := foldl_append

@[simp]
theorem columnsAfter_append (column : Nat) (xs ys : List Stretch) :
    columnsAfter column (xs ++ ys) = columnsAfter (columnsAfter column xs) ys :=
  foldl_append

theorem columnsAfter_map_lexeme (column : Nat) (lexemes : List Lexeme) :
    columnsAfter column (lexemes.map .lexeme) =
      column + (lexemes.flatMap Lexeme.source).length := by
  induction lexemes generalizing column with
  | nil => rfl
  | cons l lexemes ih =>
    simp only [map_cons, columnsAfter_cons, columnAfter, source, ih, flatMap_cons, length_append]
    omega

@[simp]
theorem linesAfter_ofCode (line : Nat) (text : Text) : linesAfter line (ofCode text) = line := by
  rw [ofCode]
  generalize Lexeme.lexemes text = lexemes
  induction lexemes with
  | nil => rfl
  | cons l lexemes ih => exact ih

@[simp]
theorem columnsAfter_ofCode (column : Nat) (text : Text) :
    columnsAfter column (ofCode text) = column + text.length := by
  rw [ofCode, columnsAfter_map_lexeme, Lexeme.flatMap_source_lexemes]

end Stretch

/-! ## Reading a lexeme -/

namespace Lexeme

/-- The kind of the token that a lexeme is, unless it turns out to be a numeral. -/
def kind : Lexeme → Kind
  | comment _ => .comment
  | string _ _ => .string
  | blank _ => .whitespace
  | digits _ _ => .number
  | name _ => .identifier
  | operator _ => .operator

/-- The text of that token. The point after digits is not part of it. -/
def text : Lexeme → Text
  | comment text | string text _ | blank text | digits text _ | name text | operator text => text

end Lexeme

/-- What a stretch can be read as, wherever it stands. -/
inductive Stretch.Shows : Stretch → Kind → Text → Prop
  | lexeme (l : Lexeme) : Shows (.lexeme l) l.kind l.text
  | numeral {digits new : Text} {point : Bool} {base : Int}
      (hjudge : Numeral.judgeNumber digits base = .ok (.converted new)) :
      Shows (.lexeme (.digits digits point)) .number new
  | terminator (t : Terminator) : Shows (.terminator t) .whitespace t.text
  | remark (content : Text) : Shows (.remark content) .comment (.char ';' :: content)
  | setRadix (content operand : Text) :
      Shows (.setRadix content operand) .comment (.char ';' :: content)

namespace Reader

/-- The verdict on a lexeme. Only digits and names can be numerals. -/
def verdictOn (r : Reader) : Lexeme → Except Failure Numeral.Verdict
  | .digits text point => r.radixOf point >>= Numeral.judge .number text r.afterMark
  | .name text => r.judgeName text
  | _ => .ok .unconcerned

/-- The reader with its report on a lexeme that does not end. -/
def noting (r : Reader) (position : Position) : Lexeme → Reader
  | .string _ false => r.report .unterminatedString position 1 .warning
  | _ => r

variable {r' : Reader} {position : Position} {lexeme : Lexeme}

theorem noting_cases (r : Reader) (position : Position) (lexeme : Lexeme) :
    r.noting position lexeme = r ∨
      r.noting position lexeme = r.report .unterminatedString position 1 .warning := by
  unfold noting
  split
  · exact .inr rfl
  · exact .inl rfl

/-- **What a lexeme adds:** a token, after a verdict on it. -/
theorem readLexeme_eq (r : Reader) (position : Position) (lexeme : Lexeme) :
    r.readLexeme position lexeme = (r.verdictOn lexeme).map
      ((r.noting position lexeme).settle lexeme.kind lexeme.text position) := by
  cases lexeme with
  | comment | blank | operator => rfl
  | string text closed => cases closed <;> rfl
  | digits text point =>
    rw [readLexeme, verdictOn]
    cases r.radixOf point with
    | error e => rfl
    | ok radix => rfl
  | name text => rfl

theorem readLexeme_eq_ok : r.readLexeme position lexeme = .ok r' ↔
    ∃ verdict, r.verdictOn lexeme = .ok verdict ∧
      (r.noting position lexeme).settle lexeme.kind lexeme.text position verdict = r' := by
  rw [readLexeme_eq]
  cases r.verdictOn lexeme with
  | error e => simp [Except.map]
  | ok verdict => simp [Except.map]

/-- The verdict depends on the radix, and on whether a mark stands before the lexeme. -/
theorem verdictOn_congr {s : Reader} (hradix : s.radix = r.radix)
    (hmark : s.afterMark = r.afterMark) (lexeme : Lexeme) :
    s.verdictOn lexeme = r.verdictOn lexeme := by
  cases lexeme with
  | digits text point => rw [verdictOn, verdictOn, radixOf, radixOf, hradix, hmark]
  | name text => rw [verdictOn, verdictOn, judgeName, judgeName, hradix, hmark]
  | comment | string | blank | operator => rfl

/-- A mark is used up only by a name that stands directly after it. -/
theorem afterMark_of_judge {kind : Kind} {text : Text} {afterMark : Bool} {radix : Int}
    (h : Numeral.judge kind text afterMark radix = .ok (.convertedMark new)) :
    afterMark = true := by
  cases kind with
  | number =>
    rw [Numeral.judge] at h
    unfold Numeral.judgeNumber at h
    split at h
    · cases h
    · obtain ⟨shown, -, h⟩ := bind_eq_ok.mp h
      obtain ⟨value, -, h⟩ := bind_eq_ok.mp h
      split at h <;> cases h
  | identifier =>
    rw [Numeral.judge] at h
    split at h
    · assumption
    · cases h
  | _ => cases h

theorem afterMark_of_verdictOn
    (h : r.verdictOn lexeme = .ok (.convertedMark new)) : r.afterMark = true := by
  cases lexeme with
  | digits text point =>
    obtain ⟨radix, -, h⟩ := bind_eq_ok.mp h
    exact afterMark_of_judge h
  | name text =>
    rw [verdictOn, judgeName] at h
    exact afterMark_of_judge h
  | comment | string | blank | operator => cases h

/-- A lexeme changes neither the radix nor the groups that are open. -/
theorem exists_readLexeme_eq (h : r.readLexeme position lexeme = .ok r') :
    ∃ scope diagnostics, r' = { r with scope, diagnostics } := by
  obtain ⟨verdict, -, rfl⟩ := readLexeme_eq_ok.mp h
  have hsettle (r : Reader) : ∃ scope diagnostics,
      r.settle lexeme.kind lexeme.text position verdict = { r with scope, diagnostics } := by
    cases verdict with
    | convertedMark new =>
      have hblank : ∃ scope, r.blankLast = { r with scope } := by
        unfold blankLast
        split <;> exact ⟨_, rfl⟩
      obtain ⟨scope, hblank⟩ := hblank
      exact ⟨_, _, congrArg (·.put .number new position) hblank⟩
    | unconcerned | refused | converted | refusedMark => exact ⟨_, _, rfl⟩
  obtain ⟨scope, diagnostics, hsettle⟩ := hsettle (r.noting position lexeme)
  rw [hsettle]
  rcases noting_cases r position lexeme with hnoting | hnoting <;> rw [hnoting] <;>
    exact ⟨_, _, rfl⟩

/-! ## Reading stretch by stretch -/

/-- Takes a stretch that starts at the given place. -/
def take (r : Reader) (line column : Nat) : Stretch → Except Failure Reader
  | .lexeme l => r.readLexeme ⟨line, column⟩ l
  | .terminator t => .ok (r.put .whitespace t.text ⟨line, column⟩)
  | .remark content => .ok (r.put .comment (.char ';' :: content) ⟨line, column⟩)
  | .setRadix content operand => do
    let r ← r.setRadix line ⟨content, none⟩ operand
    return r.put .comment (.char ';' :: content) ⟨line, column⟩
  | .opening => .ok (r.openGroup ⟨line, column⟩)
  | .closing => .ok (r.closeGroup ⟨line, column⟩)
  | .unended marker => .ok (r.report (.blockNeverClosed marker) ⟨line, column⟩ 1 .warning)

/-- Takes stretches one after another, the first of which starts at the given place. -/
def takeAll (r : Reader) (line column : Nat) : List Stretch → Except Failure Reader
  | [] => .ok r
  | s :: rest => do
    let r ← r.take line column s
    r.takeAll (s.lineAfter line) (s.columnAfter column) rest

/-- Only a radix directive changes the radix. -/
theorem radix_take {r' : Reader} {line : Nat} (h : r.take line column s = .ok r') :
    r'.radix = s.radixAfter r.radix := by
  cases s with
  | lexeme l =>
    obtain ⟨scope, diagnostics, rfl⟩ := exists_readLexeme_eq h
    rfl
  | setRadix content operand =>
    obtain ⟨r₁, hset, h⟩ := bind_eq_ok.mp h
    obtain ⟨radix, hradix, hset⟩ := bind_eq_ok.mp hset
    obtain ⟨value, -, hset⟩ := bind_eq_ok.mp hset
    cases hset
    cases h
    rw [Stretch.radixAfter, Numeral.radixOf, hradix]
    rfl
  | closing =>
    cases h
    unfold closeGroup
    split <;> rfl
  | terminator | remark | opening | unended =>
    cases h
    rfl

theorem takeAll_append (r : Reader) (line column : Nat) (xs ys : List Stretch) :
    r.takeAll line column (xs ++ ys) =
      r.takeAll line column xs >>= fun r =>
        r.takeAll (Stretch.linesAfter line xs) (Stretch.columnsAfter column xs) ys := by
  induction xs generalizing r line column with
  | nil => rfl
  | cons s xs ih =>
    rw [cons_append, takeAll, takeAll]
    cases r.take line column s with
    | error e => rfl
    | ok r => exact ih r _ _

theorem readLexemes_eq (r : Reader) (line column : Nat) (lexemes : List Lexeme) :
    r.readLexemes line column lexemes = r.takeAll line column (lexemes.map .lexeme) := by
  induction lexemes generalizing r column with
  | nil => rfl
  | cons l lexemes ih =>
    rw [readLexemes, map_cons, takeAll, take]
    cases r.readLexeme ⟨line, column⟩ l with
    | error e => rfl
    | ok r => exact ih r _

theorem readCode_eq (r : Reader) (line column : Nat) (text : Text) :
    r.readCode line column text = r.takeAll line column (Stretch.ofCode text) :=
  readLexemes_eq r line column (Lexeme.lexemes text)

theorem takeAll_ended (r : Reader) (number column : Nat) (line : Line) :
    r.takeAll number column line.ended = .ok (r.putTerminator number column line.terminator) := by
  rw [Line.ended]
  cases line.terminator <;> rfl

theorem takeAll_remark (r : Reader) (number : Nat) (line : Line) :
    r.takeAll number 1 line.remark = .ok (r.putCommentLine number line) := by
  rw [Line.remark, takeAll, take]
  simp only [bind, Except.bind, Stretch.lineAfter, Stretch.columnAfter, Stretch.source,
    Nat.add_comm 1]
  rw [takeAll_ended]
  rfl

theorem takeAll_blockStretches (r : Reader) (number : Nat) (line : Line) :
    r.takeAll number 1 line.blockStretches = .ok (r.putBlockLine number line) := by
  rw [Line.blockStretches, putBlockLine]
  split
  · rfl
  · exact takeAll_remark r number line

theorem endLine_eq (r : Reader) (number : Nat) (line : Line) (later : List Line)
    (segment : Segment) :
    r.endLine number line later segment =
      (·, (line.endStretches later segment).2) <$>
        r.takeAll number segment.column (line.endStretches later segment).1 := by
  have hcolumn := LineClass.column_eq_one segment
  unfold endLine Line.endStretches
  cases h : LineClass.ofSegment segment with
  | commentBlock marker =>
    rw [hcolumn (by simp [h])]
    simp only [takeAll_append, takeAll_remark]
    split
    · rfl
    · -- the notice stands after the terminator, or else after the content
      show Except.ok (_, _) = Except.ok (_, _)
      congr 3
      cases ht : line.terminator <;>
        simp [positionAfter, Line.remark, Line.ended, ht, Stretch.lineAfter, Stretch.columnAfter,
          Stretch.linesAfter, Stretch.columnsAfter, Stretch.source, Int.add_comm]
  | setRadix operand =>
    rw [hcolumn (by simp [h])]
    show r.setRadix number ⟨line.content, none⟩ operand >>= _ = _
    simp only [takeAll, take]
    cases r.setRadix number ⟨line.content, none⟩ operand with
    | error e => rfl
    | ok r =>
      show Except.ok (_, _) = _ <$> takeAll _ _ (1 + line.content.length) _
      rw [takeAll_ended, Nat.add_comm]
      rfl
  | suppressed =>
    rw [hcolumn (by simp [h])]
    simp only [takeAll_remark]
    rfl
  | code =>
    simp only [takeAll_append, ← readCode_eq]
    cases r.readCode number segment.column segment.text with
    | error e => rfl
    | ok r =>
      show _ = _ <$> takeAll _ _ _ _
      rw [Stretch.columnsAfter_ofCode, takeAll_ended, Stretch.linesAfter_ofCode]
      rfl

theorem readSegments_eq (r : Reader) (number : Nat) (line : Line) (later : List Line)
    {text : Text} {segments : List Segment}
    (h : Segment.Cover column text segments) :
    r.readSegments number line later segments =
      (·, (line.stretches later segments).2) <$>
        r.takeAll number column (line.stretches later segments).1 := by
  induction h generalizing r with
  | lineEnd column text => exact endLine_eq r number line later ⟨column, text, .lineEnd⟩
  | @opening column tail rest text h ih | @closing column tail rest text h ih =>
    simp only [readSegments, Line.stretches, takeAll_append, ← readCode_eq,
      Stretch.linesAfter_ofCode, Stretch.columnsAfter_ofCode]
    cases r.readCode number column text with
    | error e => rfl
    | ok r => exact ih _

end Reader

/-- Only the last line has no terminator. -/
def Line.Ended : List Line → Prop
  | [] => True
  | line :: rest => (rest ≠ [] → line.terminator.isSome) ∧ Ended rest

theorem Line.ended_split (source : Text) : Ended (split source) := by
  fun_induction split source with
  | case1 => exact ⟨fun h => absurd rfl h, trivial⟩
  | case2 rest ih => exact ⟨fun _ => rfl, ih⟩
  | case3 rest _ ih => exact ⟨fun _ => rfl, ih⟩
  | case4 rest ih => exact ⟨fun _ => rfl, ih⟩
  | case5 s rest _ _ _ ih =>
    cases h : split rest with
    | nil => exact ⟨fun h => absurd rfl h, trivial⟩
    | cons line lines =>
      rw [h] at ih
      exact ih

namespace Line

variable {text : Text} {segments : List Segment}

theorem linesAfter_endStretches (h : line.terminator.isSome) (number : Nat) (segment : Segment) :
    Stretch.linesAfter number (line.endStretches later segment).1 = number + 1 ∧
      Stretch.columnsAfter column (line.endStretches later segment).1 = 1 := by
  obtain ⟨t, ht⟩ := Option.isSome_iff_exists.mp h
  rw [endStretches]
  split
  · split <;> simp [remark, ended, ht, Stretch.linesAfter, Stretch.columnsAfter,
      Stretch.lineAfter, Stretch.columnAfter, Stretch.source]
  all_goals simp [remark, ended, ht, Stretch.lineAfter, Stretch.columnAfter]
  all_goals exact ⟨rfl, rfl⟩

theorem linesAfter_stretches (h : line.terminator.isSome) (number : Nat)
    (hcover : Segment.Cover column text segments) :
    Stretch.linesAfter number (line.stretches later segments).1 = number + 1 ∧
      Stretch.columnsAfter column (line.stretches later segments).1 = 1 := by
  induction hcover with
  | lineEnd column text => exact linesAfter_endStretches h number ⟨column, text, .lineEnd⟩
  | opening text hcover ih | closing text hcover ih =>
    simpa [stretches, Stretch.lineAfter, Stretch.columnAfter, Stretch.source] using ih

theorem linesAfter_blockStretches (h : line.terminator.isSome) (number : Nat) :
    Stretch.linesAfter number line.blockStretches = number + 1 ∧
      Stretch.columnsAfter 1 line.blockStretches = 1 := by
  obtain ⟨t, ht⟩ := Option.isSome_iff_exists.mp h
  rw [blockStretches, if_neg (by simp [ht])]
  simp only [remark, ended, ht]
  exact ⟨rfl, rfl⟩

end Line

/-- **To read lines is to take their stretches one after another.** -/
theorem Reader.readLines_eq (r : Reader) (number : Nat) (marker : Option Text)
    (h : Line.Ended lines) :
    (r.readLines number marker lines).mapError Interruption.cause =
      r.takeAll number 1 (Line.allStretches marker lines) := by
  induction lines generalizing r number marker with
  | nil => rfl
  | cons line later ih =>
    cases marker with
    | some m =>
      rw [readLines, Line.allStretches, takeAll_append, takeAll_blockStretches, ih _ _ _ h.2]
      show _ = takeAll _ _ _ _
      cases later with
      | nil => rfl
      | cons next later =>
        obtain ⟨hlines, hcolumns⟩ :=
          Line.linesAfter_blockStretches (h.1 (cons_ne_nil _ _)) number
        rw [hlines, hcolumns]
    | none =>
      have hcover := Segment.cover_segments line.content
      rw [readLines, Line.allStretches, takeAll_append, readSegments_eq r number line later hcover]
      cases r.takeAll number 1 (line.stretches later (Segment.segments line.content)).1 with
      | error e => rfl
      | ok r =>
        refine (ih r (number + 1) _ h.2).trans ?_
        show _ = takeAll _ _ _ _
        cases later with
        | nil => rfl
        | cons next later =>
          obtain ⟨hlines, hcolumns⟩ :=
            Line.linesAfter_stretches (h.1 (cons_ne_nil _ _)) number hcover
          rw [hlines, hcolumns]

/-- With the radix set, the source is read as `r`. -/
abbrev Reader.Reads (radix : Option Int) (source : Text) (r : Reader) : Prop :=
  ({ radix } : Reader).readLines 1 none (Line.split source) = .ok r

/-- To read a source is to take its stretches one after another. -/
theorem Reader.readLines_split_eq_ok {source : Text} {radix : Option Int} :
    Reads radix source r ↔ ({ radix } : Reader).takeAll 1 1 source.stretches = .ok r := by
  rw [Reads, Text.stretches, ← readLines_eq { radix } 1 none (Line.ended_split source)]
  cases ({ radix } : Reader).readLines 1 none (Line.split source) with
  | error i => simp [Except.mapError]
  | ok s => simp [Except.mapError]

end Macro10
