import Macro10.Proofs.Source.Code
import Macro10.Proofs.Source.Lines

/-!
# Code within a line

A line without comments and strings is cut at its brackets and into lexemes (`Stretch.cut`). What
comes after a word and a blank is cut as if nothing stood before it (`Line.Opens.follows`), and a
comma at its end changes nothing before it (`Stretch.cut_append_comma`).
-/

namespace Macro10

open List
open Macro10.Symbol (char isBlank)

variable {s : Symbol} {p : Symbol → Bool} {w done front : Text}

/-- The symbol starts neither a comment nor a string. -/
def Symbol.isCode (s : Symbol) : Bool := !(s.is ';' || s.is '"')

namespace Symbol

theorem isCode_of_ne (hsemicolon : s ≠ .char ';') (hquote : s ≠ .char '"') : s.isCode = true := by
  simp [isCode, Symbol.is, hsemicolon, hquote]

variable (h : s.isCode = true)
include h

theorem ne_semicolon_of_isCode : s ≠ .char ';' := by
  rintro rfl
  cases h

theorem ne_quote_of_isCode : s ≠ .char '"' := by
  rintro rfl
  cases h

end Symbol

/-! ## Lexemes before a comma -/

namespace Lexeme

theorem takeWhile_comma (hp : p (.char ',') = false) (t rest : Text) :
    (t ++ .char ',' :: rest).takeWhile p = t.takeWhile p := by
  induction t with
  | nil => exact takeWhile_cons_of_neg (by simp [hp])
  | cons s t ih => rw [cons_append, takeWhile_cons, takeWhile_cons, ih]

theorem dropWhile_comma (hp : p (.char ',') = false) (t rest : Text) :
    (t ++ .char ',' :: rest).dropWhile p = t.dropWhile p ++ .char ',' :: rest := by
  induction t with
  | nil => exact dropWhile_cons_of_neg (by simp [hp])
  | cons s t ih =>
    rw [cons_append, dropWhile_cons, dropWhile_cons, ih]
    split <;> rfl

theorem isDecimalPoint_of_ne (hs : s ≠ .char '.') (t : Text) : isDecimalPoint (s :: t) = false := by
  unfold isDecimalPoint
  split
  · next heq => exact absurd (List.cons.inj heq).1 hs
  · next heq => exact absurd (List.cons.inj heq).1 hs
  · rfl

theorem isDecimalPoint_comma (t rest : Text) :
    isDecimalPoint (t ++ .char ',' :: rest) = isDecimalPoint t := by
  cases t with
  | nil => rfl
  | cons s t =>
    by_cases hs : s = .char '.'
    · subst hs
      cases t with
      | nil => rfl
      | cons s t => rfl
    · rw [cons_append, isDecimalPoint_of_ne hs, isDecimalPoint_of_ne hs]

theorem ofOperator_eq (s : Symbol) (t : Text) :
    ofOperator s t = if s = .char '=' ∧ t.head? = some (.char '=') then
      operator [.char '=', .char '='] else operator [s] := by
  unfold ofOperator
  split
  · rw [if_pos ⟨rfl, rfl⟩]
  · next hne =>
    rw [if_neg]
    rintro ⟨rfl, hhead⟩
    obtain ⟨rest, rfl⟩ := List.head?_eq_some_iff.mp hhead
    exact hne rest rfl rfl

theorem ofOperator_comma (s : Symbol) (t rest : Text) :
    ofOperator s (t ++ .char ',' :: rest) = ofOperator s t := by
  rw [ofOperator_eq, ofOperator_eq]
  cases t with
  | nil => simp
  | cons s' t => rfl

/-- A comma ends all lexemes but comments and strings. -/
theorem first_comma (hs : s.isCode = true) (t rest : Text) :
    first s (t ++ .char ',' :: rest) = first s t := by
  unfold first
  rw [if_neg (Symbol.ne_semicolon_of_isCode hs), if_neg (Symbol.ne_semicolon_of_isCode hs),
    if_neg (Symbol.ne_quote_of_isCode hs), if_neg (Symbol.ne_quote_of_isCode hs)]
  split
  · rw [takeWhile_comma (by decide)]
  split
  · rw [ofDigit, ofDigit, takeWhile_comma (by decide), dropWhile_comma (by decide),
      isDecimalPoint_comma]
  split
  · rw [takeWhile_comma (by decide)]
  · exact ofOperator_comma s t rest

/-- A text is cut into lexemes before a comma as if it ended there. -/
theorem lexemes_comma {t : Text} (ht : ∀ s ∈ t, s.isCode = true) (rest : Text) :
    lexemes (t ++ .char ',' :: rest) = lexemes t ++ lexemes (.char ',' :: rest) := by
  induction t using lexemes_induction with
  | nil => rfl
  | cons s t tail htail ih =>
    have hfirst := first_comma (ht s mem_cons_self) t rest
    have hwhole : (first s (t ++ .char ',' :: rest)).source ++ (tail ++ .char ',' :: rest) =
        s :: (t ++ .char ',' :: rest) := by
      rw [hfirst, ← append_assoc, htail, cons_append]
    have hsub : ∀ s ∈ tail, s.isCode = true := fun a ha =>
      ht a (htail ▸ mem_append_right _ ha)
    rw [cons_append, lexemes_of_source hwhole, lexemes_of_source htail, hfirst, ih hsub,
      cons_append]

end Lexeme

/-! ## Cutting at brackets -/

namespace Stretch

/-- The stretches of code; `done` is what stands since the last bracket, last symbol first. -/
def cut (done : Text) : Text → List Stretch
  | [] => ofCode done.reverse
  | s :: rest =>
    if s = .char '<' then ofCode done.reverse ++ .opening :: cut [] rest
    else if s = .char '>' then ofCode done.reverse ++ .closing :: cut [] rest
    else cut (s :: done) rest

/-- What is after a word and a blank is cut as if nothing stood before it. -/
theorem cut_word (hw : Lexeme.IsName w) {t : Text}
    (h : (done.reverse ++ t).head?.any isBlank = false) :
    cut (done ++ (w ++ [char ' ']).reverse) t =
      .lexeme (.name w) :: .lexeme (.blank [.char ' ']) :: cut done t := by
  have hcode {done u : Text} (hu : (done.reverse ++ u).head?.any isBlank = false) :
      ofCode (done ++ (w ++ [char ' ']).reverse).reverse =
        .lexeme (.name w) :: .lexeme (.blank [.char ' ']) :: ofCode done.reverse := by
    have hhead : done.reverse.head?.any isBlank = false := by
      cases hd : done.reverse with
      | nil => rfl
      | cons s rest => simpa [hd] using hu
    rw [reverse_append, reverse_reverse, append_assoc, singleton_append, ofCode,
      hw.lexemes_append rfl, Lexeme.lexemes_space hhead]
    rfl
  induction t generalizing done with
  | nil => exact hcode h
  | cons s t ih =>
    rw [cut, cut]
    split
    · rw [hcode h]
      rfl
    split
    · rw [hcode h]
      rfl
    · have hnext : ((s :: done).reverse ++ t).head?.any isBlank = false := by simpa using h
      exact ih hnext

theorem cut_of_no_bracket {t : Text} (h : ∀ s ∈ t, s ≠ .char '<' ∧ s ≠ .char '>') (done : Text) :
    cut done t = ofCode (done.reverse ++ t) := by
  induction t generalizing done with
  | nil => rw [cut, append_nil]
  | cons s t ih =>
    obtain ⟨⟨hopening, hclosing⟩, ht⟩ := forall_mem_cons.mp h
    rw [cut, if_neg hopening, if_neg hclosing, ih ht, reverse_cons, append_assoc]
    rfl

section

variable {t u : Text} {xs : List Stretch} (hdone : ∀ s ∈ done, s.isCode = true)
  (ht : ∀ s ∈ t, s.isCode = true)
include hdone ht

theorem cut_append (h : ∀ done : Text, (∀ s ∈ done, s.isCode = true) →
    cut done u = ofCode done.reverse ++ xs) : cut done (t ++ u) = cut done t ++ xs := by
  induction t generalizing done with
  | nil => exact h done hdone
  | cons s t ih =>
    obtain ⟨hs, ht⟩ := forall_mem_cons.mp ht
    rw [cons_append, cut, cut, ih (forall_mem_nil _) ht, ih (forall_mem_cons.mpr ⟨hs, hdone⟩) ht]
    split
    · rw [append_assoc, cons_append]
    split
    · rw [append_assoc, cons_append]
    · rfl

/-- A comma at the end changes nothing about what is before it. -/
theorem cut_append_comma :
    cut done (t ++ [.char ',']) = cut done t ++ [.lexeme (.operator ",")] := by
  refine cut_append hdone ht fun done hdone => ?_
  have hcomma : Lexeme.lexemes [.char ','] = [.operator ","] := by decide
  change ofCode (.char ',' :: done).reverse = _
  rw [reverse_cons, ofCode, Lexeme.lexemes_comma (fun s hs => hdone s (mem_reverse.mp hs)),
    hcomma, map_append]
  rfl

theorem cut_append_opening (rest : Text) :
    cut done (t ++ .char '<' :: rest) = cut done t ++ .opening :: cut [] rest :=
  cut_append hdone ht fun _ _ => rfl

end

end Stretch

/-! ## Lines of code -/

namespace Line

/-- A line that starts so is code, whatever follows. -/
def StartsCode (front : Text) : Prop :=
  ∀ t, Keyword.isSuppressed (front ++ t) = false ∧
    LineClass.ofSegment ⟨1, front ++ t, .lineEnd⟩ = .code

theorem StartsCode.append (h : StartsCode front) (t : Text) : StartsCode (front ++ t) := by
  intro u
  rw [append_assoc]
  exact h (t ++ u)

/-- The first word of a line tells that it is code. -/
theorem startsCode_of_words
    (hwords : ∀ t, ∃ operands, Text.words (front ++ t) = w :: operands)
    (hfront : ∃ s rest, front = s :: rest ∧ s ≠ .char '$')
    (hw : Text.upper w ≠ Keyword.commentBlock ∧ Text.upper w ≠ Keyword.setRadix ∧
      Keyword.listing.elem (Text.upper w) = false) : StartsCode front := by
  intro t
  obtain ⟨operands, hsplit⟩ := hwords t
  obtain ⟨hcomment, hradix, hlisting⟩ := hw
  have hcode : Keyword.isSuppressed (front ++ t) = false := by
    obtain ⟨s, rest, rfl, hs⟩ := hfront
    unfold Keyword.isSuppressed
    split
    · next heq => exact absurd (List.cons.inj heq).1 hs
    · rw [hsplit]
      exact hlisting
  refine ⟨hcode, ?_⟩
  rw [LineClass.ofSegment, if_neg (by simp)]
  simp only [hsplit, hcomment, hradix, hcode, if_false, Bool.false_eq_true]
  split <;> rfl

/-- **A line of code is cut at its brackets and into lexemes.** -/
theorem stretches_segmentsFrom {t : Text} (ht : ∀ s ∈ t, s.isCode = true) {column : Nat}
    (hpos : 1 ≤ column) (hcode : column = 1 → StartsCode done.reverse) (line : Line)
    (later : List Line) :
    line.stretches later (Segment.segmentsFrom column done .code t) =
      (Stretch.cut done t ++ line.ended, none) := by
  induction t generalizing done column with
  | nil =>
    have hclass : LineClass.ofSegment ⟨column, done.reverse, .lineEnd⟩ = .code := by
      by_cases hcolumn : column = 1
      · subst hcolumn
        have hline := (hcode rfl []).2
        rwa [append_nil] at hline
      · rw [LineClass.ofSegment, if_pos hcolumn]
    rw [Segment.segmentsFrom, stretches, endStretches, hclass, Stretch.cut]
  | cons s t ih =>
    obtain ⟨hs, ht⟩ := forall_mem_cons.mp ht
    -- After a bracket the line is code anyway.
    have hgroup := @ih [] ht (column + done.length + 1) (by omega) (by omega)
    rw [Segment.segmentsFrom, Stretch.cut]
    simp only [if_neg (Symbol.ne_quote_of_isCode hs), if_neg (Symbol.ne_semicolon_of_isCode hs)]
    split
    · have hopens : (column = 1 && Keyword.isSuppressed done.reverse) = false := by
        by_cases hcolumn : column = 1
        · have hline := (hcode hcolumn []).1
          rw [append_nil] at hline
          rw [hline, Bool.and_false]
        · simp [hcolumn]
      rw [hopens, if_neg (by decide), stretches, hgroup]
      simp
    split
    · rw [stretches, hgroup]
      simp
    · refine ih ht hpos fun hcolumn => ?_
      rw [reverse_cons]
      exact (hcode hcolumn).append [s]

/-- After a word and a blank, the text is cut as if it stood alone. -/
def Follows (w t : Text) : Prop :=
  Text.stretches (w ++ .char ' ' :: t ++ [.char '\n']) =
    .lexeme (.name w) :: .lexeme (.blank [.char ' ']) :: Stretch.cut [] t ++ [.terminator .lineFeed]

theorem follows_of_stretches {t : Text} (hw : Lexeme.IsName w)
    (ht : ∀ s ∈ t, s.endsLine = false) (hstart : t.head?.any isBlank = false)
    (h : ∀ line later, stretches line later
      (Segment.segmentsFrom 1 (w ++ [char ' ']).reverse .code t) =
        (Stretch.cut (w ++ [char ' ']).reverse t ++ line.ended, none)) : Follows w t := by
  have hplain : ∀ s ∈ w ++ [.char ' '], Segment.isPlain s = true ∧ s.endsLine = false :=
    forall_mem_append.mpr
      ⟨fun s hs => Segment.isPlain_of_isNameSymbol (hw.isNameSymbol s hs), by decide⟩
  have hline : ∀ s ∈ w ++ [.char ' '] ++ t, s.endsLine = false :=
    forall_mem_append.mpr ⟨fun s hs => (hplain s hs).2, ht⟩
  have hsplit : split (w ++ [.char ' '] ++ t ++ [.char '\n']) =
      [⟨w ++ [.char ' '] ++ t, some .lineFeed⟩, ⟨[], none⟩] := by
    rw [split_append_of_not_endsLine hline (by rfl), append_nil]
    rfl
  have hsegments : Segment.segments (w ++ [.char ' '] ++ t) =
      Segment.segmentsFrom 1 (w ++ [char ' ']).reverse .code t := by
    rw [Segment.segments, Segment.segmentsFrom_append fun s hs => (hplain s hs).1, append_nil]
  have hcut : Stretch.cut (w ++ [char ' ']).reverse t =
      .lexeme (.name w) :: .lexeme (.blank [.char ' ']) :: Stretch.cut [] t :=
    @Stretch.cut_word w [] hw t hstart
  have hlast : allStretches none [⟨[], none⟩] = [] := rfl
  rw [Follows, ← singleton_append, ← append_assoc, Text.stretches, hsplit, allStretches,
    hsegments, h, hcut]
  dsimp only
  rw [hlast, append_nil]
  rfl

/-- The word starts a line of code, whatever comes after a blank. -/
structure Opens (w : Text) : Prop where
  isName : Lexeme.IsName w
  startsCode : StartsCode (w ++ [.char ' '])

/-- **Code that follows a word,** without strings and comments. -/
theorem Opens.follows {t : Text} (hw : Opens w) (ht : ∀ s ∈ t, s.isCode = true ∧ s.endsLine = false)
    (hstart : t.head?.any isBlank = false) : Follows w t := by
  refine follows_of_stretches hw.isName (fun s hs => (ht s hs).2) hstart fun line later =>
    stretches_segmentsFrom (fun s hs => (ht s hs).1) (Nat.le_refl 1) (fun _ => ?_) line later
  rw [reverse_reverse]
  exact hw.startsCode

theorem Opens.follows_of_no_bracket {t : Text} (hw : Opens w)
    (hline : ∀ s ∈ t, s.endsLine = false) (ht : ∀ s ∈ t, s ≠ .char '<' ∧ s ≠ .char '>')
    (hstart : t.head?.any isBlank = false) : Follows w t := by
  refine follows_of_stretches hw.isName hline hstart fun line later => ?_
  rw [Segment.segmentsFrom_of_no_bracket 1 _ .code ht, stretches, endStretches, reverse_reverse,
    (hw.startsCode t).2, Stretch.cut_of_no_bracket ht, reverse_reverse]

end Line

end Macro10
