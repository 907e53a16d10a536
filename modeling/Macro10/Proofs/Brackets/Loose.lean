import Macro10.Proofs.Brackets.Structural
import Macro10.Proofs.Source.Code
import Macro10.Proofs.Source.Spelling

/-!
# Loose brackets

A bracket is loose if it is read as an operator. A line is cut at its structural brackets, and what
is left has no brackets outside strings and comments, but for one case: a line that starts with a
word of listing control and a `<` directly after it. Up to the bracket it is kept as a comment, so
it is not cut there, but as a whole it is not kept (`Text.any_isLoose_stretches`).
-/

namespace Macro10

open List
open Text (hasBracket isDirective ofString upper words)
open Keyword (isSuppressed listing)
open Segment (Mode)

variable {s : Symbol} {word line : Text} {later : List Text} {v : Visit} {mark top : Bool}
  {f : Forest} {w : List Visit} {positions : List Position}

open Segment (Mode isPlain isPlain_of segments)
open Macro10.Symbol (char isBracket)

/-! ## Texts -/

namespace Segment.Mode

/-- A text that is looked at in the given mode from its start on holds a bracket outside strings and
comments. -/
def meetsBracket : Mode → Text → Bool
  | _, [] => false
  | mode, s :: rest => s.isBracket && mode = .code || meetsBracket (mode.after s) rest

theorem meetsBracket_concat (mode : Mode) (t : Text) (s : Symbol) :
    meetsBracket mode (t ++ [s]) =
      (meetsBracket mode t || s.isBracket && t.foldl Mode.after mode = .code) := by
  induction t generalizing mode with
  | nil =>
    rw [nil_append, meetsBracket, meetsBracket, meetsBracket, Bool.or_false, Bool.false_or]
    rfl
  | cons u t ih =>
    rw [cons_append, meetsBracket, meetsBracket, ih, Bool.or_assoc]
    rfl

theorem meetsBracket_verbatim (t : Text) : meetsBracket .verbatim t = false := by
  induction t with
  | nil => rfl
  | cons s t ih => simpa [meetsBracket, after] using ih

theorem meetsBracket_quoted {body : Text} (h : ∀ s ∈ body, s ≠ .char '"') (t : Text) :
    meetsBracket .quoted (body ++ t) = meetsBracket .quoted t := by
  induction body with
  | nil => rfl
  | cons s body ih =>
    obtain ⟨hs, hbody⟩ := forall_mem_cons.mp h
    rw [cons_append, meetsBracket, after, if_neg hs, ih hbody]
    simp

end Segment.Mode

open Segment.Mode (meetsBracket)

theorem Text.hasBracket_eq (t : Text) : hasBracket t = meetsBracket .code t := by
  induction t using List.reverseRecOn with
  | nil => rfl
  | append_singleton t s ih =>
    rw [hasBracket, anySplit_concat, ← hasBracket, ih, Mode.meetsBracket_concat]
    rfl

namespace Segment

theorem Mode.meetsBracket_plain {t : Text} (h : ∀ s ∈ t, isPlain s = true) (rest : Text) :
    meetsBracket .code (t ++ rest) = meetsBracket .code rest := by
  induction t with
  | nil => rfl
  | cons s t ih =>
    obtain ⟨hs, ht⟩ := forall_mem_cons.mp h
    obtain ⟨hquote, hcomment, hopening, hclosing⟩ := isPlain_iff.mp hs
    have hbracket : s.isBracket = false := by simp [isBracket, hopening, hclosing]
    rw [cons_append, meetsBracket, Mode.after, if_neg hquote, if_neg hcomment, ih ht, hbracket]
    rfl

end Segment

/-! ## Lexemes -/

namespace Lexeme

/-- The lexeme is a bracket. -/
def isBracket : Lexeme → Bool
  | operator [s] => s.isBracket
  | _ => false

/-- The first lexeme of a text is a bracket if the text starts with one outside strings and
comments, and the rest is looked at as code. -/
theorem meetsBracket_first {rest tail : Text} (h : (first s rest).source ++ tail = s :: rest) :
    meetsBracket .code (s :: rest) = ((first s rest).isBracket || meetsBracket .code tail) := by
  by_cases hcomment : s = .char ';'
  · subst hcomment
    obtain rfl : tail = [] := append_right_eq_self.mp h
    exact Mode.meetsBracket_verbatim rest
  by_cases hquote : s = .char '"'
  · subst hquote
    have hfirst : first (.char '"') rest = ofQuote (.char '"') rest := rfl
    have hbody : ∀ u ∈ rest.takeWhile (· != .char '"'), u ≠ .char '"' := fun u hu =>
      bne_iff_ne.mp (all_eq_true.mp all_takeWhile u hu)
    have hsplit := takeWhile_append_dropWhile (p := (· != char '"')) (l := rest)
    rw [hfirst] at h ⊢
    show meetsBracket .quoted rest = _
    unfold ofQuote at h ⊢
    split at h
    · -- The string is not closed, so it is the whole text.
      next hdrop =>
      obtain rfl : tail = [] := append_right_eq_self.mp h
      rw [hdrop, append_nil] at hsplit
      rw [hsplit] at hbody
      have hquoted := Mode.meetsBracket_quoted hbody []
      rw [append_nil] at hquoted
      exact hquoted
    · next close later hdrop =>
      obtain rfl : close = .char '"' := by
        have hhead := head?_dropWhile_not (· != char '"') rest
        rw [hdrop] at hhead
        simpa using hhead
      obtain rfl : tail = later := by
        rw [source, cons_append, cons_append, append_assoc] at h
        have htail := (List.cons.inj h).2.trans hsplit.symm
        rw [hdrop] at htail
        exact (List.cons.inj (append_cancel_left htail)).2
      rw [hdrop] at hsplit
      rw [← hsplit, Mode.meetsBracket_quoted hbody]
      rfl
  have hplain {p : Symbol → Bool} (hp : (["<", ">", "\"", ";"].flatMap
      ofString).all (fun s => !p s) = true) (t : Text) :
      ∀ u ∈ t.takeWhile p, isPlain u = true := fun u hu =>
    isPlain_of hp (all_eq_true.mp all_takeWhile u hu)
  by_cases hblank : s.isBlank = true
  · have hs : isPlain s = true := isPlain_of (by decide) hblank
    rw [first, if_neg hcomment, if_neg hquote, if_pos hblank] at h ⊢
    rw [← h, source,
      Mode.meetsBracket_plain (forall_mem_cons.mpr ⟨hs, hplain (by decide) rest⟩)]
    rfl
  by_cases hdigit : s.isDigit = true
  · have hs : isPlain s = true := isPlain_of (by decide) hdigit
    have hrun : ∀ u ∈ s :: rest.takeWhile Symbol.isDigit, isPlain u = true :=
      forall_mem_cons.mpr ⟨hs, hplain (by decide) rest⟩
    rw [first, if_neg hcomment, if_neg hquote, if_neg hblank, if_pos hdigit, ofDigit] at h ⊢
    rw [← h, source]
    split
    · rw [Mode.meetsBracket_plain (forall_mem_append.mpr ⟨hrun, by decide⟩)]
      rfl
    · rw [Mode.meetsBracket_plain hrun]
      rfl
  by_cases hletter : s.isLetter = true
  · have hs : isPlain s = true := isPlain_of (by decide) hletter
    rw [first, if_neg hcomment, if_neg hquote, if_neg hblank, if_neg hdigit, if_pos hletter] at h ⊢
    rw [← h, source,
      Mode.meetsBracket_plain (forall_mem_cons.mpr ⟨hs, hplain (by decide) rest⟩)]
    rfl
  · have hafter : Mode.code.after s = .code := by
      rw [Mode.after, if_neg hquote, if_neg hcomment]
    rw [first, if_neg hcomment, if_neg hquote, if_neg hblank, if_neg hdigit, if_neg hletter] at h ⊢
    unfold ofOperator at h ⊢
    split at h
    · obtain rfl := (List.cons.inj (List.cons.inj h).2).2
      rfl
    · obtain rfl := (List.cons.inj h).2
      simp [meetsBracket, isBracket, hafter]

/-- **Lines and lexemes are looked at in the same way:** among the lexemes of a text are brackets if
and only if the text has brackets outside strings and comments. -/
theorem any_isBracket_lexemes (text : Text) : (lexemes text).any isBracket = text.hasBracket := by
  rw [Text.hasBracket_eq]
  induction text using lexemes_induction with
  | nil => rfl
  | cons s rest tail htail ih =>
    rw [lexemes_of_source htail, any_cons, ih, meetsBracket_first htail]

end Lexeme

/-! ## Words -/

namespace Text

theorem words_cons_of_isSpace (h : s.isSpace = true) (t : Text) : words (s :: t) = words t := by
  simp [words, splitWords, h]

theorem splitWords_eq (t : Text) :
    splitWords t = (t.takeWhile (!·.isSpace), words (t.dropWhile (!·.isSpace))) := by
  induction t with
  | nil => rfl
  | cons s t ih =>
    by_cases hs : s.isSpace = true
    · simp [splitWords, words, hs]
    · rw [Bool.not_eq_true] at hs
      simp [splitWords, hs, ih]

theorem words_append_of_isSpace {blanks : Text} (h : ∀ s ∈ blanks, s.isSpace = true) (t : Text) :
    words (blanks ++ t) = words t := by
  induction blanks with
  | nil => rfl
  | cons s blanks ih =>
    obtain ⟨hs, hblanks⟩ := forall_mem_cons.mp h
    rw [cons_append, words_cons_of_isSpace hs, ih hblanks]

/-- The first word of a text goes up to the first white space. -/
theorem words_append_of_ne_nil (hne : word ≠ []) (h : ∀ s ∈ word, s.isSpace = false)
    (t : Text) : words (word ++ t) =
      (word ++ t.takeWhile (!·.isSpace)) :: words (t.dropWhile (!·.isSpace)) := by
  have hword : ∀ s ∈ word, (!s.isSpace) = true := fun s hs => by rw [h s hs]; rfl
  rw [words, splitWords_eq, takeWhile_append_of_pos hword, dropWhile_append_of_pos hword]
  simp [hne]

/-- A text with words is white space, its first word, and a rest that starts with white space. -/
theorem exists_eq_of_words {t : Text} (h : words t = word :: later) :
    ∃ blanks rest, t = blanks ++ word ++ rest ∧ (∀ s ∈ blanks, s.isSpace = true) ∧ word ≠ [] ∧
      (∀ s ∈ word, s.isSpace = false) ∧ (rest.takeWhile (!·.isSpace)) = [] := by
  induction t with
  | nil => cases h
  | cons s t ih =>
    by_cases hs : s.isSpace = true
    · rw [words_cons_of_isSpace hs] at h
      obtain ⟨blanks, rest, rfl, hblanks, hword⟩ := ih h
      exact ⟨s :: blanks, rest, rfl, forall_mem_cons.mpr ⟨hs, hblanks⟩, hword⟩
    · rw [Bool.not_eq_true] at hs
      have hfirst := words_append_of_ne_nil (cons_ne_nil s []) (forall_mem_singleton.mpr hs) t
      rw [singleton_append, h] at hfirst
      obtain ⟨rfl, -⟩ := List.cons.inj hfirst
      refine ⟨[], t.dropWhile (!·.isSpace), ?_, forall_mem_nil _, by simp, ?_, ?_⟩
      · simp [takeWhile_append_dropWhile]
      · refine forall_mem_cons.mpr ⟨hs, fun u hu => ?_⟩
        simpa using all_eq_true.mp all_takeWhile u hu
      · cases hdrop : t.dropWhile (!·.isSpace) with
        | nil => rfl
        | cons u rest =>
          have hhead := head?_dropWhile_not (!·.isSpace) t
          rw [hdrop] at hhead
          simpa using hhead

end Text

/-! ## Lines that are kept -/

namespace Keyword

theorem isSuppressed_of_words (h : words line = word :: later)
    (hword : upper word ∈ listing) : isSuppressed line = true := by
  unfold isSuppressed
  split
  · rfl
  · rw [h]
    exact elem_iff.mpr hword

theorem isSuppressed_cases (h : isSuppressed line = true) :
    (∃ rest, line = .char '$' :: rest) ∨
      ∃ word later, words line = word :: later ∧ upper word ∈ listing := by
  unfold isSuppressed at h
  split at h
  · exact .inl ⟨_, rfl⟩
  · split at h
    · cases h
    · next word later hwords => exact .inr ⟨word, later, hwords, elem_iff.mp h⟩

/-- A word has no special symbols if in capitals it has none. -/
theorem isPlain_of_upper
    (h : ∀ u ∈ ["<", ">", "\"", ";"].flatMap ofString, u ∉ upper word) :
    ∀ s ∈ word, isPlain s = true := by
  have hupper : ∀ u ∈ ["<", ">", "\"", ";"].flatMap ofString, Text.upperSymbol u = [u] := by
    decide
  intro s hs
  refine isPlain_of (p := (· ∈ word)) ?_ (decide_eq_true hs)
  refine all_eq_true.mpr fun u hu => ?_
  rw [Bool.not_eq_true', decide_eq_false_iff_not]
  intro hmem
  refine h u hu (mem_flatMap.mpr ⟨u, hmem, ?_⟩)
  rw [hupper u hu]
  exact mem_singleton_self u

theorem isPlain_of_mem_listing (h : upper word ∈ listing) : ∀ s ∈ word, isPlain s = true := by
  have hfree : ∀ t ∈ listing, ∀ u ∈ ["<", ">", "\"", ";"].flatMap ofString, u ∉ t := by decide
  exact isPlain_of_upper (hfree _ h)

end Keyword

namespace LineClass

variable {content : Text}

/-- A line that neither opens a comment block nor sets the radix is kept as a comment, or it is
code. -/
theorem ofSegment_of_words (hwords : words content = word :: later)
    (hblock : upper word ≠ Keyword.commentBlock)
    (hradix : upper word ≠ Keyword.setRadix) : ofSegment ⟨1, content, .lineEnd⟩ =
      if isSuppressed content then .suppressed else .code := by
  rw [ofSegment, if_neg (by simp)]
  simp only [hwords]
  split
  · rw [if_neg hblock, if_neg hradix]
  · rw [if_neg hradix]
  · rfl

theorem ofSegment_of_mem_listing (hwords : words content = word :: later)
    (h : upper word ∈ listing) : ofSegment ⟨1, content, .lineEnd⟩ = .suppressed := by
  rw [ofSegment_of_words hwords, Keyword.isSuppressed_of_words hwords h, if_pos rfl]
  · rintro heq
    rw [heq] at h
    exact absurd h (by decide)
  · rintro heq
    rw [heq] at h
    exact absurd h (by decide)

theorem ofSegment_dollar (rest : Text) :
    ofSegment ⟨1, .char '$' :: rest, .lineEnd⟩ = .suppressed := by
  have hwords := Text.words_append_of_ne_nil (cons_ne_nil (char '$') [])
    (forall_mem_singleton.mpr (by decide)) rest
  have hupper : (upper ([.char '$'] ++ rest.takeWhile (!·.isSpace))).head? =
      some (.char '$') := by
    rw [Text.upper_append]
    rfl
  rw [← singleton_append, ofSegment_of_words hwords]
  · rfl
  · rintro heq
    rw [heq] at hupper
    exact absurd hupper (by decide)
  · rintro heq
    rw [heq] at hupper
    exact absurd hupper (by decide)

end LineClass

/-! ## Segments -/

namespace Segment

theorem segmentsFrom_verbatim (column : Nat) (done rest : Text) :
    segmentsFrom column done .verbatim rest = [⟨column, done.reverse ++ rest, .lineEnd⟩] := by
  induction rest generalizing done with
  | nil => simp [segmentsFrom]
  | cons s rest ih =>
    rw [segmentsFrom, ih]
    simp

theorem segmentsFrom_cons {mode : Mode} (h : (s.isBracket && mode = .code) = false)
    (column : Nat) (done rest : Text) : segmentsFrom column done mode (s :: rest) =
      segmentsFrom column (s :: done) (mode.after s) rest := by
  cases mode with
  | verbatim | quoted => rfl
  | code =>
    have hbracket : s.isBracket = false := by simpa using h
    simp only [isBracket, Bool.or_eq_false_iff, decide_eq_false_iff_not] at hbracket
    rw [segmentsFrom, if_neg hbracket.1, if_neg hbracket.2, Mode.after]
    split
    · rfl
    · split <;> rfl

/-- A line is cut so that no bracket is left outside strings and comments, or it is not cut at all
because up to a `<` it is a directive that is not converted. -/
theorem segmentsFrom_cases {column : Nat} {done : Text} {mode : Mode} (hcolumn : 1 ≤ column)
    (hmode : Text.modeAfter done.reverse = mode) (hfree : hasBracket done.reverse = false)
    (rest : Text) :
    (∀ s ∈ segmentsFrom column done mode rest, s.text.hasBracket = false) ∨
      column = 1 ∧ ∃ before later, done.reverse ++ rest = before ++ .char '<' :: later ∧
        isDirective before = true ∧ segmentsFrom column done mode rest =
          [⟨1, before ++ .char '<' :: later, .lineEnd⟩] := by
  induction rest generalizing column done mode with
  | nil =>
    rw [segmentsFrom]
    exact .inl (forall_mem_singleton.mpr hfree)
  | cons s rest ih =>
    cases hs : s.isBracket && mode = .code with
    | false =>
      have hdone : hasBracket (done.reverse ++ [s]) = false := by
        rw [hasBracket, Text.anySplit_concat, ← hasBracket, hfree, hmode, hs,
          Bool.or_self]
      rw [segmentsFrom_cons hs]
      have hrest := @ih column (s :: done) (mode.after s) hcolumn
      rw [reverse_cons, Text.modeAfter_concat, append_assoc, singleton_append] at hrest
      exact hrest (by rw [hmode]) hdone
    | true =>
      obtain ⟨hbracket, rfl⟩ : s.isBracket = true ∧ mode = .code := by simpa using hs
      -- A segment that ends with a bracket, and those after it.
      have hcut (stop : Stop) : ∀ s ∈ ⟨column, done.reverse, stop⟩ ::
          segmentsFrom (column + done.length + 1) [] .code rest, s.text.hasBracket = false := by
        rcases @ih (column + done.length + 1) [] .code (by omega) rfl rfl with hall | ⟨hone, -⟩
        · exact forall_mem_cons.mpr ⟨hfree, hall⟩
        · omega
      obtain rfl | rfl : s = .char '<' ∨ s = .char '>' := by simpa [isBracket] using hbracket
      · rw [segmentsFrom, if_neg (by decide), if_neg (by decide), if_pos rfl]
        split
        · next hkept =>
          obtain ⟨rfl, hline⟩ : column = 1 ∧ isSuppressed done.reverse = true := by
            simpa using hkept
          refine .inr ⟨rfl, done.reverse, rest, rfl, ?_, ?_⟩
          · simp [isDirective, hmode, hfree, hline]
          · rw [segmentsFrom_verbatim]
            simp
        · exact .inl (hcut .opening)
      · rw [segmentsFrom, if_neg (by decide), if_neg (by decide), if_neg (by decide), if_pos rfl]
        exact .inl (hcut .closing)

end Segment

/-! ## Lines -/

/-- The stretch is a bracket that is read as an operator. -/
def Stretch.isLoose : Stretch → Bool
  | lexeme l => l.isBracket
  | _ => false

theorem Stretch.any_isLoose_ofCode (text : Text) : (ofCode text).any isLoose = text.hasBracket := by
  rw [ofCode, any_map]
  exact Lexeme.any_isBracket_lexemes text

namespace Line

variable {line : Line} {later : List Line}

/-- The line starts with a word of listing control and a `<` directly after it. -/
def Leaks (line : Line) : Prop :=
  ∃ blanks word rest, line.content = blanks ++ word ++ .char '<' :: rest ∧
    (∀ s ∈ blanks, s.isSpace = true) ∧ (∀ s ∈ word, s.isSpace = false) ∧
    upper word ∈ listing

/-- A line that up to a `<` is a directive that is not converted is kept as a comment, unless the
bracket follows its first word directly. -/
theorem leaks_of_isDirective {before rest : Text} (hdirective : isDirective before = true)
    (hcontent : line.content = before ++ .char '<' :: rest)
    (hclass : LineClass.ofSegment ⟨1, line.content, .lineEnd⟩ ≠ .suppressed) : line.Leaks := by
  simp only [isDirective, Bool.and_eq_true] at hdirective
  rcases Keyword.isSuppressed_cases hdirective.2 with ⟨tail, rfl⟩ | ⟨word, later, hwords, hlisting⟩
  · rw [hcontent] at hclass
    exact absurd (LineClass.ofSegment_dollar _) hclass
  · obtain ⟨blanks, tail, rfl, hblanks, hne, hword, htail⟩ := Text.exists_eq_of_words hwords
    cases tail with
    | nil => exact ⟨blanks, word, rest, by simpa using hcontent, hblanks, hword, hlisting⟩
    | cons s tail =>
      -- White space ends the first word before the bracket, so the line is kept.
      have hspace : (s :: (tail ++ .char '<' :: rest)).takeWhile (!·.isSpace) = [] := by
        simpa using htail
      have hfirst := Text.words_append_of_ne_nil hne hword (s :: (tail ++ .char '<' :: rest))
      have hline : line.content = blanks ++ (word ++ s :: (tail ++ .char '<' :: rest)) := by
        simpa using hcontent
      rw [hspace, append_nil, ← Text.words_append_of_isSpace hblanks, ← hline] at hfirst
      exact absurd (LineClass.ofSegment_of_mem_listing hfirst hlisting) hclass

/-- A line that leaks is not cut, and it is not kept as a comment. -/
theorem Leaks.segments_eq (h : line.Leaks) :
    segments line.content = [⟨1, line.content, .lineEnd⟩] ∧
      LineClass.ofSegment ⟨1, line.content, .lineEnd⟩ = .code ∧
      line.content.hasBracket = true := by
  obtain ⟨blanks, word, rest, hcontent, hblanks, hword, hlisting⟩ := h
  have hne : word ≠ [] := by
    rintro rfl
    exact absurd hlisting (by decide)
  have hplain : ∀ s ∈ blanks ++ word, isPlain s = true :=
    forall_mem_append.mpr ⟨fun s hs => isPlain_of (by decide) (hblanks s hs),
      Keyword.isPlain_of_mem_listing hlisting⟩
  have hbefore : words (blanks ++ word) = [word] := by
    have hwords := Text.words_append_of_ne_nil hne hword []
    rw [append_nil] at hwords
    rw [Text.words_append_of_isSpace hblanks, hwords]
    simp
  have hwords : words line.content = (word ++ .char '<' :: rest.takeWhile (!·.isSpace)) ::
      words (rest.dropWhile (!·.isSpace)) := by
    rw [hcontent, append_assoc, Text.words_append_of_isSpace hblanks,
      Text.words_append_of_ne_nil hne hword]
    rfl
  have hmem : char '<' ∈ upper (word ++ .char '<' :: rest.takeWhile (!·.isSpace)) := by
    rw [Text.upper_append, Text.upper_cons]
    exact mem_append_right _ (mem_append_left _ (by decide))
  have hcode : isSuppressed line.content = false := by
    -- Neither a dollar sign nor a word of listing control starts the line.
    rw [Bool.eq_false_iff]
    intro hsuppressed
    rcases Keyword.isSuppressed_cases hsuppressed with ⟨tail, hdollar⟩ |
      ⟨first, later, hfirst, hlist⟩
    · have hstart : (blanks ++ word).head? = some (.char '$') := by
        have hhead := congrArg List.head? (hcontent.symm.trans hdollar)
        cases hwhole : blanks ++ word with
        | nil => exact absurd (append_eq_nil_iff.mp hwhole).2 hne
        | cons s t => simpa [hwhole] using hhead
      cases blanks with
      | nil =>
        obtain ⟨s, word, rfl⟩ := exists_cons_of_ne_nil hne
        cases hstart
        have hupper : char '$' ∈ upper (.char '$' :: word) := by
          rw [Text.upper_cons]
          exact mem_append_left _ (by decide)
        exact absurd hupper ((by decide : ∀ t ∈ listing, char '$' ∉ t) _ hlisting)
      | cons s blanks =>
        cases hstart
        exact absurd (hblanks _ mem_cons_self) (by decide)
    · rw [hwords] at hfirst
      obtain ⟨rfl, -⟩ := List.cons.inj hfirst
      exact (by decide : ∀ t ∈ listing, char '<' ∉ t) _ hlist hmem
  refine ⟨?_, ?_, ?_⟩
  · have hsuppressed := Keyword.isSuppressed_of_words hbefore hlisting
    rw [segments, hcontent, Segment.segmentsFrom_append hplain, Segment.segmentsFrom]
    simp [hsuppressed, Segment.segmentsFrom_verbatim]
  · rw [LineClass.ofSegment_of_words hwords, hcode]
    · rfl
    · rintro heq
      rw [heq] at hmem
      exact absurd hmem (by decide)
    · rintro heq
      rw [heq] at hmem
      exact absurd hmem (by decide)
  · rw [Text.hasBracket_eq, hcontent, Mode.meetsBracket_plain hplain]
    rfl

theorem any_isLoose_ended (line : Line) : line.ended.any Stretch.isLoose = false := by
  rw [ended]
  cases line.terminator <;> rfl

theorem any_isLoose_remark (line : Line) : line.remark.any Stretch.isLoose = false := by
  rw [remark, any_cons, any_isLoose_ended]
  rfl

theorem any_isLoose_endStretches (line : Line) (later : List Line) (segment : Segment) :
    (line.endStretches later segment).1.any Stretch.isLoose =
      (LineClass.ofSegment segment = .code && segment.text.hasBracket) := by
  unfold endStretches
  cases LineClass.ofSegment segment with
  | commentBlock marker =>
    simp only [any_append, any_isLoose_remark]
    split <;> rfl
  | setRadix operand => exact any_isLoose_ended line
  | suppressed => exact any_isLoose_remark line
  | code => simp [Stretch.any_isLoose_ofCode, any_isLoose_ended]

theorem any_isLoose_of_segments {segments : List Segment}
    (h : ∀ s ∈ segments, s.text.hasBracket = false) :
    (line.stretches later segments).1.any Stretch.isLoose = false := by
  induction segments with
  | nil => rfl
  | cons segment rest ih =>
    obtain ⟨hsegment, hrest⟩ := forall_mem_cons.mp h
    rw [stretches]
    split
    · simp [Stretch.any_isLoose_ofCode, hsegment, Stretch.isLoose, ih hrest]
    · simp [Stretch.any_isLoose_ofCode, hsegment, Stretch.isLoose, ih hrest]
    · rw [any_isLoose_endStretches, hsegment, Bool.and_false]

/-- **A line has loose brackets if and only if it leaks.** -/
theorem any_isLoose_stretches (line : Line) (later : List Line) :
    (line.stretches later (segments line.content)).1.any Stretch.isLoose = true ↔ line.Leaks := by
  constructor
  · intro h
    rcases Segment.segmentsFrom_cases (Nat.le_refl 1)
      (show Text.modeAfter [].reverse = .code from rfl) rfl line.content with
      hfree | ⟨-, before, rest, hcontent, hdirective, hsegments⟩
    · rw [segments, any_isLoose_of_segments hfree] at h
      cases h
    · rw [reverse_nil, nil_append] at hcontent
      rw [segments, hsegments, ← hcontent, stretches, any_isLoose_endStretches,
        Bool.and_eq_true, decide_eq_true_eq] at h
      exact leaks_of_isDirective hdirective hcontent (by simp [h.1])
  · intro h
    obtain ⟨hsegments, hclass, hbracket⟩ := h.segments_eq
    rw [hsegments, stretches, any_isLoose_endStretches, hclass, hbracket]
    rfl

/-- One of the lines leaks and is not in a comment block; within one, `marker` ends it. -/
def AnyLeaks (marker : Option Text) : List Line → Prop
  | [] => False
  | line :: later =>
    match marker with
    | some m => AnyLeaks (if Text.contains m line.content then none else some m) later
    | none => line.Leaks ∨ AnyLeaks line.block? later

theorem any_isLoose_allStretches (marker : Option Text) (lines : List Line) :
    (allStretches marker lines).any Stretch.isLoose = true ↔ AnyLeaks marker lines := by
  induction lines generalizing marker with
  | nil => exact ⟨nofun, False.elim⟩
  | cons line later ih =>
    cases marker with
    | some m =>
      have hblock : line.blockStretches.any Stretch.isLoose = false := by
        unfold blockStretches
        split
        · rfl
        · exact any_isLoose_remark line
      rw [allStretches, any_append, hblock, Bool.false_or]
      exact ih _
    | none =>
      rw [allStretches, any_append, Bool.or_eq_true, any_isLoose_stretches, marker_stretches,
        ih, AnyLeaks]

end Line

/-- A line of the source leaks and is not in a comment block. -/
def Text.Leaks (source : Text) : Prop := Line.AnyLeaks none (Line.split source)

/-- **A source has loose brackets if and only if a line of it leaks.** -/
theorem Text.any_isLoose_stretches (source : Text) :
    source.stretches.any Stretch.isLoose = true ↔ source.Leaks :=
  Line.any_isLoose_allStretches none (Line.split source)

/-! ## Tokens -/

/-- The token is an operator that is a bracket. -/
def Token.isLoose (t : Token) : Bool :=
  t.kind = .operator && (t.text = some (ofString "<") || t.text = some (ofString ">"))

theorem Visit.Reads.isLoose_eq {kind : Kind} {text : Text} (h : v.Reads mark kind text) {t : Token}
    (hkind : t.kind = kind) (htext : t.text = some text) : t.isLoose = v.stretch.isLoose := by
  have hword : kind ≠ .operator → t.isLoose = false := by
    intro hne
    rw [Token.isLoose, hkind, decide_eq_false hne, Bool.false_and]
  have hshows := h.shows
  generalize v.stretch = s at hshows
  cases hshows with
  | lexeme l =>
    cases l with
    | operator operator =>
      simp only [Token.isLoose, hkind, htext, Lexeme.kind, Lexeme.text, Stretch.isLoose,
        Option.some.injEq]
      unfold Lexeme.isBracket
      split
      · next s heq =>
        obtain rfl := Lexeme.operator.inj heq
        simp [isBracket, ofString]
      · next hne =>
        have hchar : ∀ c : Char, operator ≠ [.char c] := fun c hc => hne (.char c) (by rw [hc])
        simp [ofString, hchar]
    | comment | string | blank | digits | name => exact hword (by simp [Lexeme.kind])
  | numeral | terminator | remark | setRadix => exact hword (by simp)

theorem Visit.Silent.isLoose_eq (h : v.Silent top) : v.stretch.isLoose = false := by
  rcases h with ⟨marker, hv, -⟩ | ⟨-, hv, -⟩
  · rw [hv]
    rfl
  · rw [hv]
    rfl

theorem Forest.Spelled.any_isLoose (h : Forest.Spelled top mark f w positions) (parent : Option Id)
    (first : Id) (prev : Option Id) :
    (f.tokens parent first prev).any Token.isLoose = w.any fun v => v.stretch.isLoose := by
  induction h generalizing parent first prev with
  | nil => rfl
  | silent hv h ih => rw [ih, any_cons, hv.isLoose_eq, Bool.false_or]
  | leaf hv h ih => rw [Forest.tokens, any_cons, any_cons, ih, hv.isLoose_eq rfl rfl]
  | @pair top mark f w w' positions m v new hm hsilent hv h ih =>
    obtain ⟨text, radix, hname, -⟩ := hv
    have hw : w'.any (fun v => v.stretch.isLoose) = false :=
      any_eq_false.mpr fun u hu => by rw [(hsilent u hu).isLoose_eq]; decide
    simp only [Forest.tokens, any_cons, any_append, ih, hm.1, hname, hw]
    rfl
  | group hv hinside he h ihinside ih =>
    simp only [Forest.tokens, any_cons, any_append, ihinside, ih, hv.1, he.1]
    rfl
  | unclosed hv hinside ih =>
    simp only [Forest.tokens, any_cons, any_append, any_nil, ih, hv.1]
    simp [Token.isLoose, Stretch.isLoose]

/-- **A document that was read has loose brackets if and only if a line of its source leaks.** -/
theorem Record.any_isLoose {source : Text} {radix : Int} {d : Document}
    (h : Record source radix d f w positions) :
    d.tokens.any Token.isLoose = true ↔ source.Leaks := by
  rw [h.tokens_eq, any_toArray, h.spelled.any_isLoose, ← Text.any_isLoose_stretches,
    ← h.stretches, any_map]
  rfl

end Macro10
