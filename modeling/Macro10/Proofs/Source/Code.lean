import Macro10.Proofs.Source.Over

/-!
# Code without surprises

Names, blanks and operators that are read one after another: as lexemes, as a segment up to an
opening bracket, and as the pieces that a reader makes of lexemes that are written in the same way
in the target. -/

namespace Macro10

open List

variable {s : Symbol} {rest text t : Text} {radix : Int} {l : Lexeme}

namespace Lexeme

/-- The text is a name. -/
def IsName (c : Text) : Prop := lexemes c = [.name c]
deriving Decidable

theorem first_of_name (h : first s rest = .name text) :
    s.isLetter = true ∧ s.isBlank = false ∧
      ∀ rest', first s rest' = .name (s :: rest'.takeWhile Symbol.isNameSymbol) := by
  unfold first at h ⊢
  split at h
  · cases h
  · next hcomment =>
    split at h
    · unfold ofQuote at h
      split at h <;> cases h
    · next hquote =>
      split at h
      · cases h
      · next hblank =>
        split at h
        · cases h
        · next hdigit =>
          split at h
          · next hletter =>
            refine ⟨hletter, Bool.eq_false_iff.mpr hblank, fun rest' => ?_⟩
            rw [if_neg hcomment, if_neg hquote, if_neg hblank, if_neg hdigit, if_pos hletter]
          · unfold ofOperator at h
            split at h <;> cases h

namespace IsName

variable {c : Text} (h : IsName c)
include h

theorem exists_first_eq : ∃ s t, c = s :: t ∧ first s t = .name c := by
  cases c with
  | nil => cases h
  | cons s t =>
    rw [IsName, lexemes_cons] at h
    exact ⟨s, t, rfl, (List.cons.inj h).1⟩

theorem isNameSymbol : ∀ s ∈ c, s.isNameSymbol = true := by
  obtain ⟨s, t, rfl, hfirst⟩ := h.exists_first_eq
  obtain ⟨hletter, -, hname⟩ := first_of_name hfirst
  have ht : t.takeWhile Symbol.isNameSymbol = t :=
    (List.cons.inj (Lexeme.name.inj ((hname t).symm.trans hfirst))).2
  exact forall_mem_cons.mpr ⟨Symbol.isNameSymbol_of_isLetter hletter, takeWhile_eq_self_iff.mp ht⟩

theorem head?_isBlank (rest : Text) : (c ++ rest).head?.any Symbol.isBlank = false := by
  obtain ⟨s, t, rfl, hfirst⟩ := h.exists_first_eq
  exact (first_of_name hfirst).2.1

/-- A name ends where no letter and no digit follows. -/
theorem lexemes_append (hrest : rest.head?.any Symbol.isNameSymbol = false) :
    lexemes (c ++ rest) = .name c :: lexemes rest := by
  obtain ⟨s, t, rfl, hfirst⟩ := h.exists_first_eq
  have hstop : rest.takeWhile Symbol.isNameSymbol = [] := by
    cases rest with
    | nil => rfl
    | cons s rest => exact takeWhile_cons_of_neg (by simpa using hrest)
  have hrest : (t ++ rest).takeWhile Symbol.isNameSymbol = t := by
    rw [takeWhile_append_of_pos fun s hs => h.isNameSymbol s (mem_cons_of_mem _ hs),
      hstop, append_nil]
  rw [cons_append, lexemes_cons, (first_of_name hfirst).2.2, hrest]
  simp [source]

end IsName

theorem lexemes_space (hrest : rest.head?.any Symbol.isBlank = false) :
    lexemes (.char ' ' :: rest) = .blank [.char ' '] :: lexemes rest := by
  have hstop : rest.takeWhile Symbol.isBlank = [] := by
    cases rest with
    | nil => rfl
    | cons s rest => exact takeWhile_cons_of_neg (by simpa using hrest)
  have hfirst : first (.char ' ') rest = .blank [.char ' '] := by
    rw [first, if_neg (by decide), if_neg (by decide), if_pos (by decide), hstop]
  rw [lexemes_cons, hfirst]
  rfl

end Lexeme

/-! ## Segments -/

namespace Segment

/-- The symbol has no meaning for the brackets of a line. -/
def isPlain (s : Symbol) : Bool :=
  !(s.is '"' || s.is ';' || s.is '<' || s.is '>')

theorem isPlain_iff :
    isPlain s = true ↔ s ≠ .char '"' ∧ s ≠ .char ';' ∧ s ≠ .char '<' ∧ s ≠ .char '>' := by
  simp [isPlain, Symbol.is, and_assoc]

/-- A class of symbols that none of the four special ones is in has plain symbols only. -/
theorem isPlain_of {p : Symbol → Bool} (h : (["<", ">", "\"", ";"].flatMap
    Text.ofString).all (fun s => !p s) = true) (hs : p s = true) : isPlain s = true := by
  have hne : ∀ u ∈ (["<", ">", "\"", ";"].flatMap Text.ofString), s ≠ u := by
    rintro u hu rfl
    have hu' := all_eq_true.mp h s hu
    rw [hs] at hu'
    cases hu'
  exact isPlain_iff.mpr ⟨hne _ (by decide), hne _ (by decide), hne _ (by decide), hne _ (by decide)⟩

theorem isPlain_of_isNameSymbol (h : s.isNameSymbol = true) :
    isPlain s = true ∧ s.endsLine = false := by
  have hne : ∀ c : Char, (Symbol.char c).isNameSymbol = false → s.is c = false := by
    rintro c hc
    rw [Bool.eq_false_iff, Ne, Symbol.is_iff]
    rintro rfl
    exact nomatch hc.symm.trans h
  simp [isPlain, Symbol.endsLine, hne '"' (by decide), hne ';' (by decide), hne '<' (by decide),
    hne '>' (by decide), hne '\n' (by decide), hne '\r' (by decide)]

theorem segmentsFrom_append (ht : ∀ s ∈ t, isPlain s = true) (column : Nat) (done rest : Text) :
    segmentsFrom column done .code (t ++ rest) =
      segmentsFrom column (t.reverse ++ done) .code rest := by
  induction t generalizing done with
  | nil => rfl
  | cons s t ih =>
    obtain ⟨hs, ht⟩ := forall_mem_cons.mp ht
    obtain ⟨hquote, hcomment, hopening, hclosing⟩ := isPlain_iff.mp hs
    rw [cons_append, segmentsFrom, if_neg hquote, if_neg hcomment, if_neg hopening,
      if_neg hclosing, ih ht, reverse_cons, append_assoc]
    rfl

/-- A line without brackets is one segment. -/
theorem segmentsFrom_of_no_bracket (column : Nat) (done : Text) (mode : Mode)
    (h : ∀ s ∈ text, s ≠ .char '<' ∧ s ≠ .char '>') :
    segmentsFrom column done mode text = [⟨column, done.reverse ++ text, .lineEnd⟩] := by
  induction text generalizing done mode with
  | nil => simp [segmentsFrom]
  | cons s text ih =>
    obtain ⟨⟨hopening, hclosing⟩, htext⟩ := forall_mem_cons.mp h
    have hstep (mode : Mode) : segmentsFrom column (s :: done) mode text =
        [⟨column, done.reverse ++ s :: text, .lineEnd⟩] := by
      rw [ih _ _ htext]
      simp
    cases mode with
    | verbatim | quoted => exact hstep _
    | code =>
      rw [segmentsFrom, if_neg hopening, if_neg hclosing]
      split
      · exact hstep _
      · split <;> exact hstep _

/-- A line that is code up to an opening bracket at its end. -/
theorem segments_opening (ht : ∀ s ∈ t, isPlain s = true) (hcode : Keyword.isSuppressed t = false) :
    segments (t ++ [.char '<']) = [⟨1, t, .opening⟩, ⟨t.length + 2, [], .lineEnd⟩] := by
  rw [segments, segmentsFrom_append ht, append_nil, segmentsFrom, if_neg (by decide),
    if_neg (by decide), if_pos rfl, reverse_reverse, hcode, if_neg (by decide), segmentsFrom,
    length_reverse, reverse_nil, show 1 + t.length + 1 = t.length + 2 by omega]

end Segment

/-! ## Lexemes that last -/

/-- The lexeme is written in the same way in the target. -/
def Lexeme.IsLasting (radix : Int) : Lexeme → Prop
  | .digits text point => point = false ∧ Numeral.targetText text radix = .ok text
  | .operator text => text ≠ "^" ∧ text ≠ "!"
  | _ => True

instance (radix : Int) (lexeme : Lexeme) : Decidable (lexeme.IsLasting radix) :=
  match lexeme with
  | .digits .. | .operator _ => inferInstanceAs (Decidable (_ ∧ _))
  | .comment _ | .string .. | .blank _ | .name _ => inferInstanceAs (Decidable True)

theorem Lexeme.IsLasting.text_eq (h : l.IsLasting radix) : l.text = l.source := by
  cases l with
  | digits text point =>
    obtain ⟨rfl, -⟩ := h
    rfl
  | comment | string | blank | name | operator => rfl

namespace Reader

variable {r : Reader}

theorem exists_readLexeme_lasting (hradix : r.radix = some radix) (hmark : r.afterMark = false)
    (hproper : l.Proper) (hlasting : l.IsLasting radix) (position : Position) :
    ∃ s, r.readLexeme position l = .ok s ∧ s.radix = some radix ∧ s.frames = r.frames ∧
      s.scope.items = .node (.made l.kind l.text) [] :: r.scope.items := by
  obtain ⟨verdict, hverdict, hsettle⟩ : ∃ verdict, r.verdictOn l = .ok verdict ∧
      ∀ s : Reader, (s.settle l.kind l.text position verdict).scope.items =
        .node (.made l.kind l.text) [] :: s.scope.items := by
    cases l with
    | comment | string | blank | operator => exact ⟨.unconcerned, rfl, fun s => rfl⟩
    | name text =>
      refine ⟨.unconcerned, ?_, fun s => rfl⟩
      rw [verdictOn, judgeName, hmark]
      rfl
    | digits text point =>
      obtain ⟨rfl, htarget⟩ := hlasting
      rw [Numeral.IsRun.targetText_eq hproper] at htarget
      obtain ⟨value, hread, htarget⟩ := bind_eq_ok.mp htarget
      have hverdict : r.verdictOn (.digits text false) = Numeral.judgeNumber text radix := by
        rw [verdictOn, radixOf, hradix]
        rfl
      rw [hverdict, Numeral.IsRun.judgeNumber_eq hproper, hread]
      cases value with
      | none => exact ⟨.refused _, rfl, fun s => rfl⟩
      | some n =>
        refine ⟨.converted text, ?_, fun s => rfl⟩
        change Numeral.render n radix >>= _ = _
        rw [show Numeral.render n radix = .ok text from htarget]
        rfl
  have hs := readLexeme_eq_ok.mpr ⟨verdict, hverdict, Eq.refl (settle _ _ _ position _)⟩
  obtain ⟨scope, diagnostics, heq⟩ := exists_readLexeme_eq hs
  refine ⟨_, hs, by rw [heq]; exact hradix, by rw [heq], ?_⟩
  rw [hsettle]
  rcases noting_cases r position l with hnoting | hnoting
  · rw [hnoting]
  · rw [hnoting]
    rfl

/-- Lexemes that last are read as pieces with their texts. -/
theorem exists_takeAll_lasting (hradix : r.radix = some radix) (hmark : r.afterMark = false)
    {lexemes : List Lexeme} (hlexemes : ∀ l ∈ lexemes, l.Proper ∧ l.IsLasting radix)
    (line column : Nat) :
    ∃ s, r.takeAll line column (lexemes.map .lexeme) = .ok s ∧ s.radix = some radix ∧
      s.frames = r.frames ∧ s.scope.items =
        (lexemes.map fun l => .node (.made l.kind l.text) []).reverse ++ r.scope.items := by
  induction lexemes generalizing r line column with
  | nil => exact ⟨r, rfl, hradix, rfl, rfl⟩
  | cons l lexemes ih =>
    obtain ⟨⟨hproper, hlasting⟩, hlexemes⟩ := forall_mem_cons.mp hlexemes
    obtain ⟨s, hs, hradix, hframes, hitems⟩ :=
      exists_readLexeme_lasting hradix hmark hproper hlasting ⟨line, column⟩
    have hmark : s.afterMark = false := by
      rw [afterMark_eq, hitems]
      cases l with
      | operator text => exact decide_eq_false hlasting.1
      | comment | string | blank | digits | name => rfl
    obtain ⟨u, hu, hradix', hframes', hitems'⟩ := ih hradix hmark hlexemes
      ((Stretch.lexeme l).lineAfter line) ((Stretch.lexeme l).columnAfter column)
    refine ⟨u, ?_, hradix', hframes'.trans hframes, ?_⟩
    · rw [map_cons, takeAll, take, hs]
      exact hu
    · rw [hitems', hitems]
      simp

end Reader

end Macro10
