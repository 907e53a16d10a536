import Macro10.Text.Blank
import Macro10.Text.Letter

/-!
# Lexemes

A stretch of a line without brackets falls into lexemes: comments, strings, blanks, digit
strings, names and operators. The split looks at the characters only; what a digit string is
worth is decided later.

Main statement: no symbol is lost (`flatMap_source_lexemes`).
-/

namespace Macro10

inductive Lexeme where
  /-- A semicolon and all that follows it. -/
  | comment (text : Text)
  /-- A quoted string with its quotes; the closing quote may be missing. -/
  | string (text : Text) (closed : Bool)
  | blank (text : Text)
  /-- A run of digits; with `point`, a point follows that marks it as decimal. -/
  | digits (text : Text) (point : Bool)
  /-- A letter, and the letters and digits after it. -/
  | name (text : Text)
  /-- A single symbol, or two equals signs. -/
  | operator (text : Text)
deriving DecidableEq, Repr

namespace Lexeme

def source : Lexeme → Text
  | comment text | string text _ | blank text | name text | operator text => text
  | digits text point => if point then text ++ [.char '.'] else text

/-- A string that starts with the quote `quote`, in front of `rest`. -/
def ofQuote (quote : Symbol) (rest : Text) : Lexeme :=
  match rest.dropWhile (· != .char '"') with
  | [] => string (quote :: rest) false
  | close :: _ => string (quote :: rest.takeWhile (· != .char '"') ++ [close]) true

/-- A point after a digit string belongs to it unless a name or a number follows directly. -/
def isDecimalPoint : Text → Bool
  | .char '.' :: s :: _ => !s.isNameSymbol
  | [.char '.'] => true
  | _ => false

/-- A digit string that starts with the digit `first`, in front of `rest`. -/
def ofDigit (first : Symbol) (rest : Text) : Lexeme :=
  digits (first :: rest.takeWhile Symbol.isDigit)
    (isDecimalPoint (rest.dropWhile Symbol.isDigit))

/-- An operator that starts with the symbol `s`, in front of `rest`. -/
def ofOperator (s : Symbol) (rest : Text) : Lexeme :=
  match s, rest with
  | .char '=', .char '=' :: _ => operator [.char '=', .char '=']
  | _, _ => operator [s]

/-- The lexeme that starts with the symbol `s`, in front of `rest`. -/
def first (s : Symbol) (rest : Text) : Lexeme :=
  if s = .char ';' then comment (s :: rest)
  else if s = .char '"' then ofQuote s rest
  else if s.isBlank then blank (s :: rest.takeWhile Symbol.isBlank)
  else if s.isDigit then ofDigit s rest
  else if s.isLetter then name (s :: rest.takeWhile Symbol.isNameSymbol)
  else ofOperator s rest

/-- The lexemes after the first `taken` symbols, which belong to a lexeme already found. -/
def lexemesAfter : Nat → Text → List Lexeme
  | _, [] => []
  | taken + 1, _ :: rest => lexemesAfter taken rest
  | 0, s :: rest => first s rest :: lexemesAfter ((first s rest).source.length - 1) rest

def lexemes (text : Text) : List Lexeme := lexemesAfter 0 text

/-! ## No symbol is lost -/

theorem append_takeWhile_isPrefix (s : Symbol) (p : Symbol → Bool) (rest : Text) :
    s :: rest.takeWhile p <+: s :: rest := by
  simpa using List.takeWhile_prefix p

theorem source_ofQuote_prefix (quote : Symbol) (rest : Text) :
    (ofQuote quote rest).source <+: quote :: rest := by
  unfold ofQuote
  have hsplit := List.takeWhile_append_dropWhile (p := (· != Symbol.char '"')) (l := rest)
  split
  · exact List.prefix_rfl
  · next close tail hdrop =>
    refine ⟨tail, ?_⟩
    rw [hdrop] at hsplit
    simp [source, hsplit]

theorem source_ofDigit_prefix (d : Symbol) (rest : Text) :
    (ofDigit d rest).source <+: d :: rest := by
  unfold ofDigit source
  have hsplit := List.takeWhile_append_dropWhile (p := Symbol.isDigit) (l := rest)
  simp only
  split
  · next hpoint =>
    unfold isDecimalPoint at hpoint
    split at hpoint
    · next s tail hdrop =>
      rw [hdrop] at hsplit
      exact ⟨s :: tail, by simp [hsplit]⟩
    · next hdrop =>
      rw [hdrop] at hsplit
      exact ⟨[], by simp [hsplit]⟩
    · cases hpoint
  · exact append_takeWhile_isPrefix d Symbol.isDigit rest

theorem source_ofOperator_prefix (s : Symbol) (rest : Text) :
    (ofOperator s rest).source <+: s :: rest := by
  unfold ofOperator
  split
  · next tail => exact ⟨tail, rfl⟩
  · exact ⟨rest, rfl⟩

/-- The first lexeme is the beginning of the text. -/
theorem source_first_prefix (s : Symbol) (rest : Text) : (first s rest).source <+: s :: rest := by
  unfold first
  split
  · exact List.prefix_rfl
  · split
    · exact source_ofQuote_prefix s rest
    · split
      · exact append_takeWhile_isPrefix s Symbol.isBlank rest
      · split
        · exact source_ofDigit_prefix s rest
        · split
          · exact append_takeWhile_isPrefix s Symbol.isNameSymbol rest
          · exact source_ofOperator_prefix s rest

theorem source_ofQuote_ne_nil (quote : Symbol) (rest : Text) :
    (ofQuote quote rest).source ≠ [] := by
  unfold ofQuote
  split <;> simp [source]

theorem source_ofDigit_ne_nil (d : Symbol) (rest : Text) : (ofDigit d rest).source ≠ [] := by
  unfold ofDigit source
  simp only
  split <;> simp

theorem source_ofOperator_ne_nil (s : Symbol) (rest : Text) : (ofOperator s rest).source ≠ [] := by
  unfold ofOperator
  split <;> simp [source]

/-- A lexeme takes at least one symbol. -/
theorem source_first_ne_nil (s : Symbol) (rest : Text) : (first s rest).source ≠ [] := by
  unfold first
  split
  · simp [source]
  · split
    · exact source_ofQuote_ne_nil s rest
    · split
      · simp [source]
      · split
        · exact source_ofDigit_ne_nil s rest
        · split
          · simp [source]
          · exact source_ofOperator_ne_nil s rest

theorem lexemesAfter_eq_drop (taken : Nat) (text : Text) :
    lexemesAfter taken text = lexemesAfter 0 (text.drop taken) := by
  induction text generalizing taken with
  | nil => cases taken <;> rfl
  | cons s rest ih =>
    cases taken with
    | zero => rfl
    | succ taken =>
      rw [lexemesAfter, ih taken, List.drop_succ_cons]

@[simp]
theorem lexemes_nil : lexemes [] = [] := rfl

/-- The lexemes of a text: the first one, and those of what it leaves. -/
theorem lexemes_cons (s : Symbol) (rest : Text) :
    lexemes (s :: rest) =
      first s rest :: lexemes ((s :: rest).drop (first s rest).source.length) := by
  have hlen : 0 < (first s rest).source.length :=
    List.length_pos_iff.mpr (source_first_ne_nil s rest)
  unfold lexemes
  rw [lexemesAfter, lexemesAfter_eq_drop]
  obtain ⟨n, hn⟩ : ∃ n, (first s rest).source.length = n + 1 :=
    ⟨_, (Nat.succ_pred_eq_of_pos hlen).symm⟩
  rw [hn, List.drop_succ_cons, Nat.add_sub_cancel]

theorem lexemes_of_source {s : Symbol} {rest tail : Text}
    (h : (first s rest).source ++ tail = s :: rest) :
    lexemes (s :: rest) = first s rest :: lexemes tail := by
  rw [lexemes_cons, ← h, List.drop_left]

/-- A text is taken lexeme by lexeme. -/
@[elab_as_elim]
theorem lexemes_induction {motive : Text → Prop} (nil : motive [])
    (cons : ∀ s rest tail, (first s rest).source ++ tail = s :: rest → motive tail →
      motive (s :: rest)) (text : Text) : motive text := by
  induction h : text.length using Nat.strongRecOn generalizing text with
  | _ n ih =>
    cases text with
    | nil => exact nil
    | cons s rest =>
      obtain ⟨tail, htail⟩ := source_first_prefix s rest
      have hpos := List.length_pos_iff.mpr (source_first_ne_nil s rest)
      have hlen := congrArg List.length htail
      rw [List.length_append] at hlen
      exact cons s rest tail htail (ih tail.length (by omega) tail rfl)

/-- **No symbol is lost:** the sources of the lexemes, in order, are the text. -/
theorem flatMap_source_lexemes (text : Text) : (lexemes text).flatMap source = text := by
  induction text using lexemes_induction with
  | nil => rfl
  | cons s rest tail htail ih => rw [lexemes_of_source htail, List.flatMap_cons, ih, htail]

end Lexeme

end Macro10
