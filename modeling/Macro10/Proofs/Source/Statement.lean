import Macro10.Proofs.Bodies
import Macro10.Proofs.Source.Balanced

/-!
# What is read after a word

A line of a word, a blank and more is read as the word, the blank and what the rest alone is read
as: the reader that has the word already, and one that has nothing yet, stay alike
(`Reader.exists_codeOf`, `Text.CodeOf.exists_readLines_word`, `Text.CodeOf.exists_readLines_body`).
-/

namespace Macro10

open Stretch (cut)
open Row (leaves nameOf)

variable {r : Reader} {w t : Text} {radix : Int}

namespace Reader

/-! ## A word and a blank -/

/-- The word and the blank of a line, last piece first. -/
def wordRow (w : Text) : List Item :=
  [.node { kind := .whitespace, text := [.char ' '] } [],
    .node { kind := .identifier, text := w } []]

/-- **What stands after a word is read as if it stood alone,** and fails as if it stood alone. -/
theorem abreast_word (stretches : List Stretch) (radix : Option Int) (w : Text) :
    Abreast (Over (wordRow w) []) (({ radix } : Reader).takeAll 1 1 stretches)
      (({ radix } : Reader).takeAll 1 1
        (.lexeme (.name w) :: .lexeme (.blank [.char ' ']) :: stretches)) := by
  have hword : ∃ s, ({ radix } : Reader).takeAll 1 1
      [.lexeme (.name w), .lexeme (.blank [.char ' '])] = .ok s ∧
        Over (wordRow w) [] { radix } s := ⟨_, rfl, rfl, rfl⟩
  obtain ⟨s, hs, hover⟩ := hword
  have hsplit := takeAll_append ({ radix } : Reader) 1 1
    [.lexeme (.name w), .lexeme (.blank [.char ' '])] stretches
  rw [hs] at hsplit
  exact hsplit ▸ hover.takeAll rfl stretches _ _ _ _

end Reader

/-! ## Code that is read alone -/

/-- The stretches of a body with one statement in it. -/
def Stretch.body : List Stretch := [.opening, .lexeme (.name "NOP"), .closing]

theorem Reader.exists_takeAll_body (s : Reader) (line column : Nat) :
    ∃ r, s.takeAll line column (Stretch.body ++ [.terminator .lineFeed]) = .ok r ∧
      r.rows = consTop (.node { kind := .whitespace, text := [.char '\n'] } [])
        (consTop (closedGroup (leaves [nameOf "NOP"])) s.rows) :=
  ⟨_, rfl, rfl⟩

/-- Read alone, the code leaves the items and no open group. -/
def Text.CodeOf (radix : Int) (t : Text) (xs : List Item) : Prop :=
  ∃ r, ({ radix := some radix } : Reader).takeAll 1 1 (cut [] t) = .ok r ∧
    r.rows = [xs.reverse]

theorem Reader.exists_takeAll_cut {radix : Option Int}
    (hline : Line.Follows w t) (h : ({ radix } : Reader).takeAll 1 1
      (Text.stretches (w ++ .char ' ' :: t ++ [.char '\n'])) = .ok r) :
    ∃ r₀, ({ radix } : Reader).takeAll 1 1 (cut [] t) = .ok r₀ := by
  rw [hline, takeAll_append] at h
  obtain ⟨s, hs, -⟩ := bind_eq_ok.mp h
  obtain ⟨r₀, hr₀, -⟩ := (abreast_word _ _ w).exists_left hs
  exact ⟨r₀, hr₀⟩

/-- **Balanced code after a word is read as one row.** -/
theorem Reader.exists_codeOf {a : Symbol}
    (hw : Line.Opens w) (ht : ∀ s ∈ a :: t, s.isCode = true ∧ s.endsLine = false)
    (hstart : a.isBlank = false) (hbalanced : Text.Balanced (a :: t))
    (h : ({ radix := some radix } : Reader).takeAll 1 1
      (Text.stretches (w ++ .char ' ' :: (a :: t) ++ [.char '\n'])) = .ok r) :
    ∃ xs, Text.CodeOf radix (a :: t) xs ∧ Row.Led xs ∧ ∀ x ∈ xs, x.value.Calm := by
  have hcode : ∀ s ∈ a :: t, s.isCode = true := fun s hs => (ht s hs).1
  obtain ⟨r₀, hr₀⟩ := exists_takeAll_cut (hw.follows ht hstart) h
  obtain ⟨xs, hrows, hled, hcalm⟩ := exists_row_of_balanced hcode hstart hbalanced hr₀
  exact ⟨xs, ⟨r₀, hr₀, hrows⟩, hled, hcalm⟩

namespace Text.CodeOf

open Reader

variable {xs : List Item}

/-- The code is read after a word, and more is read after the code. -/
theorem exists_takeAll (h : CodeOf radix t xs) (w : Text) (stretches : List Stretch) :
    ∃ (s : Reader) (line column : Nat), s.rows = [xs.reverse ++ wordRow w] ∧
      ({ radix := some radix } : Reader).takeAll 1 1 (.lexeme (.name w) ::
        .lexeme (.blank [.char ' ']) :: cut [] t ++ stretches) =
          s.takeAll line column stretches := by
  obtain ⟨r, hr, hrows⟩ := h
  obtain ⟨s, hs, hover⟩ := (abreast_word _ _ w).exists_right hr
  have hsplit := takeAll_append { radix := some radix } 1 1
    (.lexeme (.name w) :: .lexeme (.blank [.char ' ']) :: cut [] t) stretches
  rw [hs] at hsplit
  exact ⟨s, _, _, by rw [hover.rows, hrows, stacked], hsplit⟩

theorem exists_readLines_word (h : CodeOf radix t xs) (hline : Line.Follows w t) :
    ∃ r, Reads (some radix) (w ++ .char ' ' :: t ++ [.char '\n']) r ∧
      r.forest.items = leaves [nameOf w, Row.blank] ++ xs ++
        leaves [.made .whitespace [.char '\n']] := by
  obtain ⟨s, line, column, hrows, htake⟩ :=
    h.exists_takeAll w [.terminator .lineFeed]
  refine ⟨s.put .whitespace Terminator.lineFeed.text ⟨line, column⟩, readLines_split_eq_ok.mpr ?_,
    ?_⟩
  · rw [hline, htake]
    rfl
  · rw [forest_of_rows (by rw [rows_put, hrows]; rfl)]
    simp [wordRow, leaves, Piece.made, Terminator.text, Text.ofString]

theorem comma (h : CodeOf radix t xs) (ht : ∀ s ∈ t, s.isCode = true) :
    CodeOf radix (t ++ [.char ',']) (xs ++ [.node Row.comma []]) := by
  obtain ⟨r, hr, hrows⟩ := h
  obtain ⟨s, hs, hrows'⟩ : ∃ s, r.takeAll (Stretch.linesAfter 1 (cut [] t))
      (Stretch.columnsAfter 1 (cut [] t)) [.lexeme (.operator ",")] = .ok s ∧
        s.rows = consTop (.node Row.comma []) r.rows := ⟨_, rfl, rfl⟩
  refine ⟨s, ?_, ?_⟩
  · rw [Stretch.cut_append_comma (List.forall_mem_nil _) ht, takeAll_append, hr]
    exact hs
  · rw [hrows', hrows, List.reverse_concat]
    rfl

/-- Lexemes that last are read as what they say. -/
theorem lasting (ht : ∀ s ∈ t, s ≠ .char '<' ∧ s ≠ .char '>')
    (h : ∀ l ∈ Lexeme.lexemes t, l.IsLasting radix) :
    CodeOf radix t (leaves ((Lexeme.lexemes t).map fun l => .made l.kind l.text)) := by
  obtain ⟨r, hr, -, hframes, hrow⟩ := exists_takeAll_lasting (r := { radix := some radix }) rfl rfl
    (fun l hl => ⟨Lexeme.proper_of_mem_lexemes hl, h l hl⟩) 1 1
  refine ⟨r, Stretch.cut_of_no_bracket ht [] ▸ hr, ?_⟩
  rw [rows, hframes, hrow, leaves]
  simp [Forest.items]

theorem exists_readLines_body (h : CodeOf radix t xs) (hw : Line.Opens w)
    (ht : ∀ s ∈ t, s.isCode = true ∧ s.endsLine = false)
    (hstart : t.head?.any Symbol.isBlank = false) :
    ∃ r, Reads (some radix) (w ++ .char ' ' :: (t ++ ("<NOP>" : Text)) ++ [.char '\n']) r ∧
      r.forest.items = leaves [nameOf w, Row.blank] ++ xs ++
        closedGroup (leaves [nameOf "NOP"]) ::
          leaves [.made .whitespace [.char '\n']] := by
  have hcut : cut [] (t ++ "<NOP>") = cut [] t ++ Stretch.body :=
    Stretch.cut_append_opening (List.forall_mem_nil _) (fun s hs => (ht s hs).1) "NOP>"
  have ht' : ∀ s ∈ t ++ "<NOP>", s.isCode = true ∧ s.endsLine = false :=
    List.forall_mem_append.mpr ⟨ht, by decide⟩
  have hstart' : (t ++ "<NOP>").head?.any Symbol.isBlank = false := by
    cases t with
    | nil => rfl
    | cons s t => exact hstart
  obtain ⟨s, line, column, hrows, htake⟩ :=
    h.exists_takeAll w (Stretch.body ++ [.terminator .lineFeed])
  obtain ⟨r, hr, hrows'⟩ := exists_takeAll_body s line column
  refine ⟨r, readLines_split_eq_ok.mpr ?_, ?_⟩
  · rw [hw.follows ht' hstart', hcut, ← hr, ← htake]
    simp
  · rw [hrows] at hrows'
    rw [forest_of_rows hrows']
    simp [wordRow, leaves, Piece.made, Text.ofString]

end Text.CodeOf

end Macro10
