import Macro10.Proofs.Row.Rewriters
import Macro10.Proofs.Source.Statement
import Macro10.Proofs.TargetRows
import Macro10.Proofs.Values

/-!
# Operands are rewritten alike

Three rules rewrite what stands after a word: for an instruction, for the operand of an immediate
instruction, and for the expression of a condition. They make the same text of the same operand
(`operand_rewriters_agree`).
-/

namespace Macro10

open List
open Text (ofString)

/-- The token is neither a comma nor a colon, and no word that means something to the rules. -/
def Token.inOperand (t : Token) : Bool :=
  !t.isOperator "," && !t.isOperator ":" && (t.kind ≠ .identifier || decide (Row.Ordinary t.words))

theorem Line.opens_of_mem {w : Text}
    (hw : w ∈ [ofString "LDA", ofString "LDAI", Head.keyword .ifNotZero]) : Opens w := by
  simp only [mem_cons, not_mem_nil, or_false] at hw
  rcases hw with rfl | rfl | rfl
  · exact ⟨by decide, startsCode_of_words (fun t => ⟨_, rfl⟩) ⟨_, _, rfl, by decide⟩ (by decide)⟩
  · exact ⟨by decide, startsCode_of_words (fun t => ⟨_, rfl⟩) ⟨_, _, rfl, by decide⟩ (by decide)⟩
  · exact ⟨by decide, startsCode_of_words (fun t => ⟨_, rfl⟩) ⟨_, _, rfl, by decide⟩ (by decide)⟩

theorem convert_line {t : Text} (ht : ∀ s ∈ t, s.endsLine = false) {radix : Int} {r : Reader}
    (h : Reader.Reads (some radix) (t ++ [.char '\n']) r) :
    convert (t ++ [.char '\n']) [] radix =
      .ok (Item.textOf (Row.retarget [.char '\n'] [] (Row.normal r.forest.items))) := by
  have hnewline : Line.newline (Line.split (t ++ [.char '\n'])) = [.char '\n'] := by
    rw [Line.split_append_of_not_endsLine ht (by rfl)]
    rfl
  rw [convert_of_readLines h, hnewline]
  rfl

/-- What holds of the tokens at the top level holds of a token for each item that was read. -/
theorem Document.exists_shows_of_tests {f : Forest} (hplain : f.Plain) {newline : Text}
    {diagnostics : List Diagnostic} {p : Token → Bool}
    (h : ∀ i ∈ (ofForest f newline diagnostics).root,
      (ofForest f newline diagnostics).tests p i = true)
    {x : Item} (hx : x ∈ f.items) : ∃ t children, p t = true ∧ t.Shows x.value children := by
  rw [← f.items_cells 0] at hx
  obtain ⟨c, hc, rfl⟩ := mem_map.mp hx
  obtain ⟨t, ht, hshows⟩ := (standing_ofForest hplain newline diagnostics).row.looks c hc
  have hroot : c.id ∈ (ofForest f newline diagnostics).root := by
    change c.id ∈ f.ids 0
    rw [← Forest.ids_cells]
    exact mem_map_of_mem hc
  exact ⟨t, _, (tests_eq ht p).symm.trans (h _ hroot), c.value_item ▸ hshows⟩

theorem Token.Shows.isOperand {t : Token} {p : Piece} {children : List Id}
    (hshows : t.Shows p children) (ht : t.inOperand = true) (hcalm : p.Calm)
    (hrole : p.role = .inline) : Row.IsOperand p := by
  simp only [inOperand, Bool.and_eq_true, Bool.not_eq_true', Bool.or_eq_true, decide_eq_true_eq,
    hshows.isOperator, hshows.kind] at ht
  obtain ⟨⟨hcomma, hcolon⟩, hword⟩ := ht
  refine ⟨hcalm, hcomma, hcolon, fun hkind => ?_, hrole⟩
  exact hshows.words (by simp [hkind]) ▸ hword.resolve_left (not_not_intro hkind)

/-! ## Operands that are read -/

/-- The text is an operand, and `xs` is what it is read as. -/
structure Text.OperandOf (radix : Int) (e : Text) (xs : List Item) : Prop where
  isCode : ∀ s ∈ e, s.isCode = true ∧ s.endsLine = false
  isBlank : e.head?.any Symbol.isBlank = false
  codeOf : CodeOf radix e xs
  led : Row.Led xs
  isOperand : ∀ x ∈ xs, Row.IsOperand x.value
  unmarked : ∀ x ∈ xs, x.value.Unmarked

/-- An operand is read in the same way after each word. -/
theorem exists_operandOf {e w : Text} {radix : Int} {d : Document} (hw : Line.Opens w)
    (hcode : ∀ s ∈ e, s.endsLine = false ∧ s ≠ .char ';' ∧ s ≠ .char '"')
    (hstart : e.head?.any (fun s => !s.isBlank) = true) (hbalanced : e.Balanced)
    (hread : read (w ++ .char ' ' :: e ++ [.char '\n']) radix = .ok d)
    (hroot : ∀ i ∈ d.root, d.tests Token.inOperand i = true) : ∃ xs, Text.OperandOf radix e xs := by
  obtain ⟨a, t, rfl⟩ : ∃ a t, e = a :: t := by
    cases e with
    | nil => cases hstart
    | cons a t => exact ⟨a, t, rfl⟩
  have hblank : a.isBlank = false := by simpa using hstart
  have hcode' : ∀ s ∈ a :: t, s.isCode = true ∧ s.endsLine = false := fun s hs =>
    ⟨Symbol.isCode_of_ne (hcode s hs).2.1 (hcode s hs).2.2, (hcode s hs).1⟩
  obtain ⟨s, -, htake, -⟩ := exists_takeAll_of_read hread
  obtain ⟨xs, hxs, hled, hcalm⟩ := Reader.exists_codeOf hw hcode' hblank hbalanced htake
  obtain ⟨r, hr, hplain, rfl⟩ := exists_forest_of_read hread
  -- the items are among those of the document, so they have what its tokens have
  obtain ⟨r', hr', hitems⟩ := hxs.exists_readLines_word (hw.follows hcode' hblank)
  obtain rfl : r = r' := Except.ok.inj (hr.symm.trans hr')
  have hmem : ∀ x ∈ xs, x ∈ r.forest.items := fun x hx => by
    rw [hitems]
    simp [hx]
  refine ⟨xs, hcode', hblank, hxs, hled, fun x hx => ?_, fun x hx =>
    r.forest.unmarked_items x (hmem x hx)⟩
  obtain ⟨t, children, ht, hshows⟩ := Document.exists_shows_of_tests hplain hroot (hmem x hx)
  refine hshows.isOperand ht (hcalm x hx) (r.forest.role_items _ ?_)
  exact mem_flatMap.mpr ⟨x, hmem x hx, x.value_mem_values⟩

namespace Text.OperandOf

variable {radix : Int} {e w : Text} {xs : List Item} (h : OperandOf radix e xs)
include h

theorem endsLine (hw : Line.Opens w) {u : Text} (hu : ∀ s ∈ u, s.endsLine = false) :
    ∀ s ∈ w ++ .char ' ' :: (e ++ u), s.endsLine = false := by
  refine forall_mem_append.mpr ⟨fun s hs => ?_, forall_mem_cons.mpr ⟨by decide, ?_⟩⟩
  · exact (Segment.isPlain_of_isNameSymbol (hw.isName.isNameSymbol s hs)).2
  · exact forall_mem_append.mpr ⟨fun s hs => (h.isCode s hs).2, hu⟩

theorem convert_word (hw : Line.Opens w) :
    convert (w ++ .char ' ' :: e ++ [.char '\n']) [] radix =
      .ok (Item.textOf (Row.retarget [.char '\n'] [] (Row.normal (Row.leaves
        [Row.nameOf w, Row.blank] ++ xs ++ Row.leaves [.made .whitespace [.char '\n']])))) := by
  obtain ⟨r, hr, hitems⟩ := h.codeOf.exists_readLines_word (hw.follows h.isCode h.isBlank)
  have hline := h.endsLine hw (forall_mem_nil _)
  rw [append_nil] at hline
  rw [convert_line hline hr, hitems]

theorem convert_instruction (hw : Line.Opens w) (hordinary : Row.Ordinary w) :
    convert (w ++ .char ' ' :: e ++ [.char '\n']) [] radix =
      .ok (w ++ ofString " " ++ Row.operandText [.char '\n'] (Row.normal xs) ++
        [.char '\n']) := by
  rw [h.convert_word hw, Row.textOf_instruction h.isOperand h.unmarked (by decide) hordinary]
  rfl

theorem convert_immediate (hw : Line.Opens w)
    (himmediate : Keyword.immediates.elem (Text.upper w) = true) :
    convert (w ++ .char ' ' :: e ++ [.char '\n']) [] radix =
      .ok (w.dropLast ++ ofString " #" ++ Row.operandText [.char '\n'] (Row.normal xs) ++
        [.char '\n']) := by
  rw [h.convert_word hw, Row.textOf_immediate h.isOperand h.unmarked (by decide) himmediate h.led]
  rfl

theorem convert_condition (hw : Line.Opens (Head.keyword .ifNotZero)) :
    convert (Head.keyword .ifNotZero ++ .char ' ' :: (e ++ [.char ','] ++ ofString "<NOP>") ++
        [.char '\n']) [] radix =
      .ok (ofString ".IF " ++ Row.operandText [.char '\n'] (Row.normal xs) ++
        ofString " <> 0\nNOP\n.ENDIF\n") := by
  have hcomma : ∀ s ∈ [Symbol.char ','], s.isCode = true ∧ s.endsLine = false := by decide
  have hstart : (e ++ [Symbol.char ',']).head?.any Symbol.isBlank = false := by
    cases e with
    | nil => rfl
    | cons s e => exact h.isBlank
  obtain ⟨r, hr, hitems⟩ := (h.codeOf.comma fun s hs => (h.isCode s hs).1).exists_readLines_body hw
    (forall_mem_append.mpr ⟨h.isCode, hcomma⟩) hstart
  have hordinary : Row.Ordinary (ofString "NOP") := by decide
  have hline := h.endsLine hw (u := .char ',' :: ofString "<NOP>") (by decide)
  rw [convert_line (by simpa using hline) hr, hitems, ← append_assoc, append_assoc _ [_],
    singleton_append, Reader.closedGroup, Row.textOf_condition h.isOperand (by decide) rfl,
    Row.textOf_name hordinary, append_assoc]
  rfl

end Text.OperandOf

/-- **The three rules that rewrite an operand agree.** The operand is code without strings and
comments whose brackets are balanced, and none of its tokens outside groups is a comma, a colon or a
keyword. If it can be read after the instruction, it is converted after each of the three words. -/
theorem operand_rewriters_agree {e : Text} {radix : Int} {d : Document}
    (hcode : ∀ s ∈ e, s.endsLine = false ∧ s ≠ .char ';' ∧ s ≠ .char '"')
    (hstart : e.head?.any (fun s => !s.isBlank) = true) (hbalanced : e.Balanced)
    (hread : read ("LDA " ++ e ++ "\n") radix = .ok d)
    (hroot : ∀ i ∈ d.root, d.tests Token.inOperand i = true) :
    ∃ e', convert ("LDA " ++ e ++ "\n") [] radix = .ok ("LDA " ++ e' ++ "\n") ∧
      convert ("LDAI " ++ e ++ "\n") [] radix = .ok ("LDA #" ++ e' ++ "\n") ∧
      convert ("IFN " ++ e ++ ",<NOP>\n") [] radix =
        .ok (".IF " ++ e' ++ " <> 0\nNOP\n.ENDIF\n") := by
  obtain ⟨xs, h⟩ := exists_operandOf (w := ofString "LDA") (Line.opens_of_mem (by simp)) hcode
    hstart hbalanced hread hroot
  have hsource : ofString "IFN " ++ e ++ ofString ",<NOP>\n" =
      Head.keyword .ifNotZero ++ .char ' ' :: (e ++ [.char ','] ++ ofString "<NOP>") ++
        [.char '\n'] := by
    simp [ofString, Head.keyword]
  refine ⟨Row.operandText [.char '\n'] (Row.normal xs), ?_, ?_, ?_⟩
  · exact h.convert_instruction (w := ofString "LDA") (Line.opens_of_mem (by simp)) (by decide)
  · exact h.convert_immediate (w := ofString "LDAI") (Line.opens_of_mem (by simp)) (by decide)
  · rw [hsource]
    exact h.convert_condition (Line.opens_of_mem (by simp))

/-- An operand with a marked numeral, a group with a comma in it, an inequality and two operators
that are written in another way. -/
theorem operand_rewriters_agree_mixed :
    ∃ d, read ("LDA " ++ "^D10+<A,B>!X!=.+%Y" ++ "\n") 8 =
        .ok d ∧
      ∃ e', convert ("LDA " ++ "^D10+<A,B>!X!=.+%Y" ++
          "\n") [] 8 = .ok ("LDA " ++ e' ++ "\n") ∧
        convert ("LDAI " ++ "^D10+<A,B>!X!=.+%Y" ++ "\n") [] 8 = .ok ("LDA #" ++ e' ++ "\n") ∧
        convert ("IFN " ++ "^D10+<A,B>!X!=.+%Y" ++
          ",<NOP>\n") [] 8 = .ok (".IF " ++ e' ++ " <> 0\nNOP\n.ENDIF\n") := by
  obtain ⟨d, hd, hroot⟩ := exists_eq_ok_of_any
    (x := read ("LDA " ++ "^D10+<A,B>!X!=.+%Y" ++ "\n") 8)
    (p := fun d => d.root.all (d.tests Token.inOperand)) (by decide +kernel)
  exact ⟨d, hd, operand_rewriters_agree (by decide) (by decide) (by decide) hd
    (all_eq_true.mp hroot)⟩

end Macro10
