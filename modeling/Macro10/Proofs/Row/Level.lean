import Macro10.Proofs.Breaks
import Macro10.Proofs.Row.Carry

/-!
# Pieces within a line

No piece but a line terminator has a line break in its text or in its brackets (`Level`). The rules
keep this (`inherited_level`), but for messages, which take the text of groups into a string. None
is lost on the way (`breaks_message`), because what is trimmed off is outside the groups (`Shut`).
-/

namespace Macro10

open List
open Retarget (quoteSingle requote characterLiteral)
open Item (blanked made textOf text_eq)

theorem Terminator.exists_endsLine (e : Terminator) : ∃ s ∈ e.text, s.endsLine = true := by
  cases e <;> decide

theorem Piece.isNewline_of_breaks {p : Piece} (h : p.text.Breaks 0) : p.isNewline = false := by
  rw [isNewline, Token.isNewline, ← Bool.not_eq_true, Bool.and_eq_true]
  rintro ⟨hkind, hany⟩
  obtain ⟨e, -, he⟩ := any_eq_true.mp hany
  have hleaf : p.kind ≠ .container := by
    rw [show p.kind = .whitespace from of_decide_eq_true hkind]
    decide
  rw [decide_eq_true_eq, token, if_neg hleaf] at he
  obtain ⟨s, hs, hends⟩ := e.exists_endsLine
  rw [← Option.some.inj he] at hs
  rw [h.not_endsLine s hs] at hends
  cases hends

namespace Row

variable {p : Piece} {x y : Item} {xs : List Item} {n : Nat}

/-! ## Single pieces -/

/-- The brackets of the piece, and the word that closes it if it is a body, are within a line. -/
structure Bounded (p : Piece) : Prop where
  opening : p.opening.Breaks 0
  closing : p.closing.Breaks 0
  word : ∀ word, p.role = .body (some word) → word.Breaks 0

theorem bounded_made (kind : Kind) (text : Text) : Bounded (.made kind text) :=
  ⟨.nil, .nil, fun _ hrole => by cases hrole⟩

theorem Bounded.entered (h : Bounded p) (before : List Piece) : Bounded (entered before p) := by
  unfold Row.entered
  split
  · exact ⟨h.opening, h.closing, fun word hword => by cases hword⟩
  · next closing hrole =>
    refine ⟨.nil, .nil, fun word hword => ?_⟩
    obtain rfl := Role.body.inj hword
    have hwords : ∀ t ∈ closingTexts, ∀ s ∈ t, s.endsLine = false := by decide
    exact .of_not_endsLine (hwords _ (mem_closingTexts_of_roleAfter hrole))

theorem Bounded.turned (h : Bounded x.value) (hy : Turns x y) : Bounded y.value := by
  cases hy with
  | blanked => exact ⟨.nil, .nil, h.word⟩
  | spaced | respelled | operator | word | immediate => exact ⟨h.opening, h.closing, h.word⟩
  | entered before => exact h.entered before
  | braced =>
    unfold braced
    split
    · have hbraces : Text.Breaks [.char '\x7b'] 0 ∧ Text.Breaks [.char '\x7d'] 0 :=
        ⟨.of_not_endsLine (by decide), .of_not_endsLine (by decide)⟩
      exact ⟨hbraces.1, hbraces.2, h.word⟩
    · exact h

/-- The piece breaks a line if it is a line terminator, and only in its text. -/
structure Level (p : Piece) : Prop extends Bounded p where
  text : p.text.Breaks (if p.isNewline then 1 else 0)

theorem Level.of_breaks (h : Bounded p) (htext : p.text.Breaks 0) : Level p := by
  refine ⟨h, ?_⟩
  rw [Piece.isNewline_of_breaks htext]
  exact htext

theorem Level.breaks (h : Level p) (hline : p.isNewline = false) : p.text.Breaks 0 := by
  have htext := h.text
  rwa [hline] at htext

theorem breaks_characterLiteral {inner : Text} (h : inner.Breaks 0) :
    (characterLiteral inner).Breaks 0 := by
  have hquote : Text.Breaks [.char '\''] 0 := .of_not_endsLine (by decide)
  exact (hquote.append h).append hquote

theorem breaks_respell {respell : Text → Text} (hrespell : respell ∈ respellings) {text : Text}
    (h : text.Breaks 0) : (respell text).Breaks 0 := by
  have hsub {inner : Text} (hinner : inner ⊆ text) : inner.Breaks 0 :=
    .of_not_endsLine fun s hs => h.not_endsLine s (hinner hs)
  rcases mem_cons.mp hrespell with rfl | hrespell
  · unfold quoteSingle
    split
    · exact breaks_characterLiteral (hsub (by simp))
    · exact h
  · obtain rfl := mem_singleton.mp hrespell
    unfold requote
    refine breaks_characterLiteral (hsub ?_)
    split
    · exact fun s hs => mem_of_mem_tail (dropLast_subset _ hs)
    · exact fun s hs => mem_of_mem_tail hs

/-- What becomes of the text of an item. -/
inductive Retexts (p q : Piece) : Prop
  | fixed (htext : q.text.Breaks 0)
  | same (hkind : q.kind = p.kind) (htext : q.text = p.text) (hline : q.isNewline = p.isNewline)
  | string (hp : p.kind = .string) (hq : q.kind = .string) {respell : Text → Text}
      (hrespell : respell ∈ respellings) (htext : q.text = respell p.text)
  | word (hkind : p.kind = .identifier) (htext : q.text = p.text.dropLast)

theorem Turns.retexts (h : Turns x y) : Retexts x.value y.value := by
  have htexts {texts : List Text} {text : Text} (hmem : text ∈ texts)
      (hall : ∀ t ∈ texts, ∀ s ∈ t, s.endsLine = false) : text.Breaks 0 :=
    .of_not_endsLine (hall text hmem)
  cases h with
  | blanked => exact .fixed .nil
  | spaced _ htext => exact .fixed (htexts htext (by decide))
  | operator _ htext => exact .fixed (htexts htext (by decide))
  | word _ htext => exact .fixed (htexts htext (by decide))
  | respelled hkind hrespell => exact .string hkind hkind hrespell rfl
  | immediate hkind => exact .word hkind rfl
  | entered before =>
    unfold enter Row.entered
    split <;> exact .same rfl rfl rfl
  | braced =>
    unfold Row.braced
    split <;> exact .same rfl rfl rfl

/-- No change of a single item touches a line break. -/
theorem Level.turned (h : Level x.value) (hy : Turns x y) : Level y.value := by
  have hframe := h.toBounded.turned hy
  have hleaf {kind : Kind} (hkind : x.value.kind = kind) (hne : kind ≠ .whitespace) :
      x.value.text.Breaks 0 := h.breaks (Piece.isNewline_eq_false (by rw [hkind]; exact hne))
  cases hy.retexts with
  | fixed htext => exact .of_breaks hframe htext
  | same hkind htext hline => exact ⟨hframe, by rw [hline, htext]; exact h.text⟩
  | string hp _ hrespell htext =>
    refine .of_breaks hframe ?_
    rw [htext]
    exact breaks_respell hrespell (hleaf hp (by decide))
  | word hkind htext =>
    refine .of_breaks hframe (.of_not_endsLine fun s hs => ?_)
    rw [htext] at hs
    exact (hleaf hkind (by decide)).not_endsLine s (dropLast_subset _ hs)

theorem label_of_turns (h : Turns x y) : y.value.label = x.value.label := by
  cases h with
  | blanked | spaced | respelled | operator | word | immediate => rfl
  | entered before => exact (aged_enter before x).label
  | braced => exact (aged_braced x).label

/-- What was in the row stays as it is about line breaks. What is put in has no label. -/
theorem inherited_level (newline : Text) :
    Inherited newline fun p => p.label.isSome = true → Level p where
  turned := fun hx hy hlabel => (hx (label_of_turns hy ▸ hlabel)).turned hy
  made := fun _ hlabel => nomatch hlabel
  message := fun _ hlabel => nomatch hlabel
  newline := fun hlabel => nomatch hlabel
  closing := fun _ _ hlabel => nomatch hlabel

theorem Inserted.breaks (h : Inserted y) : (Item.text y).Breaks 0 := by
  obtain ⟨m, hm, rfl⟩ := h
  have hall : ∀ m ∈ madePieces, m.1 ≠ .container ∧ ∀ s ∈ m.2, s.endsLine = false := by decide
  obtain ⟨hkind, hends⟩ := hall m hm
  rw [text_eq, Item.value_made, Piece.kind_made, if_neg hkind]
  exact .of_not_endsLine hends

/-! ## Rows -/

/-- The number of line terminators of a row and of all that is inside it. -/
def lines (xs : List Item) : Nat := (Nest.listing xs).countP Piece.isNewline

@[simp]
theorem lines_nil : lines [] = 0 := rfl

@[simp]
theorem lines_append (xs ys : List Item) : lines (xs ++ ys) = lines xs + lines ys := by
  rw [lines, Nest.listing_append, countP_append]
  rfl

theorem lines_cons (x : Item) (xs : List Item) :
    lines (x :: xs) = (if x.value.isNewline then 1 else 0) + lines x.inside + lines xs := by
  rw [lines, Nest.listing_cons, Nest.values_eq, countP_append, countP_cons,
    Nat.add_comm (List.countP _ _)]
  rfl

/-- The walk changes no line terminators before it comes to them. -/
theorem AgedRow.lines_eq {ys : List Item} (h : AgedRow xs ys) : lines ys = lines xs := by
  induction h with
  | nil => rfl
  | cons hx _ ih => rw [lines_cons, lines_cons, hx.isNewline_eq, hx.inside, ih]

/-- An item breaks lines in its own text, if it is no group, and where its inside does. -/
theorem Level.breaks_text (h : Level x.value) (hleaf : x.value.kind ≠ .container → x.inside = [])
    (hinside : (textOf x.inside).Breaks (lines x.inside)) :
    (Item.text x).Breaks (lines [x]) := by
  rw [text_eq, lines_cons, lines_nil]
  by_cases hkind : x.value.kind = .container
  · have hline : x.value.isNewline = false := Piece.isNewline_eq_false (by simp [hkind])
    have hgroup := (h.opening.append hinside).append h.closing
    rw [if_pos hkind, hline]
    simpa [textOf] using hgroup
  · rw [if_neg hkind, hleaf hkind]
    simpa using h.text

theorem breaks_textOf_of_forall
    (h : ∀ x ∈ xs, (Item.text x).Breaks (lines [x])) : (textOf xs).Breaks (lines xs) := by
  have hsum : lines xs = (xs.map fun x => lines [x]).sum := by
    induction xs with
    | nil => rfl
    | cons x xs ih =>
      rw [map_cons, sum_cons, ← ih (forall_mem_cons.mp h).2, ← lines_append]
      rfl
  rw [hsum]
  exact .flatMap h

/-- **The line breaks of a row are its line terminators.** -/
theorem breaks_textOf (hleafy : Nest.Throughout Leafy xs)
    (hlevel : ∀ p ∈ Nest.listing xs, Level p) : (textOf xs).Breaks (lines xs) := by
  induction hleafy with
  | intro row _ ih =>
    refine breaks_textOf_of_forall fun x hx => ?_
    have hvalues : x.values ⊆ Nest.listing _ := fun p hp => mem_flatMap.mpr ⟨x, hx, hp⟩
    rw [Nest.values_eq] at hvalues
    obtain ⟨hvalue, hinside⟩ := forall_mem_cons.mp fun p hp => hlevel p (hvalues hp)
    exact hvalue.breaks_text (row x hx) (ih x hx hinside)

/-! ## Messages -/

/-- The brackets of a group are single symbols and no white space. -/
def Shut (p : Piece) : Prop :=
  p.kind = .container → ∃ opening closing : Symbol, p.opening = [opening] ∧ p.closing = [closing] ∧
    opening.isSpace = false ∧ closing.isSpace = false

theorem Shut.braced (h : Shut x.value) : Shut (braced x).value := by
  unfold Row.braced
  split
  · exact fun _ => ⟨.char '\x7b', .char '\x7d', rfl, rfl, by decide, by decide⟩
  · exact h

/-- The text is within a line, or it neither starts nor ends with white space. -/
def Firm (t : Text) : Prop :=
  t.Breaks 0 ∨
    t.head?.any (! Symbol.isSpace ·) = true ∧ t.reverse.head?.any (! Symbol.isSpace ·) = true

theorem firm_text (hlevel : Level x.value) (hshut : Shut x.value)
    (hline : x.value.isNewline = false) : Firm (Item.text x) := by
  rw [text_eq]
  split
  · next hkind =>
    obtain ⟨opening, closing, hopening, hclosing, hstart, hend⟩ := hshut hkind
    rw [hopening, hclosing]
    exact .inr ⟨by simp [hstart], by simp [hend]⟩
  · exact .inl (hlevel.breaks hline)

/-- Trimming takes nothing from the insides of groups. -/
theorem breaks_trim (h : (textOf xs).Breaks n)
    (hfirm : ∀ x ∈ xs, Firm (Item.text x)) : (Text.trim (textOf xs)).Breaks n := by
  have htext : textOf xs = (xs.map Item.text).flatten := flatMap_def ..
  refine h.trim ?_ ?_
  · rw [htext]
    refine Text.not_endsLine_takeWhile (forall_mem_map.mpr fun x hx => ?_)
    exact (hfirm x hx).imp_right And.left
  · rw [htext, reverse_flatten]
    refine Text.not_endsLine_takeWhile fun u hu => ?_
    rw [mem_reverse, List.map_map] at hu
    obtain ⟨x, hx, rfl⟩ := mem_map.mp hu
    refine (hfirm x hx).imp (fun hflat => .of_not_endsLine fun s hs => ?_) And.right
    exact hflat.not_endsLine s (mem_reverse.mp hs)

theorem breaks_textOf_zero (h : ∀ x ∈ xs, (Item.text x).Breaks 0) : (textOf xs).Breaks 0 := by
  refine .of_not_endsLine fun s hs => ?_
  obtain ⟨x, hx, hmem⟩ := mem_flatMap.mp hs
  exact (h x hx).not_endsLine s hmem

/-- What a message shows has the line breaks of its words. -/
theorem breaks_told {m : MessageParts Item}
    (hgap : ∀ y ∈ m.separator.toList ++ m.trailing.toList, (Item.text y).Breaks 0) {words : Text}
    (hwords : words.Breaks n) :
    (textOf (if words.isEmpty then
        (m.separator.toList ++ m.trailing.toList).take 1 ++ m.content.map blanked ++
          (m.separator.toList ++ m.trailing.toList).drop 1
      else
        m.separator.getD (made .whitespace [.char ' ']) :: m.content.map blanked ++
          made .string (.char '"' :: Text.replaceSymbol (.char '"') (.char '\'') words ++
            [.char '"']) :: m.trailing.toList)).Breaks n := by
  have hblanks : ∀ y ∈ m.content.map blanked, (Item.text y).Breaks 0 := by
    intro y hy
    obtain ⟨z, -, rfl⟩ := mem_map.mp hy
    rw [text_eq]
    exact .nil
  split
  · next hempty =>
    obtain rfl := List.isEmpty_iff.mp hempty
    obtain rfl : 0 = n := hwords.count
    refine breaks_textOf_zero fun y hy => ?_
    rcases mem_append.mp hy with hy | hy
    · rcases mem_append.mp hy with hy | hy
      · exact hgap y (mem_of_mem_take hy)
      · exact hblanks y hy
    · exact hgap y (mem_of_mem_drop hy)
  · have hseparator :
        (Item.text (m.separator.getD (made .whitespace [.char ' ']))).Breaks 0 := by
      cases hs : m.separator with
      | none =>
        refine Inserted.breaks (inserted_made ?_)
        decide
      | some y => exact hgap y (by simp [hs])
    have hquote : Text.Breaks [.char '"'] 0 := .of_not_endsLine (by decide)
    have hrequoted : (Text.replaceSymbol (.char '"') (.char '\'') words).Breaks n :=
      hwords.replaceSymbol (by decide) (by decide)
    have hstring := (hquote.append hrequoted).append hquote
    have htrailing : (textOf m.trailing.toList).Breaks 0 :=
      breaks_textOf_zero fun y hy => hgap y (mem_append_right _ hy)
    have hall := (hseparator.append (breaks_textOf_zero hblanks)).append (hstring.append htrailing)
    simpa [text_eq] using hall

/-- An item that a message can take. -/
structure Tellable (x : Item) : Prop where
  level : Level x.value
  shut : Shut x.value
  breaks : (Item.text x).Breaks (lines [x])

/-- **A message keeps the line breaks of what it takes.** -/
theorem breaks_message {ahead : List Item} (hleafy : Leafy ahead) (h : ∀ y ∈ ahead, Tellable y)
    (x : Item) : (textOf (message x ahead).shown).Breaks (lines (statement ahead)) := by
  have htaken : ∀ y ∈ statement ahead, y ∈ ahead ∧ y.value.isNewline = false := fun y hy =>
    ⟨(List.takeWhile_prefix _).subset hy, isNewline_of_mem_statement hy⟩
  have hparted := parted_message ahead
  unfold message
  dsimp only
  generalize messageParts isGap (statement ahead) _ = m at hparted ⊢
  have hgap : ∀ y ∈ m.separator.toList ++ m.trailing.toList,
      (Item.text y).Breaks 0 ∧ lines [y] = 0 := by
    intro y hy
    obtain ⟨hmem, hkind⟩ := hparted.gap y hy
    obtain ⟨hahead, hline⟩ := htaken y hmem
    have hlines : lines [y] = 0 := by
      rw [lines_cons, hline, hleafy y hahead (by simp [hkind])]
      rfl
    exact ⟨hlines ▸ (h y hahead).breaks, hlines⟩
  -- The blanks around the message end no line.
  have hlines : lines (statement ahead) = lines m.content := by
    have hnone {o : Option Item} (ho : ∀ y ∈ o.toList, lines [y] = 0) : lines o.toList = 0 := by
      cases o with
      | none => rfl
      | some y => exact ho y (by simp)
    rw [← hparted.split, lines_append, lines_append,
      hnone fun y hy => (hgap y (mem_append_left _ hy)).2,
      hnone fun y hy => (hgap y (mem_append_right _ hy)).2, Nat.zero_add, Nat.add_zero]
  rw [hlines]
  refine breaks_told (fun y hy => (hgap y hy).1) ?_
  have hcontent := hparted.content
  refine breaks_trim (breaks_textOf_of_forall fun y hy => ?_) fun y hy => ?_
  · exact (h y (htaken y (hcontent y hy)).1).breaks
  · obtain ⟨hahead, hline⟩ := htaken y (hcontent y hy)
    exact firm_text (h y hahead).level (h y hahead).shut hline

end Row

end Macro10
