import Macro10.Proofs.Row.Touch
import Mathlib.Data.List.TakeWhile

/-!
# What the rules for rows leave alone

No rule changes the marks of an item, and none makes or unmakes a line terminator (`frame`). Only a
condition on the pass could blank out a terminator, if it had arguments on the next line, which the
normal form never gives it.
-/

namespace Macro10.Row

open List
open Item (blanked setText)

variable {y : Item} {xs ys ahead : List Item}

variable {x : Item}

/-! ## Marks and terminators -/

/-- The marks of an item. -/
def marks (x : Item) : Option Nat × Option Nat × Bool :=
  (x.value.owner, x.value.parts, x.value.body)

/-- The marks of an item, and whether it ends a line. -/
def frame (x : Item) : (Option Nat × Option Nat × Bool) × Bool := (marks x, x.value.isNewline)

/-- The number of items up to the end of the line. -/
def lineLength (xs : List Item) : Nat := (xs.takeWhile fun x => !x.value.isNewline).length

/-- A text matters only to white space. -/
theorem frame_setText (h : x.value.kind ≠ .whitespace) (text : Text) :
    frame (setText text x) = frame x := by
  have hset : (setText text x).value.kind ≠ .whitespace := h
  simp only [frame, Piece.isNewline_eq_false h, Piece.isNewline_eq_false hset]
  rfl

/-- What ends no line may be blanked out. -/
theorem frame_blanked (h : x.value.isNewline = false) : frame (blanked x) = frame x := by
  simp only [frame, h, Item.value_blanked, Piece.isNewline_blanked]
  rfl

theorem frame_enter (before : List Piece) (x : Item) : frame (enter before x) = frame x := by
  unfold enter entered
  cases roleAfter before x.value <;> rfl

theorem frame_braced (x : Item) : frame (braced x) = frame x := by
  unfold braced
  split <;> rfl

/-- An operator is blanked out or gets a text; it may be the one that it has. -/
theorem operator_eq (opening : Text) (x : Item) (ahead : List Item) :
    operator opening x ahead = blanked x ∨
      ∃ text, operator opening x ahead = setText text x := by
  rcases operator_cases opening x ahead with ⟨text, -, htext⟩ | ⟨hsame, -⟩ | ⟨hblank, -⟩
  · exact .inr ⟨text, htext⟩
  · exact .inr ⟨x.value.text, by rw [hsame]; cases x; rfl⟩
  · exact .inl hblank

theorem Touches.frame_eq (h : Touches x y) : frame y = frame x := by
  obtain ⟨hturns, hword, hline, -⟩ := h
  cases hturns with
  | blanked => exact frame_blanked hline
  | @spaced text hkind htext =>
    have hblank : ∀ text ∈ blankTexts, (Piece.made .whitespace text).isNewline = false := by decide
    have hspace : (setText text x).value.isNewline = false := by
      have heq := hblank text htext
      simpa [Piece.isNewline, Piece.token, Token.isNewline, Piece.made, Piece.setText, hkind]
        using heq
    simp only [frame, hline, hspace]
    rfl
  | respelled hkind | operator hkind => exact frame_setText (by simp [hkind]) _
  | word hkind | immediate hkind => exact absurd hkind hword
  | entered before => exact frame_enter before x
  | braced => exact frame_braced x

/-- Changes of items keep the frame. -/
theorem Reworks.frame_eq (h : Reworks x y) : frame y = frame x := by
  induction h with
  | refl => rfl
  | tail _ hy ih => rw [hy.frame_eq, ih]

theorem Reworked.map_frame_eq (h : Reworked xs ys) : ys.map frame = xs.map frame := by
  induction h with
  | nil => rfl
  | cons hx _ ih => rw [map_cons, map_cons, Reworks.frame_eq hx, ih]

/-! ## Messages -/

/-- The parts make up the statement. -/
theorem messageParts_append {α : Type} (gap : α → Bool) (taken : List α) (commented : Bool) :
    (messageParts gap taken commented).separator.toList ++
      (messageParts gap taken commented).content ++
        (messageParts gap taken commented).trailing.toList = taken := by
  have hfront : (taken.head?.filter gap).toList ++ afterSeparator gap taken = taken := by
    unfold afterSeparator
    cases taken with
    | nil => rfl
    | cons x rest => by_cases hx : gap x <;> simp [hx, Option.filter]
  have hback : ∀ rest : List α, (if (rest.getLast?.filter gap).isSome then rest.dropLast
      else rest) ++ (rest.getLast?.filter gap).toList = rest := by
    intro rest
    cases hlast : rest.getLast? with
    | none => simp
    | some x =>
      have hrest := dropLast_append_getLast? x hlast
      by_cases hx : gap x <;> simp [hx, hrest, Option.filter]
  unfold messageParts
  simp only
  generalize afterSeparator gap taken = rest at hfront ⊢
  cases commented with
  | false => simpa using hfront
  | true => rw [if_pos rfl, append_assoc, hback, hfront]

/-- The blanks around a message are gaps. -/
theorem messageParts_gap {α : Type} {gap : α → Bool} {taken : List α} {commented : Bool} {x : α}
    (h : (messageParts gap taken commented).separator = some x ∨
      (messageParts gap taken commented).trailing = some x) : gap x = true := by
  unfold messageParts at h
  rcases h with h | h
  · exact (Option.filter_eq_some_iff.mp h).2
  · simp only at h
    split at h
    · exact (Option.filter_eq_some_iff.mp h).2
    · cases h

theorem kind_of_isGap (h : isGap x = true) : x.value.kind = .whitespace := by
  rw [isGap, Bool.and_eq_true] at h
  exact Piece.kind_of_isBlank h.1

/-- The parts depend on the gaps only. -/
theorem messageParts_map {α β : Type} (f : α → β) (gap : β → Bool) (taken : List α)
    (commented : Bool) :
    messageParts gap (taken.map f) commented =
      { separator := (messageParts (gap ∘ f) taken commented).separator.map f
        content := (messageParts (gap ∘ f) taken commented).content.map f
        trailing := (messageParts (gap ∘ f) taken commented).trailing.map f } := by
  have hfilter : ∀ o : Option α, (o.map f).filter gap = (o.filter (gap ∘ f)).map f := by
    intro o
    cases o with
    | none => rfl
    | some x => by_cases hx : gap (f x) <;> simp [Option.filter, hx]
  have hrest : afterSeparator gap (taken.map f) = (afterSeparator (gap ∘ f) taken).map f := by
    rw [afterSeparator, afterSeparator, head?_map, hfilter, Option.isSome_map]
    split <;> simp
  simp only [messageParts, hrest]
  generalize afterSeparator (gap ∘ f) taken = rest
  have hlast : (if commented then (rest.map f).getLast?.filter gap else none) =
      (if commented then rest.getLast?.filter (gap ∘ f) else none).map f := by
    cases commented with
    | false => rfl
    | true => simp only [if_true, getLast?_map, hfilter]
  rw [hlast, Option.isSome_map]
  generalize (if commented then rest.getLast?.filter (gap ∘ f) else none) = trailing
  simp only [head?_map, hfilter]
  cases trailing <;> simp [map_dropLast]

/-- A statement and what comes after it. -/
theorem statement_append_drop (ahead : List Item) :
    statement ahead ++ ahead.drop (statement ahead).length = ahead := by
  obtain ⟨later, hlater⟩ : statement ahead <+: ahead := takeWhile_prefix _
  have hdrop := congrArg (List.drop (statement ahead).length) hlater
  rw [drop_left] at hdrop
  rw [← hdrop, hlater]

/-- A statement is within its line. -/
theorem isNewline_of_mem_statement (h : x ∈ statement ahead) : x.value.isNewline = false := by
  have hx := mem_takeWhile_imp h
  simp only [Bool.not_or, Bool.and_eq_true, Bool.not_eq_true'] at hx
  exact hx.1

theorem map_frame_map_blanked (h : ∀ x ∈ xs, x.value.isNewline = false) :
    (xs.map blanked).map frame = xs.map frame := by
  rw [List.map_map]
  exact map_congr_left fun x hx => frame_blanked (h x hx)

/-- An operand keeps the frames. -/
theorem map_frame_immediate (opening : Text) (before : List Piece) (x : Item)
    (ahead : List Item) : (immediate opening before x ahead).ahead.map frame = ahead.map frame := by
  unfold immediate
  simp only
  split
  · rfl
  · rw [(spelled_operand ..).reworked.map_frame_eq, map_append,
      (reworked_blankLeading _).map_frame_eq, ← map_append, statement_append_drop]

/-- The string that a message prints. -/
def printed (words : Text) : Text :=
  .char '"' :: Text.replaceSymbol (.char '"') (.char '\'') (Text.trim words) ++ [.char '"']

/-- The parts of the statement after a message directive. -/
structure Parted (ahead : List Item) (m : MessageParts Item) : Prop where
  split : m.separator.toList ++ m.content ++ m.trailing.toList = statement ahead
  gap : ∀ y ∈ m.separator.toList ++ m.trailing.toList,
    y ∈ statement ahead ∧ y.value.kind = .whitespace

theorem Parted.content {m : MessageParts Item} (h : Parted ahead m) :
    ∀ y ∈ m.content, y ∈ statement ahead := by
  intro y hy
  rw [← h.split]
  simp [hy]

theorem parted_message (ahead : List Item) :
    Parted ahead (messageParts isGap (statement ahead)
      ((ahead.drop (statement ahead).length).head?.any (·.value.kind = .comment))) where
  split := messageParts_append ..
  gap := by
    intro y hy
    refine ⟨?_, kind_of_isGap (messageParts_gap (by simpa using hy))⟩
    rw [← messageParts_append isGap (statement ahead)]
    rcases mem_append.mp hy with hy | hy
    · exact mem_append_left _ (mem_append_left _ hy)
    · exact mem_append_right _ hy

/-- What a message shows: the blanks around it, what it says, blanked out, and the string. -/
theorem forall_mem_shown_message {P : Item → Prop} (x : Item)
    (hgap : ∀ y ∈ statement ahead, y.value.kind = .whitespace → P y)
    (hblank : ∀ y ∈ statement ahead, P (blanked y))
    (hspace : P (.made .whitespace [.char ' ']))
    (hstring : ∀ content ⊆ statement ahead, P (.made .string (printed (Item.textOf content)))) :
    ∀ y ∈ (message x ahead).shown, P y := by
  have hparted := parted_message ahead
  unfold message
  dsimp only
  generalize messageParts isGap (statement ahead) _ = m at hparted ⊢
  have hkept : ∀ y ∈ m.separator.toList ++ m.trailing.toList, P y := fun y hy =>
    hgap y (hparted.gap y hy).1 (hparted.gap y hy).2
  have hblanks : ∀ y ∈ m.content.map blanked, P y :=
    forall_mem_map.mpr fun y hy => hblank y (hparted.content y hy)
  split
  · exact forall_mem_append.mpr ⟨forall_mem_append.mpr
      ⟨fun y hy => hkept y (mem_of_mem_take hy), hblanks⟩,
      fun y hy => hkept y (mem_of_mem_drop hy)⟩
  · refine forall_mem_append.mpr ⟨forall_mem_cons.mpr ⟨?_, hblanks⟩,
      forall_mem_cons.mpr ⟨hstring _ hparted.content, (forall_mem_append.mp hkept).2⟩⟩
    cases hs : m.separator with
    | none => exact hspace
    | some s => exact hkept s (by simp [hs])

/-- So does a message. -/
theorem map_frame_message (x : Item) (ahead : List Item) :
    (message x ahead).ahead.map frame = ahead.map frame := by
  have hparted := parted_message ahead
  simp only [message]
  generalize messageParts isGap (statement ahead) _ = m at hparted ⊢
  have hline : ∀ y ∈ m.content, y.value.isNewline = false := fun y hy =>
    isNewline_of_mem_statement (hparted.content y hy)
  rw [map_append, map_append, map_append, map_frame_map_blanked hline,
    ← map_append, ← map_append, hparted.split, ← map_append, statement_append_drop]

theorem map_frame_condition (opening comparison : Text) (before : List Piece) (x : Item)
    (ahead : List Item) :
    (condition opening comparison before x ahead).ahead.map frame = ahead.map frame :=
  (spelled_expression ..).reworked.map_frame_eq

theorem map_frame_definition (x : Item) (ahead : List Item) :
    (definition x ahead).ahead.map frame = ahead.map frame := by
  simp only [definition]
  rw [map_append, (reworked_header _ _).map_frame_eq, ← map_append, take_append_drop]

/-- Arguments on the line end no line. -/
theorem isNewline_of_mem_take {n : Nat} (h : n ≤ lineLength ahead)
    (hy : y ∈ ahead.take n) : y.value.isNewline = false := by
  have hmem : y ∈ ahead.takeWhile fun x => !x.value.isNewline := by
    obtain ⟨later, hlater⟩ := takeWhile_prefix (l := ahead) fun x => !x.value.isNewline
    rw [← hlater, take_append_of_le_length h] at hy
    exact mem_of_mem_take hy
  simpa using mem_takeWhile_imp hmem

/-- What a condition on the pass does to its arguments, if blanking them out does not change what
`f` tells of them. -/
theorem map_pass {α : Type} {f : Item → α} {text : Text}
    (hblank : ∀ y ∈ ahead.take (leading x.value),
      f (blanked y) = f y ∧ f (setText text (blanked y)) = f y) :
    (pass text x ahead).ahead.map f = ahead.map f := by
  unfold pass
  dsimp only
  split
  · rfl
  · next first rest htake =>
    rw [htake] at hblank
    obtain ⟨⟨-, hfirst⟩, hrest⟩ := forall_mem_cons.mp hblank
    have hmap : (rest.map blanked).map f = rest.map f := by
      rw [List.map_map]
      exact map_congr_left fun y hy => (hrest y hy).1
    rw [map_append, map_cons, hfirst, hmap, ← map_cons, ← htake, ← map_append, take_append_drop]

/-- A condition on the pass keeps the terminators if its arguments are on its line. -/
theorem map_frame_pass (h : leading x.value ≤ lineLength ahead) (text : Text)
    (htext : (Piece.made .whitespace text).isNewline = false) :
    (pass text x ahead).ahead.map frame = ahead.map frame := by
  refine map_pass fun y hy => ?_
  have hline := isNewline_of_mem_take h hy
  refine ⟨frame_blanked hline, ?_⟩
  simp only [frame, hline]
  exact congrArg _ htext

theorem map_marks_of_map_frame (h : ys.map frame = xs.map frame) : ys.map marks = xs.map marks := by
  have hmap := congrArg (List.map Prod.fst) h
  simpa [List.map_map, Function.comp_def, frame] using hmap

/-- What a word does to the items after it, as far as `f` tells: only the rule for conditions on the
pass can change more than the frames do. -/
theorem map_word {α : Type} {f : Item → α}
    (hf : ∀ {ys : List Item}, ys.map frame = ahead.map frame → ys.map f = ahead.map f)
    (hpass : ∀ text, (Piece.made .whitespace text).isNewline = false →
      (pass text x ahead).ahead.map f = ahead.map f) (opening : Text) (before : List Piece) :
    (word opening before x ahead).ahead.map f = ahead.map f := by
  unfold word
  simp only
  split
  · exact hf (reworked_braceBody ..).map_frame_eq
  split
  · rfl
  split
  · exact hf (map_frame_immediate ..)
  split
  · exact hf (map_frame_message ..)
  split
  · exact hf (map_frame_condition ..)
  · exact hf (map_frame_condition ..)
  · exact hpass _ (by decide)
  · exact hpass _ (by decide)
  · exact hf (map_frame_definition ..)
  · rfl

/-- No rule for a word changes the marks of what comes after it. -/
theorem map_marks_word (opening : Text) (before : List Piece) (x : Item) (ahead : List Item) :
    (word opening before x ahead).ahead.map marks = ahead.map marks :=
  map_word map_marks_of_map_frame (fun _ _ => map_pass fun _ _ => ⟨rfl, rfl⟩) opening before

/-- No rule for a word whose arguments are on its line makes or unmakes a terminator. -/
theorem map_frame_word (h : leading x.value ≤ lineLength ahead) (opening : Text)
    (before : List Piece) : (word opening before x ahead).ahead.map frame = ahead.map frame :=
  map_word id (map_frame_pass h) opening before

theorem length_ahead_word (opening : Text) (before : List Piece) (x : Item) (ahead : List Item) :
    (word opening before x ahead).ahead.length = ahead.length := by
  simpa using congrArg List.length (map_marks_word opening before x ahead)

end Macro10.Row
