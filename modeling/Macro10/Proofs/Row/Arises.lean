import Macro10.Proofs.Row.Frame

/-!
# Where items come from

The rules change items (`Turns`), and now and then a new item is put in (`Arises`). A property that
these changes keep is a property of every item that a rule leaves, so it need not be shown for one
rule after another.
-/

namespace Macro10.Row

open List
open Retarget (dataDirective conditional closingKeyword?)

variable {x y : Item} {xs ys : List Item}

/-! ## Items that are put in -/

/-- What is put in, but for messages. -/
def madePieces : List (Kind × Text) :=
  [(.identifier, dataDirective), (.whitespace, " "), (.whitespace, " 1 "), (.whitespace, " 2 "),
    (.operator, "#"), (.operator, " <> "), (.operator, " = "), (.number, "0")]

/-- The words that can close a block. -/
def closingTexts : List Text := [".ENDIF", ".ENDMACRO"].map Text.ofString

theorem mem_closingTexts_of_roleAfter {before : List Piece} {p : Piece} {word : Text}
    (h : roleAfter before p = .body (some word)) : word ∈ closingTexts := by
  have hkeyword : ∃ opener, closingKeyword? opener = some word := by
    unfold roleAfter at h
    split at h
    · cases h
    · split at h
      · cases h
      · split at h
        · exact ⟨_, Role.body.inj h⟩
        · cases h
  obtain ⟨opener, hopener⟩ := hkeyword
  unfold closingKeyword? at hopener
  split at hopener
  · cases hopener
    decide
  · split at hopener
    · cases hopener
      decide
    · cases hopener

/-- The item comes from those in `xs`: it is one of them, or a rule has changed it or put it in. -/
inductive Arises (xs : List Item) : Item → Prop
  | item {x : Item} (h : x ∈ xs) : Arises xs x
  | turned {x y : Item} (h : Arises xs x) (hy : Turns x y) : Arises xs y
  | made {kind : Kind} {text : Text} (h : (kind, text) ∈ madePieces) :
      Arises xs (Item.made kind text)
  | message {content : List Item} (h : ∀ y ∈ content, Arises xs y) :
      Arises xs (Item.made .string (printed (Item.textOf content)))

/-- An item keeps its kind if it keeps what is inside it. -/
theorem Turns.inside (h : Turns x y) :
    y.inside = [] ∨ y.inside = x.inside ∧ y.value.kind = x.value.kind := by
  cases h with
  | blanked => exact .inl rfl
  | spaced | respelled | operator | word | immediate => exact .inr ⟨rfl, rfl⟩
  | entered before =>
    unfold enter Row.entered
    split <;> exact .inr ⟨rfl, rfl⟩
  | braced =>
    unfold Row.braced
    split <;> exact .inr ⟨rfl, rfl⟩

/-- What is inside an item stays inside it or goes away as a whole. -/
theorem Arises.inside (h : Arises xs y) : y.inside = [] ∨ ∃ x ∈ xs, y.inside = x.inside := by
  induction h with
  | item h => exact .inr ⟨_, h, rfl⟩
  | turned h hy ih =>
    rcases hy.inside with hnil | ⟨heq, -⟩
    · exact .inl hnil
    · rwa [heq]
  | made | message => exact .inl rfl

/-! ## Rows -/

/-- Each of the items `ys` comes from those in `xs`. -/
def Stems (xs ys : List Item) : Prop := ∀ y ∈ ys, Arises xs y

theorem Arises.trans {z : Item} (h : Arises ys z) (hys : Stems xs ys) : Arises xs z := by
  induction h with
  | item h => exact hys _ h
  | turned _ hy ih => exact .turned ih hy
  | made h => exact .made h
  | message _ ih => exact .message ih

namespace Stems

variable {xs ys zs us : List Item}

theorem refl (xs : List Item) : Stems xs xs := fun _ => .item

theorem trans (h : Stems xs ys) (h' : Stems ys zs) : Stems xs zs := fun z hz => (h' z hz).trans h

theorem of_subset (h : Stems xs ys) (hs : zs ⊆ ys) : Stems xs zs := fun z hz => h z (hs hz)

theorem mono (h : Stems xs ys) (hs : xs ⊆ us) : Stems us ys :=
  trans (fun _ hx => .item (hs hx)) h

theorem nil : Stems xs [] := fun _ hy => nomatch hy

theorem cons {y : Item} (hy : Arises xs y) (h : Stems xs ys) : Stems xs (y :: ys) :=
  forall_mem_cons.mpr ⟨hy, h⟩

theorem append (h : Stems xs ys) (h' : Stems xs zs) : Stems xs (ys ++ zs) :=
  forall_mem_append.mpr ⟨h, h'⟩

theorem blanked (h : Stems xs ys) : Stems xs (ys.map Item.blanked) := by
  intro y hy
  obtain ⟨x, hx, rfl⟩ := mem_map.mp hy
  exact .turned (h x hx) .blanked

end Stems

theorem Reworks.arises (h : Reworks x y) (hx : x ∈ xs) : Arises xs y := by
  induction h with
  | refl => exact .item hx
  | tail _ hy ih => exact .turned ih hy.turns

theorem Reworked.stems (h : Reworked xs ys) : Stems xs ys := by
  induction h with
  | nil => exact .nil
  | cons hx _ ih =>
    exact .cons (Reworks.arises hx mem_cons_self) (ih.mono (subset_cons_self _ _))

/-! ## Words -/

/-- The items that an outcome shows and leaves. -/
def Outcome.items (r : Outcome) : List Item := r.self :: r.shown ++ r.ahead

section Words

variable {x : Item} {ahead : List Item}

theorem Stems.taken (ahead : List Item) : Stems (x :: ahead) (statement ahead) :=
  (Stems.refl (x :: ahead)).of_subset fun _ hy =>
    mem_cons_of_mem x ((List.takeWhile_prefix _).subset hy)

theorem Stems.tail (ahead : List Item) : Stems (x :: ahead) ahead :=
  (Stems.refl (x :: ahead)).of_subset (subset_cons_self x ahead)

section

variable (hkind : x.value.kind = .identifier)
include hkind

theorem stems_immediate (opening : Text)
    (before : List Piece) : Stems (x :: ahead) (immediate opening before x ahead).items := by
  have hself : Arises (x :: ahead) (Item.setText x.value.text.dropLast x) :=
    .turned (.item mem_cons_self) (.immediate hkind)
  unfold immediate Outcome.items
  dsimp only
  split
  · exact .cons hself (.append (.taken ahead) (.tail ahead))
  · have hleft : Stems (x :: ahead)
        (blankLeading (statement ahead) ++ ahead.drop (statement ahead).length) :=
      .append ((Stems.taken ahead).trans (reworked_blankLeading _).stems)
        ((Stems.tail ahead).of_subset (drop_subset _ _))
    have hoperand := hleft.trans (spelled_operand opening
      ((Item.setText x.value.text.dropLast x).value :: before)
      (statement ahead).length _).reworked.stems
    refine .cons hself (.append (.cons (.made (by decide)) (.cons (.made (by decide)) ?_)) hoperand)
    exact hoperand.of_subset (take_subset _ _)

theorem stems_message : Stems (x :: ahead) (message x ahead).items := by
  have htaken : Stems (x :: ahead) (statement ahead) := .taken ahead
  have hblank : ∀ y ∈ statement ahead, Arises (x :: ahead) (Item.blanked y) := fun y hy =>
    .turned (htaken y hy) .blanked
  refine .cons (.turned (.item mem_cons_self) (.word hkind (by decide))) (.append ?_ ?_)
  · exact forall_mem_shown_message x (fun y hy _ => htaken y hy) hblank (.made (by decide))
      fun content hcontent => .message fun y hy => htaken y (hcontent hy)
  · have hparted := parted_message ahead
    unfold message
    dsimp only
    generalize messageParts isGap (statement ahead) _ = m at hparted ⊢
    have hkept : Stems (x :: ahead) (m.separator.toList ++ m.trailing.toList) := fun y hy =>
      htaken y (hparted.gap y hy).1
    obtain ⟨hseparator, htrailing⟩ := forall_mem_append.mp hkept
    have hblanks : Stems (x :: ahead) (m.content.map Item.blanked) :=
      forall_mem_map.mpr fun y hy => hblank y (hparted.content y hy)
    exact .append (.append (.append hseparator hblanks) htrailing)
      ((Stems.tail ahead).of_subset (drop_subset _ _))

theorem stems_condition {comparison : Text}
    (hcomparison : (.operator, comparison) ∈ madePieces) (opening : Text) (before : List Piece) :
    Stems (x :: ahead) (condition opening comparison before x ahead).items := by
  have he := (Stems.tail (x := x) ahead).trans (spelled_expression opening
    ((Item.setText conditional x).value :: before) (bodyDistance x.value) ahead).reworked.stems
  unfold condition Outcome.items
  dsimp only
  generalize expression opening _ _ ahead = e at he ⊢
  refine .cons (.turned (.item mem_cons_self) (.word hkind (by decide)))
    (.append (.append (forall_mem_append.mp he).1 ?_) he)
  split
  · exact .cons (.made hcomparison) (.cons (.made (by decide)) .nil)
  · exact .nil

theorem stems_pass {text : Text} (htext : text ∈ blankTexts)
    (hmade : (.whitespace, text) ∈ madePieces) : Stems (x :: ahead) (pass text x ahead).items := by
  have hself : Arises (x :: ahead) (Item.setText conditional x) :=
    .turned (.item mem_cons_self) (.word hkind (by decide))
  have htaken : Stems (x :: ahead) (ahead.take (leading x.value)) :=
    (Stems.tail ahead).of_subset (take_subset _ _)
  unfold pass Outcome.items
  dsimp only
  split
  · exact .cons hself (.cons (.made hmade) (.tail ahead))
  · next first rest htake =>
    rw [htake] at htaken
    obtain ⟨hfirst, hrest⟩ := forall_mem_cons.mp htaken
    refine .cons hself (.cons ?_ (.append (Stems.blanked hrest)
      ((Stems.tail ahead).of_subset (drop_subset _ _))))
    exact .turned (.turned hfirst .blanked) (.spaced rfl htext)

theorem stems_definition : Stems (x :: ahead) (definition x ahead).items := by
  have hheader : Stems (x :: ahead) (header x.value.body (ahead.take (leading x.value))) :=
    ((Stems.tail ahead).of_subset (take_subset _ _)).trans (reworked_header _ _).stems
  have hahead : Stems (x :: ahead) (definition x ahead).ahead :=
    Stems.append hheader ((Stems.tail ahead).of_subset (drop_subset _ _))
  exact .cons (.turned (.item mem_cons_self) (.word hkind (by decide))) hahead

/-- What a word shows and leaves comes from it and from the items after it. -/
theorem stems_word (opening : Text) (before : List Piece) :
    Stems (x :: ahead) (word opening before x ahead).items := by
  unfold word
  dsimp only
  split
  · exact .cons (.item mem_cons_self) ((Stems.tail ahead).trans (reworked_braceBody _ ahead).stems)
  split
  · exact .cons (.turned (.item mem_cons_self) (.word hkind (by decide))) (.tail ahead)
  split
  · exact stems_immediate hkind opening before
  split
  · exact stems_message hkind
  split
  · exact stems_condition hkind (by decide) opening before
  · exact stems_condition hkind (by decide) opening before
  · exact stems_pass hkind (by decide) (by decide)
  · exact stems_pass hkind (by decide) (by decide)
  · exact stems_definition hkind
  · exact .refl _

end

end Words

theorem stems_announcement (xs : List Item) (opening : Text) (before : List Piece) :
    Stems xs (announcement opening before) := by
  unfold announcement
  split
  · exact .cons (.made (by decide)) (.cons (.made (by decide)) .nil)
  · exact .nil

end Macro10.Row
