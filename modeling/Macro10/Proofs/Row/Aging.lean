import Macro10.Proofs.Row.Lines

/-!
# Items that the walk has not reached

An item that the walk has not reached yet keeps its place and the items inside it, and if it is
still a word it is the same word (`Aged`). It does not become a word that opens a block.
-/

namespace Macro10.Row

open List
open Retarget (closingKeyword?)

variable {x y : Item} {xs ys : List Item}

/-! ## Items -/

/-- Only groups have something inside. -/
def Leafy (xs : List Item) : Prop := ∀ x ∈ xs, x.value.kind ≠ .container → x.inside = []

/-- The item `y` stands where `x` stood. A token that is no group may have turned into white space,
and `R` holds of what is inside. -/
structure Becomes (R : List Item → List Item → Prop) (x y : Item) : Prop where
  label : y.value.label = x.value.label
  kind : y.value.kind = x.value.kind ∨ x.value.kind ≠ .container ∧ y.value.kind = .whitespace
  inside : R x.inside y.inside

/-- The item `x` may be found changed to `y` when the walk comes to it. -/
structure Aged (x y : Item) : Prop extends Becomes Eq x y where
  frame : frame y = frame x
  text : y.value.kind = .identifier → y.value.text = x.value.text
  closing : x.value.kind = .identifier ∨ x.value.kind = .whitespace →
    closingKeyword? x.value.upper = none → closingKeyword? y.value.upper = none

namespace Aged

variable {x y z : Item}

theorem refl (x : Item) : Aged x x := ⟨⟨rfl, .inl rfl, rfl⟩, rfl, fun _ => rfl, fun _ h => h⟩

section

variable (h : Aged x y)
include h

theorem kind_eq (hy : y.value.kind ≠ .whitespace) : x.value.kind = y.value.kind := by
  rcases h.kind with hkind | ⟨-, hkind⟩
  · exact hkind.symm
  · exact absurd hkind hy

theorem kind_ne (hx : x.value.kind ≠ .container) : y.value.kind ≠ .container := by
  rcases h.kind with hkind | ⟨-, hkind⟩
  · rwa [hkind]
  · rw [hkind]
    decide

theorem of_kind_ne (hy : y.value.kind ≠ .container) : x.value.kind ≠ .container := by
  rcases h.kind with hkind | ⟨hx, -⟩
  · rwa [← hkind]
  · exact hx

/-- What an item becomes when the walk has passed it, if it was changed before. -/
theorem becomes {R : List Item → List Item → Prop} (h' : Becomes R y z) :
    Becomes R x z where
  label := h'.label.trans h.label
  kind := by
    rcases h'.kind with hkind | ⟨hy, hkind⟩
    · rw [hkind]
      exact h.kind
    · exact .inr ⟨h.of_kind_ne hy, hkind⟩
  inside := h.inside.symm ▸ h'.inside

theorem trans (h' : Aged y z) : Aged x z where
  toBecomes := ⟨h'.label.trans h.label, (h.becomes h'.toBecomes).kind, h.inside.trans h'.inside⟩
  frame := h'.frame.trans h.frame
  text := by
    intro hz
    have hy : y.value.kind = .identifier := by rw [h'.kind_eq (by simp [hz]), hz]
    rw [h'.text hz, h.text hy]
  closing := by
    intro hx hnone
    refine h'.closing ?_ (h.closing hx hnone)
    rcases h.kind with hkind | ⟨-, hkind⟩
    · rwa [hkind]
    · exact .inr hkind

theorem isNewline_eq : y.value.isNewline = x.value.isNewline :=
  congrArg Prod.snd h.frame

theorem marks_eq : marks y = marks x := congrArg Prod.fst h.frame

/-- A word that the walk comes to is the word that stood there. -/
theorem upper_eq (hy : y.value.kind = .identifier) :
    x.value.kind = .identifier ∧ x.value.upper = y.value.upper := by
  have hx : x.value.kind = .identifier := by rw [h.kind_eq (by simp [hy]), hy]
  refine ⟨hx, ?_⟩
  simp only [Piece.upper, Token.upper, Token.words, Piece.token, hx, hy, h.text hy]

theorem head?_eq {head : Head} (hy : y.value.head? = some head) : x.value.head? = some head := by
  obtain ⟨hkind, hword⟩ := Piece.head?_eq_some_iff.mp hy
  obtain ⟨hx, hupper⟩ := h.upper_eq hkind
  exact Piece.head?_eq_some_iff.mpr ⟨hx, hupper ▸ hword⟩

end

end Aged

/-- White space opens no block. -/
theorem closingKeyword?_blank (hkind : y.value.kind = .whitespace)
    (htext : y.value.text ∈ [] :: blankTexts) : closingKeyword? y.value.upper = none := by
  have hall : ∀ text ∈ [] :: blankTexts, closingKeyword? (Text.upper text) = none := by decide
  rw [Piece.upper_of_kind_ne (by simp [hkind])]
  exact hall _ htext

section Blanks

variable {x : Item} (hkind : x.value.kind ≠ .container) (hinside : x.inside = [])
  (hline : x.value.isNewline = false)
include hkind hinside hline

theorem aged_whitespace {text : Text} (htext : text ∈ [] :: blankTexts) :
    Aged x (Item.setText text (Item.blanked x)) where
  toBecomes := ⟨rfl, .inr ⟨hkind, rfl⟩, hinside⟩
  frame := by
    have hall : ∀ text ∈ [] :: blankTexts, (Piece.made .whitespace text).isNewline = false := by
      decide
    simp only [frame, hline]
    exact congrArg _ (hall text htext)
  text := nofun
  closing := fun _ _ => closingKeyword?_blank rfl htext

theorem aged_blanked : Aged x (Item.blanked x) := aged_whitespace hkind hinside hline (by decide)

end Blanks

theorem aged_enter (before : List Piece) (x : Item) : Aged x (enter before x) := by
  unfold enter entered
  cases roleAfter before x.value <;>
    exact ⟨⟨rfl, .inl rfl, rfl⟩, rfl, fun _ => rfl, fun _ h => h⟩

theorem aged_braced (x : Item) : Aged x (braced x) := by
  unfold braced
  split
  · exact ⟨⟨rfl, .inl rfl, rfl⟩, rfl, fun _ => rfl, fun _ h => h⟩
  · exact .refl x

/-- What is touched ages, if it is a group or empty. -/
theorem Touches.aged (h : Touches x y)
    (hleaf : x.value.kind ≠ .container → x.inside = []) : Aged x y := by
  have hframe := h.frame_eq
  obtain ⟨hturns, hword, hline, hgroup⟩ := h
  cases hturns with
  | blanked =>
    have hkind : x.value.kind ≠ .container := fun hkind => by cases hgroup hkind
    exact aged_blanked hkind (hleaf hkind) hline
  | spaced hkind htext =>
    exact ⟨⟨rfl, .inl rfl, rfl⟩, hframe, fun h => absurd h hword,
      fun _ _ => closingKeyword?_blank hkind (mem_cons_of_mem _ htext)⟩
  | respelled hkind | operator hkind =>
    exact ⟨⟨rfl, .inl rfl, rfl⟩, hframe, fun h => absurd h hword, fun h => by simp [hkind] at h⟩
  | word hkind | immediate hkind => exact absurd hkind hword
  | entered before => exact aged_enter before x
  | braced => exact aged_braced x

theorem Reworks.aged (h : Reworks x y)
    (hleaf : x.value.kind ≠ .container → x.inside = []) : Aged x y := by
  induction h with
  | refl => exact .refl x
  | tail _ hy ih => exact ih.trans (hy.aged fun hkind => ih.inside ▸ hleaf (ih.of_kind_ne hkind))

theorem aged_written (hleaf : x.value.kind ≠ .container → x.inside = [])
    {respell : Text → Text} (h : respell ∈ respellings) (opening : Text) (before : List Piece)
    (ahead : List Item) : Aged x (written respell opening before x ahead) :=
  Reworks.aged (reworks_written h opening before x ahead) hleaf

/-! ## Rows -/

theorem exists_mem_of_forall₂ {α β : Type} {S : α → β → Prop} {xs : List α} {ys : List β}
    (h : List.Forall₂ S xs ys) {y : β} (hy : y ∈ ys) : ∃ x ∈ xs, S x y := by
  induction h with
  | nil => cases hy
  | cons hx _ ih =>
    rcases mem_cons.mp hy with rfl | hy
    · exact ⟨_, mem_cons_self, hx⟩
    · obtain ⟨x, hmem, hS⟩ := ih hy
      exact ⟨x, mem_cons_of_mem _ hmem, hS⟩

/-- The items `xs` may be found changed to `ys` when the walk comes to them. -/
def AgedRow (xs ys : List Item) : Prop := List.Forall₂ Aged xs ys

namespace AgedRow

variable {xs ys zs us vs : List Item}

theorem refl (xs : List Item) : AgedRow xs xs := forall₂_same.mpr fun x _ => .refl x

theorem trans (h : AgedRow xs ys) (h' : AgedRow ys zs) : AgedRow xs zs :=
  forall₂_trans (S := Aged) (fun _ _ _ hx hy => hx.trans hy) h h'

theorem append (h : AgedRow xs ys) (h' : AgedRow us vs) : AgedRow (xs ++ us) (ys ++ vs) :=
  rel_append h h'

theorem drop (h : AgedRow xs ys) (n : Nat) : AgedRow (xs.drop n) (ys.drop n) :=
  forall₂_drop n h

theorem take (h : AgedRow xs ys) (n : Nat) : AgedRow (xs.take n) (ys.take n) :=
  forall₂_take n h

/-- A row that two rows in succession came from is one of two rows in succession. -/
theorem split (h : AgedRow xs (ys ++ zs)) :
    ∃ us vs, xs = us ++ vs ∧ AgedRow us ys ∧ AgedRow vs zs :=
  ⟨xs.take ys.length, xs.drop ys.length, (take_append_drop _ xs).symm,
    forall₂_take_append xs ys zs h, forall₂_drop_append xs ys zs h⟩

theorem map_frame_eq (h : AgedRow xs ys) : ys.map frame = xs.map frame := by
  induction h with
  | nil => rfl
  | cons hx _ ih => rw [map_cons, map_cons, hx.frame, ih]

theorem leafy (h : AgedRow xs ys) (hxs : Leafy xs) : Leafy ys := by
  intro y hy hkind
  obtain ⟨x, hx, haged⟩ := exists_mem_of_forall₂ h hy
  rw [← haged.inside]
  exact hxs x hx (haged.of_kind_ne hkind)

end AgedRow

theorem leafy_cons : Leafy (x :: xs) ↔ (x.value.kind ≠ .container → x.inside = []) ∧ Leafy xs :=
  forall_mem_cons

theorem leafy_append : Leafy (xs ++ ys) ↔ Leafy xs ∧ Leafy ys :=
  forall_mem_append

theorem Leafy.of_subset (h : Leafy xs) (hs : ys ⊆ xs) : Leafy ys :=
  fun y hy => h y (hs hy)

theorem Reworked.agedRow (h : Reworked xs ys) (hxs : Leafy xs) : AgedRow xs ys := by
  induction h with
  | nil => exact .nil
  | cons hx _ ih =>
    obtain ⟨hleaf, hrest⟩ := leafy_cons.mp hxs
    exact .cons (Reworks.aged hx hleaf) (ih hrest)

theorem agedRow_after (h : Leafy xs) (x : Item) : AgedRow xs (after x xs) :=
  (reworked_after x xs).agedRow h

end Macro10.Row
