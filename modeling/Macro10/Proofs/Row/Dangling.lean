import Macro10.Proofs.Row.Announced
import Macro10.Proofs.Row.Respelling

/-!
# Commas at the end of a line

A comma with nothing after it on its line is dropped. The walk judges one comma after another, so it
leaves a comma that another comma follows, even if that one is dropped later. No other comma comes
to the end of a line (`exists_doubled`). `Sweep` says what the walks over rows, operands and
expressions have in common.
-/

namespace Macro10.Row

open List
open Piece (isSpacing kind_of_isOperator token)

variable {xs ys us out : List Item} {x z : Item} {n : Nat} {before : List Piece}

open Retarget (quoteSingle requote)

variable {y : Item}

/-! ## Commas that follow one another -/

theorem isComma_of_kind_ne (h : x.value.kind ≠ .operator) : isComma x = false :=
  Piece.isOperator_of_kind_ne h _

theorem isComma_of_whitespace (h : x.value.kind = .whitespace) : isComma x = false :=
  isComma_of_kind_ne (by simp [h])

section

variable {vs : List Item}

theorem exists_of_front (hxs : ∀ x ∈ xs, isComma x = false) (h : xs ++ ys = us ++ z :: vs)
    (hz : isComma z = true) : ∃ us', ys = us' ++ z :: vs := by
  rcases append_eq_append_iff.mp h with ⟨us', -, hus⟩ | ⟨ws, hws, hus⟩
  · exact ⟨us', hus⟩
  · cases ws with
    | nil => exact ⟨[], by simpa using hus.symm⟩
    | cons w ws =>
      obtain ⟨rfl, -⟩ := List.cons.inj hus
      rw [hxs z (by simp [hws])] at hz
      cases hz

theorem exists_of_back (hys : ∀ y ∈ ys, isComma y = false) (h : xs ++ ys = us ++ z :: vs)
    (hz : isComma z = true) : ∃ vs', xs = us ++ z :: vs' ∧ vs = vs' ++ ys := by
  rcases append_eq_append_iff.mp h with ⟨us', -, hus⟩ | ⟨ws, hws, hus⟩
  · rw [hys z (by simp [hus])] at hz
    cases hz
  · cases ws with
    | nil =>
      rw [hys z (by simp [show ys = z :: vs from hus.symm])] at hz
      cases hz
    | cons w ws =>
      obtain ⟨rfl, hvs⟩ := List.cons.inj hus
      exact ⟨ws, hws, hvs⟩

end

/-- The first item that is not a blank is the comma `y`. -/
inductive NextComma (y : Item) : List Item → Prop
  | here {rest : List Item} (hy : isComma y = true) : NextComma y (y :: rest)
  | blank {b : Item} {rest : List Item} (hb : b.value.isBlank = true) (h : NextComma y rest) :
      NextComma y (b :: rest)

/-- After the comma `z` the first item that is not a blank is the comma `y`. -/
inductive Doubled (z y : Item) : List Item → Prop
  | here {rest : List Item} (hz : isComma z = true) (h : NextComma y rest) : Doubled z y (z :: rest)
  | there {x : Item} {rest : List Item} (h : Doubled z y rest) : Doubled z y (x :: rest)

theorem NextComma.exists_eq (h : NextComma y xs) :
    ∃ bs vs, xs = bs ++ y :: vs ∧ isComma y = true ∧ ∀ b ∈ bs, b.value.isBlank = true := by
  induction h with
  | here hy => exact ⟨[], _, rfl, hy, forall_mem_nil _⟩
  | @blank b _ hb _ ih =>
    obtain ⟨bs, vs, rfl, hy, hbs⟩ := ih
    exact ⟨b :: bs, vs, rfl, hy, forall_mem_cons.mpr ⟨hb, hbs⟩⟩

theorem Rebraced.eq (h : Rebraced x y) (hy : y.value.kind ≠ .container) : y = x := by
  rcases h with rfl | ⟨hkind, rfl⟩
  · rfl
  · have hbraced : (braced x).value.kind = x.value.kind := by
      unfold braced
      split <;> rfl
    exact absurd (hbraced.trans hkind) hy

theorem NextComma.of_rebraced (h : NextComma y ys)
    (hxs : List.Forall₂ Rebraced xs ys) : NextComma y xs := by
  induction h generalizing xs with
  | here hy =>
    cases hxs with
    | cons hx _ =>
      obtain rfl := hx.eq (by simp [kind_of_isOperator hy])
      exact .here hy
  | blank hb _ ih =>
    cases hxs with
    | cons hx hrest =>
      obtain rfl := hx.eq (by simp [Piece.kind_of_isBlank hb])
      exact .blank hb (ih hrest)

namespace Doubled

variable {y : Item}

theorem exists_eq (h : Doubled z y xs) :
    ∃ us bs vs, xs = us ++ z :: (bs ++ y :: vs) ∧ isComma z = true ∧ isComma y = true ∧
      ∀ b ∈ bs, b.value.isBlank = true := by
  induction h with
  | here hz h =>
    obtain ⟨bs, vs, rfl, hy, hbs⟩ := h.exists_eq
    exact ⟨[], bs, vs, rfl, hz, hy, hbs⟩
  | @there x _ _ ih =>
    obtain ⟨us, bs, vs, rfl, hcommas⟩ := ih
    exact ⟨x :: us, bs, vs, rfl, hcommas⟩

theorem append_left (us : List Item) (h : Doubled z y xs) : Doubled z y (us ++ xs) := by
  induction us with
  | nil => exact h
  | cons u us ih => exact ih.there

theorem of_drop (h : Doubled z y (xs.drop n)) : Doubled z y xs := by
  rw [← take_append_drop n xs]
  exact h.append_left _

theorem tail (h : Doubled z y (x :: xs)) (hx : isComma x = false) : Doubled z y xs := by
  cases h with
  | here hz =>
    rw [hx] at hz
    cases hz
  | there h => exact h

theorem of_append (h : Doubled z y (us ++ xs))
    (hus : ∀ u ∈ us, isComma u = false) : Doubled z y xs := by
  induction us with
  | nil => exact h
  | cons u us ih =>
    obtain ⟨hu, hrest⟩ := forall_mem_cons.mp hus
    exact ih (h.tail hu) hrest

/-- Braces are no matter. -/
theorem of_rebraced (h : Doubled z y ys) (hxs : List.Forall₂ Rebraced xs ys) : Doubled z y xs := by
  induction h generalizing xs with
  | here hz h =>
    cases hxs with
    | cons hx hrest =>
      obtain rfl := hx.eq (by simp [kind_of_isOperator hz])
      exact .here hz (h.of_rebraced hrest)
  | there _ ih =>
    cases hxs with
    | cons _ hrest => exact (ih hrest).there

/-- Nor is a colon that an operator takes with it: it is the first item after the operator. -/
theorem of_after (h : Doubled z y (after x xs)) : Doubled z y xs := by
  unfold after afterOperator at h
  split at h
  · split at h
    · cases xs with
      | nil => exact h
      | cons w rest =>
        dsimp only at h
        split at h
        · exact (h.tail (isComma_of_whitespace rfl)).there
        · exact h
    · exact h
  · exact h

theorem of_expression {opening : Text} {body : Option Nat}
    (h : Doubled z y (expression opening before body xs).rest) : Doubled z y xs := by
  fun_induction expression opening before body xs with
  | case1 | case2 => exact h
  | case3 => exact h.there
  | case4 before body x rest _ _ w e ih => exact (ih h).of_after.there

theorem of_blankLeading {later : List Item} (h : Doubled z y (blankLeading xs ++ later)) :
    Doubled z y (xs ++ later) := by
  induction xs with
  | nil => exact h
  | cons x rest ih =>
    unfold blankLeading at h
    split at h
    · exact (ih (h.tail (isComma_of_whitespace rfl))).there
    · exact h

end Doubled

/-! ## Ends of lines -/

/-- The item is more than white space, and no comment. -/
def isSolid (x : Item) : Bool := !x.value.isSpacing && x.value.kind ≠ .comment

theorem isSolid_of_kind (h : x.value.kind ≠ .whitespace) (h' : x.value.kind ≠ .comment) :
    isSolid x = true := by
  simp [isSolid, isSpacing, h, h']

theorem endsLine_cons (opening : Text) (x : Item) (rest : List Item) :
    endsLine opening (x :: rest) =
      if x.value.isBlank then endsLine opening rest
      else x.value.isNewline || x.value.kind = .comment := by
  cases hblank : x.value.isBlank with
  | true => simp [endsLine, afterBlanks, hblank]
  | false => simp [endsLine, afterBlanks, hblank]

theorem endsLine_cons_solid (h : isSolid x = true) (opening : Text) (rest : List Item) :
    endsLine opening (x :: rest) = false := by
  simp only [isSolid, isSpacing, Bool.and_eq_true, Bool.not_eq_true', decide_eq_false_iff_not,
    decide_eq_true_eq] at h
  have hblank : x.value.isBlank = false := by
    cases hblank : x.value.isBlank with
    | false => rfl
    | true => exact absurd (Piece.kind_of_isBlank hblank) h.1
  rw [endsLine_cons, hblank, Piece.isNewline_eq_false h.1]
  simp [h.2]

theorem endsLine_cons_blank (h : x.value.isBlank = true) (opening : Text) (rest : List Item) :
    endsLine opening (x :: rest) = endsLine opening rest := by
  rw [endsLine_cons, if_pos h]

theorem endsLine_cons_of_ended (h : isSolid x = false) (hx : x.value.isBlank = false)
    (opening : Text) (rest : List Item) : endsLine opening (x :: rest) = true := by
  have hended : x.value.isNewline = true ∨ x.value.kind = .comment := by
    by_cases hkind : x.value.kind = .whitespace
    · refine .inl ?_
      simpa [Piece.isBlank, Token.isBlank, token, hkind, Piece.isNewline] using hx
    · exact .inr (by simpa [isSolid, isSpacing, hkind] using h)
  rw [endsLine_cons, hx]
  simpa using hended

/-- What ends a line in a longer row ends it, or the row ends before. -/
theorem endsLine_of_append (h : endsLine [] (xs ++ ys) = true) : endsLine [] xs = true := by
  induction xs with
  | nil => rfl
  | cons x xs ih =>
    rw [cons_append, endsLine_cons] at h
    rw [endsLine_cons]
    split
    · next hblank => exact ih (by rwa [if_pos hblank] at h)
    · next hblank => rwa [if_neg hblank] at h

/-! ## Single items -/

theorem text_of_isComma (h : isComma x = true) : x.value.text = "," := by
  have hkind := kind_of_isOperator h
  simpa [isComma, Piece.isOperator, Token.isOperator, token, hkind] using h

/-- An operator that is left as a comma was one, and something follows it on its line. -/
theorem operator_of_isComma (ahead : List Item) (h : isComma (operator [] x ahead) = true) :
    operator [] x ahead = x ∧ isComma x = true ∧ endsLine [] ahead = false := by
  rcases operator_cases [] x ahead with ⟨text, htext, heq⟩ | ⟨heq, hgoes⟩ | ⟨heq, -⟩
  all_goals rw [heq] at h
  · have hall : ∀ text ∈ operatorTexts, text ≠ "," := by decide
    exact absurd (text_of_isComma h) (hall text htext)
  · exact ⟨heq, h, hgoes (text_of_isComma h)⟩
  · rw [isComma_of_whitespace rfl] at h
    cases h

section

variable (respell : Text → Text) (before : List Piece) (ahead : List Item)

theorem written_of_not_solid (h : isSolid x = false) :
    written respell [] before x ahead = x ∧ after x ahead = ahead := by
  have hkind : x.value.kind = .whitespace ∨ x.value.kind = .comment := by
    by_cases hspace : x.value.kind = .whitespace
    · exact .inl hspace
    · exact .inr (by simpa [isSolid, isSpacing, hspace] using h)
  rcases hkind with hkind | hkind <;> exact ⟨by simp only [written, hkind], by simp [after, hkind]⟩

/-- A solid item stays so, unless it is a comma, or the mark of a word that follows directly. -/
theorem written_of_solid (h : isSolid x = true) :
    isSolid (written respell [] before x ahead) = true ∨
      written respell [] before x ahead = Item.blanked x ∧
        (isComma x = true ∨
          after x ahead = ahead ∧ ahead.head?.any (·.value.kind = .identifier) = true) := by
  unfold written
  split
  · next hkind => exact .inl (isSolid_of_kind (by simp [hkind]) (by simp [hkind]))
  · next hkind =>
    exact .inl (isSolid_of_kind (by simp [enter, kind_entered, hkind])
      (by simp [enter, kind_entered, hkind]))
  · next hkind =>
    rcases operator_cases [] x ahead with ⟨text, -, heq⟩ | ⟨heq, -⟩ | ⟨heq, hgone⟩
    · exact .inl (heq ▸ isSolid_of_kind (by simp [hkind]) (by simp [hkind]))
    · exact .inl (heq.symm ▸ h)
    · refine .inr ⟨heq, hgone.imp (fun hcomma => ?_) (And.imp_left fun hmark => ?_)⟩
      · simp [isComma, Piece.isOperator, Token.isOperator, token, hkind, hcomma]
      · simp [after, afterOperator, hmark, hkind, Text.ofString]
  · exact .inl h

/-- A comma that is left was one, and something follows it on its line. -/
theorem eq_of_isComma_written (h : isComma (written respell [] before x ahead) = true) :
    written respell [] before x ahead = x ∧ isComma x = true ∧ after x ahead = ahead ∧
      endsLine [] ahead = false := by
  have hwritten : written respell [] before x ahead = x ∧ isComma x = true ∧
      endsLine [] ahead = false := by
    unfold written at h ⊢
    split at h
    · next hkind =>
      rw [isComma_of_kind_ne (by simp [hkind])] at h
      cases h
    · next hkind =>
      rw [isComma_of_kind_ne (by simp [enter, kind_entered, hkind])] at h
      cases h
    · exact operator_of_isComma ahead h
    · next hkind => exact absurd (kind_of_isOperator h) hkind
  obtain ⟨hsame, hcomma, hgoes⟩ := hwritten
  have htext : x.value.text = "," := text_of_isComma hcomma
  exact ⟨hsame, hcomma, by simp [after, afterOperator, htext, Text.ofString], hgoes⟩

end

/-! ## Sweeps -/

/-- A walk along a row, as far as it matters to commas: it writes an item, or it does something else
that leaves no comma and starts with a solid item. -/
inductive Sweep : List Item → List Item → Prop
  | nil : Sweep [] []
  | item {ahead out : List Item} (respell : Text → Text) (before : List Piece) (x : Item)
      (h : Sweep (after x ahead) out) :
      Sweep (x :: ahead) (written respell [] before x ahead :: out)
  | other {xs later front out : List Item} (hhead : front.head?.any isSolid = true)
      (hfront : ∀ y ∈ front, isComma y = false)
      (hlater : ∀ {z y : Item}, Doubled z y later → Doubled z y xs) (h : Sweep later out) :
      Sweep xs (front ++ out)

theorem endsLine_append_of_solid {front : List Item} (h : front.head?.any isSolid = true)
    (opening : Text) (out : List Item) : endsLine opening (front ++ out) = false := by
  cases front with
  | nil => cases h
  | cons y rest => exact endsLine_cons_solid h opening (rest ++ out)

namespace Sweep

variable (h : Sweep xs out)
include h

/-- A word stays where it is. -/
theorem endsLine_of_word (hword : xs.head?.any (·.value.kind = .identifier) = true) :
    endsLine [] out = false := by
  cases h with
  | nil => cases hword
  | @item ahead out respell before x =>
    have hkind : x.value.kind = .identifier := by simpa using hword
    have hwritten : written respell [] before x ahead = x := by simp only [written, hkind]
    rw [hwritten]
    exact endsLine_cons_solid (isSolid_of_kind (by simp [hkind]) (by simp [hkind])) _ _
  | other hhead => exact endsLine_append_of_solid hhead _ _

/-- Nothing on a line vanishes but commas. -/
theorem exists_nextComma (hout : endsLine [] out = true) (hxs : endsLine [] xs = false) :
    ∃ y, NextComma y xs ∧ Item.blanked y ∈ out := by
  induction h with
  | nil => cases hxs
  | @item ahead out respell before x h ih =>
    cases hsolid : isSolid x with
    | true =>
      rcases written_of_solid respell before ahead hsolid with hstays |
        ⟨hblank, hcomma | ⟨hafter, hword⟩⟩
      · rw [endsLine_cons_solid hstays] at hout
        cases hout
      · rw [hblank]
        exact ⟨x, .here hcomma, mem_cons_self⟩
      · rw [hafter] at h
        rw [hblank, endsLine_cons_blank (x := Item.blanked x) (Piece.isBlank_blanked _),
          h.endsLine_of_word hword] at hout
        cases hout
    | false =>
      obtain ⟨hsame, hafter⟩ := written_of_not_solid respell before ahead hsolid
      cases hblank : x.value.isBlank with
      | true =>
        rw [hsame, endsLine_cons_blank hblank] at hout
        rw [endsLine_cons_blank hblank] at hxs
        obtain ⟨y, hnext, hy⟩ := ih hout (by rwa [hafter])
        rw [hafter] at hnext
        exact ⟨y, .blank hblank hnext, mem_cons_of_mem _ hy⟩
      | false =>
        rw [endsLine_cons_of_ended hsolid hblank] at hxs
        cases hxs
  | other hhead =>
    rw [endsLine_append_of_solid hhead] at hout
    cases hout

/-- **A comma at the end of a line was followed by another comma.** -/
theorem exists_doubled {vs : List Item} (hout : out = us ++ z :: vs) (hz : isComma z = true)
    (hends : endsLine [] vs = true) : ∃ y, Doubled z y xs ∧ Item.blanked y ∈ vs := by
  induction h generalizing us with
  | nil => simp at hout
  | @item ahead out respell before x h ih =>
    cases us with
    | nil =>
      obtain ⟨rfl, rfl⟩ := List.cons.inj hout
      obtain ⟨hsame, hcomma, hafter, hgoes⟩ := eq_of_isComma_written respell before ahead hz
      rw [hafter] at h
      obtain ⟨y, hnext, hy⟩ := h.exists_nextComma hends hgoes
      rw [hsame]
      exact ⟨y, .here hcomma hnext, hy⟩
    | cons u us =>
      obtain ⟨-, hrest⟩ := List.cons.inj hout
      obtain ⟨y, hdoubled, hy⟩ := ih hrest
      exact ⟨y, hdoubled.of_after.there, hy⟩
  | @other xs later front out _ hfront hlater _ ih =>
    obtain ⟨us', hus⟩ := exists_of_front hfront hout hz
    obtain ⟨y, hdoubled, hy⟩ := ih hus
    exact ⟨y, hlater hdoubled, hy⟩

end Sweep

/-! ## The walk is a sweep -/

/-- So is the walk along an operand, if it goes on as a sweep. -/
theorem sweep_operand (h : Sweep ((operand [] before n xs).drop n) out) :
    Sweep xs ((operand [] before n xs).take n ++ out) := by
  fun_induction operand [] before n xs with
  | case1 => exact h
  | case2 => exact h
  | case3 before n x rest y ih => exact .item requote before x (ih h)

theorem isComma_blankLeading (h : ∀ x ∈ xs, isComma x = false) :
    ∀ y ∈ blankLeading xs, isComma y = false := by
  induction xs with
  | nil => exact h
  | cons x rest ih =>
    obtain ⟨hx, hrest⟩ := forall_mem_cons.mp h
    unfold blankLeading
    split
    · exact forall_mem_cons.mpr ⟨isComma_of_whitespace rfl, ih hrest⟩
    · exact h

theorem isComma_header (body : Bool) (xs : List Item) :
    ∀ y ∈ header body xs, isComma y = false := by
  unfold header
  dsimp only
  generalize modifyLast _ _ _ = us
  have hmap : ∀ y ∈ us.map fun x => if x.value.isOperator "," then spaced x else x,
      isComma y = false := by
    intro y hy
    obtain ⟨x, -, rfl⟩ := mem_map.mp hy
    split
    · exact isComma_of_whitespace rfl
    · next hx => exact Bool.eq_false_iff.mpr hx
  split
  · intro y hy
    refine isComma_blankLeading (fun x hx => ?_) y (mem_reverse.mp hy)
    exact hmap x (mem_reverse.mp hx)
  · exact hmap

/-- An expression has none, and the one that ends it is dropped. -/
theorem isComma_expression (before : List Piece) (body : Option Nat) (xs : List Item) :
    ∀ y ∈ (expression [] before body xs).items, isComma y = false := by
  fun_induction expression [] before body xs with
  | case1 | case2 => exact forall_mem_nil _
  | case3 => exact forall_mem_singleton.mpr (isComma_of_whitespace rfl)
  | case4 before body x rest _ hcomma y e ih =>
    refine forall_mem_cons.mpr ⟨Bool.eq_false_iff.mpr fun hy => hcomma ?_, ih⟩
    exact (eq_of_isComma_written quoteSingle before rest hy).2.1

/-- A rule for words shows no comma, and where commas follow one another in what it does not take,
they did so before. -/
structure Commaless (ahead : List Item) (r : Outcome) : Prop where
  shown : ∀ y ∈ r.shown, isComma y = false
  left : ∀ {z y : Item}, Doubled z y (r.ahead.drop r.taken) → Doubled z y ahead

theorem commaless_message (x : Item) (ahead : List Item) : Commaless ahead (message x ahead) where
  shown := by
    intro y hy
    rcases (shown_message x ahead y hy).2 with hspace | hstring
    · exact isComma_of_kind_ne (by simp [hspace])
    · exact isComma_of_kind_ne (by simp [hstring])
  left := by
    intro z y h
    rw [drop_ahead_message] at h
    exact h.of_drop

theorem commaless_condition (comparison : Text) (hcomparison : comparison ≠ ",")
    (before : List Piece) (x : Item) (ahead : List Item) :
    Commaless ahead (condition [] comparison before x ahead) where
  shown := by
    refine forall_mem_append.mpr ⟨isComma_expression _ _ ahead, ?_⟩
    split
    · refine forall_mem_cons.mpr
        ⟨?_, forall_mem_singleton.mpr (isComma_of_kind_ne (by simp))⟩
      exact Bool.eq_false_iff.mpr fun h => hcomparison (text_of_isComma h)
    · exact forall_mem_nil _
  left := by
    intro z y h
    unfold condition at h
    rw [drop_left] at h
    exact h.of_expression

theorem commaless_pass (text : Text) (x : Item) (ahead : List Item) :
    Commaless ahead (pass text x ahead) := by
  unfold pass
  dsimp only
  split
  · exact ⟨forall_mem_singleton.mpr (isComma_of_whitespace rfl), id⟩
  · refine ⟨forall_mem_nil _, fun h => (h.of_append ?_).of_drop⟩
    refine forall_mem_cons.mpr ⟨isComma_of_whitespace rfl, fun y hy => ?_⟩
    obtain ⟨z, -, rfl⟩ := mem_map.mp hy
    exact isComma_of_whitespace rfl

theorem commaless_definition (x : Item) (ahead : List Item) :
    Commaless ahead (definition x ahead) where
  shown := forall_mem_nil _
  left := fun h => (h.of_append (isComma_header _ _)).of_drop

theorem commaless_directive (before : List Piece) (x : Item) (ahead : List Item) (head : Head) :
    Commaless ahead (directive [] before x ahead head) := by
  cases head with
  | ifZero | ifNotZero => exact commaless_condition _ (by decide) before x ahead
  | ifFirstPass | ifSecondPass => exact commaless_pass _ x ahead
  | define => exact commaless_definition x ahead

section

variable {ahead : List Item}

theorem sweep_of_commaless {r : Outcome} (hself : r.self.value.kind = .identifier)
    (hr : Commaless ahead r) (h : Sweep (r.ahead.drop r.taken) out) :
    Sweep (x :: ahead) (r.self :: r.shown ++ out) := by
  refine .other (isSolid_of_kind (by simp [hself]) (by simp [hself])) ?_
    (fun h => (hr.left h).there) h
  exact forall_mem_cons.mpr ⟨isComma_of_kind_ne (by simp [hself]), hr.shown⟩

/-- An immediate instruction shows its operand, commas included, and walks along it itself. -/
theorem sweep_immediate (hkind : x.value.kind = .identifier)
    (h : let r := immediate [] before x ahead; Sweep (r.ahead.drop r.taken) out) :
    let r := immediate [] before x ahead
    Sweep (x :: ahead) (r.self :: r.shown ++ out) := by
  unfold immediate at h ⊢
  dsimp only at h ⊢
  split
  · next hblank =>
    rw [if_pos hblank] at h
    refine sweep_of_commaless (r := ⟨_, statement ahead, _, _⟩) hkind ⟨fun y hy => ?_, .of_drop⟩ h
    have hy := all_eq_true.mp hblank y hy
    exact isComma_of_kind_ne (by simp [Piece.kind_of_isBlank hy])
  · next hblank =>
    rw [if_neg hblank] at h
    refine @Sweep.other _ _ [_, _, _] _ (isSolid_of_kind (by simp [hkind]) (by simp [hkind])) ?_
      (fun hd => ?_) (sweep_operand h)
    · refine forall_mem_cons.mpr ⟨isComma_of_kind_ne (by simp [hkind]), ?_⟩
      exact forall_mem_cons.mpr ⟨isComma_of_whitespace rfl, forall_mem_singleton.mpr rfl⟩
    · have hrow := hd.of_blankLeading
      rw [statement_append_drop] at hrow
      exact hrow.there

/-- The walk does with a word what a sweep may do. -/
theorem sweep_word (hkind : x.value.kind = .identifier)
    (h : let r := word [] before x ahead; Sweep (r.ahead.drop r.taken) out) :
    let r := word [] before x ahead
    Sweep (x :: ahead) (r.self :: r.shown ++ out) := by
  have hself := kind_self_word hkind [] before ahead
  have hacts := acts_word hkind [] before ahead
  generalize word [] before x ahead = r at h hself hacts
  cases hacts with
  | repetition =>
    refine sweep_of_commaless hself ⟨forall_mem_nil _, fun h => ?_⟩ h
    exact h.of_rebraced (rebraced_braceBody _ ahead)
  | halfWords | plain => exact sweep_of_commaless hself ⟨forall_mem_nil _, id⟩ h
  | immediate => exact sweep_immediate hkind h
  | message => exact sweep_of_commaless hself (commaless_message x ahead) h
  | @directive head =>
    exact sweep_of_commaless hself (commaless_directive before x ahead head) h

end

/-- The walk along a row is a sweep. -/
theorem sweep_retargetRow (before : List Piece) (xs : List Item) :
    Sweep xs (retargetRow [] before xs) := by
  fun_induction retargetRow [] before xs with
  | case1 => exact .nil
  | case2 before x ahead hkind r ih => exact sweep_word hkind ih
  | case3 before x ahead hkind y ih =>
    cases hliteral : isLiteral x with
    | false => exact .item quoteSingle before x ih
    | true =>
      rw [if_pos rfl, announcement]
      split
      · refine @Sweep.other _ _ [_, _, y] _ rfl ?_ (fun h => h.of_after.there) ih
        have hy : isComma y = false := by
          have hlit : y.value.isLiteral = true := (isLiteral_written ..).trans hliteral
          refine isComma_of_kind_ne fun hkind => ?_
          rw [Piece.isLiteral, hkind] at hlit
          cases hlit
        simpa [hy] using ⟨isComma_of_kind_ne (by simp), isComma_of_whitespace rfl⟩
      · exact .item quoteSingle before x ih

end Macro10.Row
