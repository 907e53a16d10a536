import Macro10.Proofs.Row.Acts

/-!
# Bodies in a row

Which groups are bodies, and of which directives, depends on the marks of the pieces, which no rule
changes, so it is known before the walk starts (`Foretold`). A body is written up to the keyword
that ends the block of its directive (`bodied_retargetRow`).
-/

namespace Macro10.Row

open List
open Nest (value)
open Retarget (closingKeyword?)

variable {heads : Nat → Option Nat} {marked : List (Option Nat × Option Nat × Bool × Option Nat)}
  {before seen seen' : List Piece} {xs ys ahead rest : List Item} {x y : Item} {n : Nat}
  {opening : Text}

/-! ## Marks -/

/-- The marks of a piece, and its label. -/
def pieceMarks (p : Piece) : Option Nat × Option Nat × Bool × Option Nat :=
  (p.owner, p.parts, p.body, p.label)

/-- The label of the directive that the piece is the body of, if it is one. The marks of the pieces
before it are given. -/
def headAfter (marked : List (Option Nat × Option Nat × Bool × Option Nat)) (p : Piece) :
    Option (Option Nat) :=
  p.owner.bind fun k => marked[k]?.bind fun m =>
    if m.2.2.1 && m.2.1 = some (k + 1) then some m.2.2.2 else none

/-- Among the items after the given marks, the groups that are bodies are those whose labels have a
label in `heads`, which is that of the directive. -/
def Foretold (heads : Nat → Option Nat) :
    List (Option Nat × Option Nat × Bool × Option Nat) → List Item → Prop
  | _, [] => True
  | marked, x :: rest =>
    (x.value.kind = .container →
      headAfter marked x.value = (x.value.label.bind heads).map some) ∧
      Foretold heads (pieceMarks x.value :: marked) rest

theorem Aged.pieceMarks_eq (h : Aged x y) : pieceMarks y.value = pieceMarks x.value := by
  have hmarks := h.marks_eq
  simp only [marks, Prod.mk.injEq] at hmarks
  simp only [pieceMarks, hmarks, h.label]

theorem Foretold.aged (h : Foretold heads marked xs) (haged : AgedRow xs ys) :
    Foretold heads marked ys := by
  induction haged generalizing marked with
  | nil => trivial
  | @cons x y xs ys hx _ ih =>
    refine ⟨fun hkind => ?_, by rw [hx.pieceMarks_eq]; exact ih h.2⟩
    have howner : y.value.owner = x.value.owner := congrArg Prod.fst hx.marks_eq
    have hbody := h.1 ((hx.kind_eq (by simp [hkind])).trans hkind)
    rw [hx.label, ← hbody, headAfter, headAfter, howner]

theorem Foretold.drop (h : Foretold heads marked xs) (n : Nat) :
    Foretold heads (((xs.take n).map (pieceMarks ·.value)).reverse ++ marked) (xs.drop n) := by
  induction n generalizing marked xs with
  | zero => exact h
  | succ n ih =>
    cases xs with
    | nil => trivial
    | cons x xs =>
      have hrest := ih h.2
      rw [take_succ_cons, map_cons, reverse_cons, append_assoc]
      exact hrest

/-! ## Groups that are entered -/

/-- The item is written as a body if and only if it is one. Then it has no brackets, and is written
up to the keyword for its directive, which is one of the pieces `seen`. -/
def Bodied (heads : Nat → Option Nat) (seen : List Piece) (y : Item) : Prop :=
  y.value.kind = .container → match y.value.label.bind heads with
    | none => y.value.role = .inline
    | some l => y.value.opening = [] ∧ y.value.closing = [] ∧
      ∃ p ∈ seen, p.label = some l ∧ y.value.role = .body (closingKeyword? p.upper)

namespace Bodied

theorem of_kind_ne (h : y.value.kind ≠ .container) : Bodied heads seen y :=
  fun hkind => absurd hkind h

theorem mono (h : Bodied heads seen y) (hsub : seen ⊆ seen') : Bodied heads seen' y := by
  intro hkind
  have hbody := h hkind
  cases hhead : y.value.label.bind heads with
  | none => rwa [hhead] at hbody
  | some l =>
    rw [hhead] at hbody
    obtain ⟨hopening, hclosing, p, hp, hrest⟩ := hbody
    exact ⟨hopening, hclosing, p, hsub hp, hrest⟩

/-- A group is written in its line if and only if it is no body. -/
theorem role_eq_inline_iff (h : Bodied heads seen y) (hkind : y.value.kind = .container) :
    y.value.role = .inline ↔ (y.value.label.bind heads).isSome = false := by
  have hbody := h hkind
  cases hhead : y.value.label.bind heads with
  | none => simpa [hhead] using hbody
  | some l =>
    rw [hhead] at hbody
    obtain ⟨-, -, p, -, -, hrole⟩ := hbody
    simp [hrole]

end Bodied

/-- A group is entered as what it is. -/
theorem bodied_enter
    (h : headAfter (before.map pieceMarks) x.value = (x.value.label.bind heads).map some) :
    Bodied heads before (enter before x) := by
  intro _
  have hlabel : (enter before x).value.label = x.value.label := (aged_enter before x).label
  have hrole : headAfter (before.map pieceMarks) x.value = none ∧
        roleAfter before x.value = .inline ∨
      ∃ p ∈ before, headAfter (before.map pieceMarks) x.value = some p.label ∧
        roleAfter before x.value = .body (closingKeyword? p.upper) := by
    unfold headAfter roleAfter
    cases x.value.owner with
    | none => exact .inl ⟨rfl, rfl⟩
    | some k =>
      simp only [Option.bind_some, getElem?_map]
      cases hbefore : before[k]? with
      | none => exact .inl ⟨rfl, rfl⟩
      | some p =>
        simp only [Option.map_some, Option.bind_some, pieceMarks]
        by_cases hbody : (p.body && decide (p.parts = some (k + 1))) = true
        · rw [if_pos hbody, if_pos hbody]
          exact .inr ⟨p, mem_of_getElem? hbefore, rfl, rfl⟩
        · rw [if_neg hbody, if_neg hbody]
          exact .inl ⟨rfl, rfl⟩
  rw [hlabel]
  rcases hrole with ⟨hnone, hrole⟩ | ⟨p, hp, hsome, hrole⟩
  · rw [h, Option.map_eq_none_iff] at hnone
    rw [hnone]
    simp [enter, entered, hrole]
  · rw [h, Option.map_eq_some_iff] at hsome
    obtain ⟨l, hl, hlabel⟩ := hsome
    rw [hl]
    have hentered : (enter before x).value = { x.value with
        opening := [], closing := [], role := .body (closingKeyword? p.upper) } := by
      simp [enter, entered, hrole]
    rw [hentered]
    exact ⟨rfl, rfl, p, hp, hlabel.symm, rfl⟩

theorem bodied_written (h : Foretold heads (before.map pieceMarks) (x :: rest))
    (respell : Text → Text) (opening : Text) (ahead : List Item) :
    Bodied heads before (written respell opening before x ahead) := by
  unfold written
  split
  · next hkind => exact .of_kind_ne (by simp [hkind])
  · next hkind => exact bodied_enter (h.1 hkind)
  · next hkind =>
    refine .of_kind_ne ?_
    rcases operator_eq opening x ahead with he | ⟨text, he⟩
    · simp [he]
    · simp [he, hkind]
  · next _ hne _ => exact .of_kind_ne hne

theorem foretold_after (hleafy : Leafy (x :: rest))
    (h : Foretold heads (before.map pieceMarks) (x :: rest)) {respell : Text → Text}
    (hrespell : respell ∈ respellings) (opening : Text) (ahead : List Item) :
    Foretold heads (((written respell opening before x ahead).value :: before).map pieceMarks)
      (after x rest) := by
  obtain ⟨hleaf, hrest⟩ := leafy_cons.mp hleafy
  rw [map_cons, (aged_written hleaf hrespell opening before ahead).pieceMarks_eq]
  exact h.2.aged (agedRow_after hrest x)

/-- What is written one item after another is entered as what it is. -/
theorem Spelled.bodied (hspelled : Spelled opening before n xs ys)
    (hleafy : Leafy xs) (h : Foretold heads (before.map pieceMarks) xs) :
    ∀ y ∈ ys.take n, Bodied heads (before ++ (ys.take n).map value) y := by
  induction hspelled with
  | empty => simp
  | zero => simp
  | comma _ rest =>
    rw [take_succ_cons, take_zero]
    exact forall_mem_singleton.mpr (.of_kind_ne (by simp))
  | @cons before n x rest ys _ hrespell _ ih =>
    obtain ⟨-, hrest⟩ := leafy_cons.mp hleafy
    rw [take_succ_cons, map_cons]
    refine forall_mem_cons.mpr ⟨(bodied_written h _ _ _).mono (by simp), fun y hy => ?_⟩
    refine (ih ((agedRow_after hrest x).leafy hrest)
      (foretold_after hleafy h hrespell ..) y hy).mono ?_
    rw [cons_append]
    exact perm_middle.symm.subset

/-! ## Words -/

section Words

theorem bodied_immediate (hleafy : Leafy ahead)
    (h : Foretold heads (pieceMarks x.value :: before.map pieceMarks) ahead) (opening : Text) :
    let r := immediate opening before x ahead
    ∀ y ∈ r.ahead.take r.taken,
      Bodied heads (r.self.value :: before ++ (r.ahead.take r.taken).map value) y := by
  unfold immediate
  dsimp only
  split
  · next hall =>
    intro y hy
    rw [take_statement] at hy
    have hkind := Piece.kind_of_isBlank (all_eq_true.mp hall y hy)
    exact .of_kind_ne (by simp [hkind])
  · have hblank := agedRow_blankStatement hleafy
    exact (spelled_operand ..).bodied (hblank.leafy hleafy) (h.aged hblank)

/-- **A word that takes groups enters them as what they are.** -/
theorem bodied_word (hkind : x.value.kind = .identifier) (hword : isMessage x = false)
    (hleafy : Leafy ahead) (h : Foretold heads (before.map pieceMarks) (x :: ahead))
    (opening : Text) :
    let r := word opening before x ahead
    ∀ y ∈ r.ahead.take r.taken,
      Bodied heads (r.self.value :: before ++ (r.ahead.take r.taken).map value) y := by
  have hcondition (comparison : Text) :
      let r := condition opening comparison before x ahead
      ∀ y ∈ r.ahead.take r.taken,
        Bodied heads (r.self.value :: before ++ (r.ahead.take r.taken).map value) y := by
    unfold condition
    dsimp only
    exact (spelled_expression ..).bodied hleafy h.2
  have hpass (text : Text) : (pass text x ahead).ahead.take (pass text x ahead).taken = [] := by
    rw [taken_pass, take_zero]
  have hacts := acts_word hkind opening before ahead
  generalize word opening before x ahead = r at hacts
  cases hacts with
  | repetition | halfWords | plain => simp
  | immediate => exact bodied_immediate hleafy h.2 opening
  | message _ hmessage =>
    rw [hword] at hmessage
    cases hmessage
  | @directive head =>
    cases head with
    | ifZero | ifNotZero => exact hcondition _
    | ifFirstPass | ifSecondPass => simp [directive, hpass]
    | define => simp [directive, definition]

/-- A message leaves the items after it as they are, or blanks them out. -/
theorem forall₂_message (x : Item) (ahead : List Item) :
    List.Forall₂ (fun y y' => y' = y ∨ y' = Item.blanked y) ahead (message x ahead).ahead := by
  have hsplit := (parted_message ahead).split
  have hsame (ys : List Item) : List.Forall₂ (fun y y' => y' = y ∨ y' = Item.blanked y) ys ys :=
    forall₂_same.mpr fun _ _ => .inl rfl
  unfold message
  dsimp only
  generalize messageParts isGap (statement ahead) _ = m at hsplit ⊢
  have hblanks : List.Forall₂ (fun y y' => y' = y ∨ y' = Item.blanked y) m.content
      (m.content.map Item.blanked) :=
    forall₂_map_right_iff.mpr (forall₂_same.mpr fun _ _ => .inr rfl)
  have hall := rel_append (rel_append (rel_append (hsame m.separator.toList) hblanks)
    (hsame m.trailing.toList)) (hsame (ahead.drop (statement ahead).length))
  simpa only [hsplit, statement_append_drop] using hall

/-- What a message takes is shown, blanked out. -/
theorem taken_message_subset (x : Item) (ahead : List Item) :
    (message x ahead).ahead.take (message x ahead).taken ⊆ (message x ahead).shown := by
  have hsplit := congrArg List.length (parted_message ahead).split
  unfold message
  dsimp only
  generalize messageParts isGap (statement ahead) _ = m at hsplit ⊢
  rw [take_left' (by simpa using hsplit)]
  generalize m.content.map Item.blanked = blanks
  split
  · cases m.separator <;> cases m.trailing <;> simp
  · intro y hy
    simp only [mem_append, Option.mem_toList] at hy
    rcases hy with (hy | hy) | hy <;> simp [hy]

section

variable (htame : Tame (x :: ahead)) (hkind : x.value.kind = .identifier)
include htame hkind

theorem taken_subset_shown (opening : Text) (before : List Piece) :
    let r := word opening before x ahead
    r.ahead.take r.taken ⊆ r.shown := by
  cases deals_word htame hkind opening before with
  | message hmessage =>
    rw [word_message (isMessage_iff.mp hmessage).2]
    exact taken_message_subset x ahead
  | steady front back _ _ _ shown =>
    dsimp only
    rw [shown]
    exact fun y hy => mem_append_left _ (mem_append_right _ hy)

theorem map_pieceMarks_word (opening : Text) (before : List Piece) :
    (word opening before x ahead).ahead.map (pieceMarks ·.value) =
      ahead.map (pieceMarks ·.value) := by
  have hmap {S : Item → Item → Prop} {ys : List Item} (hS : List.Forall₂ S ahead ys)
      (hsame : ∀ y y', S y y' → pieceMarks y'.value = pieceMarks y.value) :
      ys.map (pieceMarks ·.value) = ahead.map (pieceMarks ·.value) := by
    rw [← forall₂_eq_eq_eq, forall₂_map_left_iff, forall₂_map_right_iff]
    exact (hS.imp hsame).flip
  cases deals_word htame hkind opening before with
  | message hmessage =>
    rw [word_message (isMessage_iff.mp hmessage).2]
    refine hmap (forall₂_message x ahead) ?_
    rintro y _ (rfl | rfl) <;> rfl
  | steady _ _ _ aged => exact hmap aged fun _ _ haged => haged.pieceMarks_eq

variable (h : Foretold heads (before.map pieceMarks) (x :: ahead)) (opening : Text)
include h

theorem foretold_word :
    let r := word opening before x ahead
    Foretold heads ((((r.ahead.take r.taken).map value).reverse ++
      r.self.value :: before).map pieceMarks) (r.ahead.drop r.taken) := by
  have hrest := (h.2.drop (word opening before x ahead).taken).aged
    (leaves_word htame hkind opening before).aged
  obtain ⟨text, hself⟩ := exists_self_word hkind opening before ahead
  have hmarks : pieceMarks (word opening before x ahead).self.value = pieceMarks x.value := by
    rw [hself]
    rfl
  rw [map_take, ← map_pieceMarks_word htame hkind opening before, ← map_take] at hrest
  dsimp only
  rw [map_append, map_reverse, List.map_map, map_cons, hmarks]
  exact hrest

theorem bodied_shown :
    let r := word opening before x ahead
    ∀ y ∈ r.shown, Bodied heads (before ++ (r.self :: r.shown).map value) y := by
  have hleafy := htame.tail.leafy
  refine forall_mem_shown htame hkind opening before (fun y hy => ?_)
    (fun y hy => .of_kind_ne hy.made.kind) fun hword y hy => ?_
  · exact .of_kind_ne ((swallows_taken hleafy).kind_ne y hy)
  · refine (bodied_word hkind hword hleafy h opening y hy).mono ?_
    rw [cons_append, map_cons]
    refine cons_subset.mpr ⟨by simp, append_subset.mpr ⟨by simp, ?_⟩⟩
    have htaken := map_subset value (taken_subset_shown htame hkind opening before)
    exact List.Subset.trans htaken
      (List.Subset.trans (subset_cons_self _ _) (subset_append_right _ _))

end

end Words

/-- **The walk along a row enters the groups as what they are.** -/
theorem bodied_retargetRow (htame : Tame xs) (h : Foretold heads (before.map pieceMarks) xs)
    (opening : Text) : ∀ y ∈ retargetRow opening before xs,
      Bodied heads (before ++ (retargetRow opening before xs).map value) y := by
  fun_induction retargetRow opening before xs with
  | case1 => exact forall_mem_nil _
  | case2 before x ahead hkind r ih =>
    obtain ⟨text, hself⟩ := exists_self_word hkind opening before ahead
    have hself : r.self.value.kind ≠ .container := by
      rw [hself]
      simp [hkind]
    have hrest := ih ((leaves_word htame hkind opening before).tame htame)
      (foretold_word htame hkind h opening)
    have htaken : (r.ahead.take r.taken).map value ⊆ r.shown.map value :=
      map_subset _ (taken_subset_shown htame hkind opening before)
    rw [map_append]
    refine forall_mem_append.mpr ⟨forall_mem_cons.mpr ⟨.of_kind_ne hself, fun y hy => ?_⟩,
      fun y hy => (hrest y hy).mono ?_⟩
    · refine (bodied_shown htame hkind h opening y hy).mono ?_
      rw [← append_assoc]
      exact subset_append_left _ _
    · intro p hp
      simp only [mem_append, mem_reverse, mem_cons, map_cons] at hp ⊢
      rcases hp with (hp | hp | hp) | hp
      · exact .inr (.inl (.inr (htaken hp)))
      · exact .inr (.inl (.inl hp))
      · exact .inl hp
      · exact .inr (.inr hp)
  | case3 before x ahead hkind y ih =>
    have hleafy := htame.tail.leafy
    have hrest := ih ((leaves_after hleafy x).tame htame)
      (foretold_after htame.leafy h (by simp [respellings]) ..)
    refine forall_mem_append.mpr ⟨fun z hz => ?_, forall_mem_cons.mpr
      ⟨(bodied_written h _ _ _).mono (subset_append_left _ _), fun z hz =>
        (hrest z hz).mono ?_⟩⟩
    · exact .of_kind_ne (inserted_announcement x opening before z hz).made.kind
    · intro p hp
      simp only [map_append, map_cons, mem_append, mem_cons] at hp ⊢
      rcases hp with (hp | hp) | hp
      · exact .inr (.inr (.inl hp))
      · exact .inl hp
      · exact .inr (.inr (.inr hp))

end Macro10.Row
