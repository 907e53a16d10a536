import Macro10.Proofs.Row.Acts

/-!
# Literals and what announces them

The walk along a row puts a directive for data before a literal at the start of a line. In the end
no literal is the first item of its line (`covered_retargetRow`), and such a directive stands
nowhere but before a literal (`announced_retargetRow`).
-/

namespace Macro10

open List

variable {ps before : List Piece} {p : Piece} {x : Item} {ahead xs : List Item}

/-- The piece is a literal. -/
def Piece.isLiteral (p : Piece) : Bool := p.kind = .string || p.kind = .number

namespace Row

open Retarget (dataDirective quoteSingle)

/-! ## Starts of lines -/

/-- Only white space stands on the line after the given pieces. -/
def freshAfter (before : List Piece) : Bool :=
  (before.takeWhile fun p => !p.isNewline).all Piece.isSpacing

theorem freshAfter_cons (p : Piece) (before : List Piece) :
    freshAfter (p :: before) = (p.isNewline || freshAfter before && p.isSpacing) := by
  cases hline : p.isNewline with
  | true => simp [freshAfter, hline]
  | false => simp [freshAfter, hline, Bool.and_comm]

theorem freshAfter_append (hps : ∀ p ∈ ps, p.isNewline = false)
    (h : freshAfter before = false) : freshAfter (ps ++ before) = false := by
  induction ps with
  | nil => exact h
  | cons p ps ih =>
    obtain ⟨hp, hrest⟩ := forall_mem_cons.mp hps
    rw [cons_append, freshAfter_cons, hp, ih hrest]
    rfl

/-- No literal is the first on its line; `fresh` tells that nothing stands on the line yet. -/
def Covered (fresh : Bool) : List Piece → Prop
  | [] => True
  | p :: rest => (p.isLiteral = true → fresh = false) ∧
      Covered (p.isNewline || fresh && p.isSpacing) rest

namespace Covered

variable {fresh : Bool} {qs : List Piece}

theorem append_of_line (hps : ∀ p ∈ ps, p.isNewline = false) (h : Covered false qs) :
    Covered false (ps ++ qs) := by
  induction ps with
  | nil => exact h
  | cons p ps ih =>
    obtain ⟨hp, hrest⟩ := forall_mem_cons.mp hps
    refine ⟨fun _ => rfl, ?_⟩
    rw [hp]
    exact ih hrest

theorem append (hps : Covered fresh ps) (h : ∀ fresh, Covered fresh qs) :
    Covered fresh (ps ++ qs) := by
  induction ps generalizing fresh with
  | nil => exact h fresh
  | cons p ps ih => exact ⟨hps.1, ih hps.2⟩

/-- A literal of the row has something before it on its line. -/
theorem freshAfter_eq {seen after : List Piece}
    (h : Covered (freshAfter seen) (before ++ p :: after)) (hp : p.isLiteral = true) :
    freshAfter (before.reverse ++ seen) = false := by
  induction before generalizing seen with
  | nil => exact h.1 hp
  | cons b before ih =>
    rw [reverse_cons, append_assoc]
    have hrest : Covered (freshAfter (b :: seen)) (before ++ p :: after) := by
      rw [freshAfter_cons]
      exact h.2
    exact ih hrest

end Covered

/-! ## What a word shows -/

/-- What a message shows is white space and a string, and ends no line. -/
theorem shown_message (x : Item) (ahead : List Item) :
    ∀ y ∈ (message x ahead).shown, y.value.isNewline = false ∧
      (y.value.kind = .whitespace ∨ y.value.kind = .string) :=
  forall_mem_shown_message x (fun _ hy hkind => ⟨isNewline_of_mem_statement hy, .inl hkind⟩)
    (fun y _ => ⟨Piece.isNewline_blanked y.value, .inl rfl⟩) ⟨by decide, .inl rfl⟩
    fun _ _ => ⟨Piece.isNewline_eq_false (by simp), .inr rfl⟩

section Word

variable (hkind : x.value.kind = .identifier)
include hkind

/-- What a word takes ends no line. -/
theorem isNewline_taken (h : Tame (x :: ahead)) (opening : Text) (before : List Piece) :
    let r := word opening before x ahead
    ∀ y ∈ r.ahead.take r.taken, y.value.isNewline = false := by
  intro r y hy
  obtain ⟨j, hj⟩ := getElem?_of_mem hy
  obtain ⟨hlt, -⟩ := List.getElem?_eq_some_iff.mp hj
  rw [length_take, Nat.lt_min] at hlt
  rw [getElem?_take_of_lt hlt.1] at hj
  have hframe : r.ahead.map frame = ahead.map frame := map_frame_word h.inLine.1 opening before
  have hsame : (ahead.map frame)[j]? = some (frame y) := by
    rw [← hframe, getElem?_map, hj]
    rfl
  rw [getElem?_map] at hsame
  obtain ⟨z, hz, heq⟩ := Option.map_eq_some_iff.mp hsame
  have hline : z.value.isNewline = y.value.isNewline := congrArg Prod.snd heq
  rw [← hline]
  exact ((acts_word hkind opening before ahead).not_ended hlt.1 hz).1

/-- What a word shows ends no line. -/
theorem isNewline_shown (h : Tame (x :: ahead)) (opening : Text) (before : List Piece) :
    ∀ y ∈ (word opening before x ahead).shown, y.value.isNewline = false := by
  have hpieces : ∀ m ∈ madePieces, (Piece.made m.1 m.2).isNewline = false := by decide
  refine forall_mem_shown h hkind opening before (fun y hy => (shown_message x ahead y hy).1) ?_
    fun _ => isNewline_taken hkind h opening before
  rintro y ⟨m, hm, rfl⟩
  exact hpieces m hm

end Word

/-! ## No literal starts a line -/

theorem kind_self_word (hkind : x.value.kind = .identifier) (opening : Text) (before : List Piece)
    (ahead : List Item) : (word opening before x ahead).self.value.kind = .identifier := by
  obtain ⟨text, hself⟩ := exists_self_word hkind opening before ahead
  rw [hself]
  exact hkind

/-- The rules for single items make no literals and keep those that there are. -/
theorem isLiteral_written (respell : Text → Text) (opening : Text) (before : List Piece) (x : Item)
    (ahead : List Item) :
    (written respell opening before x ahead).value.isLiteral = x.value.isLiteral := by
  unfold written
  split
  · rfl
  · unfold enter entered
    split <;> rfl
  · next hkind =>
    have hnot : x.value.isLiteral = false := by simp [Piece.isLiteral, hkind]
    rcases operator_eq opening x ahead with he | ⟨text, he⟩
    · rw [he, hnot]
      rfl
    · rw [he]
      rfl
  · rfl

/-- **No literal is the first on its line after the walk,** if the row may have statements. -/
theorem covered_retargetRow (h : Tame xs) {opening : Text}
    (hopening : opening ≠ "(") (before : List Piece) :
    Covered (freshAfter before) ((retargetRow opening before xs).map Nest.value) := by
  fun_induction retargetRow opening before xs with
  | case1 => trivial
  | case2 before x ahead hkind r ih =>
    -- The word is on the line, and what it shows ends no line.
    have hself : r.self.value.kind = .identifier := kind_self_word hkind opening before ahead
    have hsolid (seen : Bool) :
        (r.self.value.isNewline || seen && r.self.value.isSpacing) = false := by
      rw [Piece.isNewline_eq_false (by simp [hself]), Piece.isSpacing, hself]
      simp
    have htaken : ∀ p ∈ ((r.ahead.take r.taken).map Nest.value).reverse, p.isNewline = false := by
      intro p hp
      obtain ⟨y, hy, rfl⟩ := mem_map.mp (mem_reverse.mp hp)
      exact isNewline_taken hkind h opening before y hy
    have hrest := ih ((deals_word h hkind opening before).agedRow_drop.tame (h.tail.drop _))
    rw [freshAfter_append htaken (by rw [freshAfter_cons, hsolid])] at hrest
    rw [cons_append, map_cons, map_append]
    refine ⟨fun hliteral => ?_, ?_⟩
    · rw [Piece.isLiteral, hself] at hliteral
      cases hliteral
    · rw [hsolid]
      refine .append_of_line (fun p hp => ?_) hrest
      obtain ⟨y, hy, rfl⟩ := mem_map.mp hp
      exact isNewline_shown hkind h opening before y hy
  | case3 before x ahead hkind y ih =>
    have hrest := ih ((agedRow_after h.tail.leafy x).tame h.tail)
    rw [freshAfter_cons] at hrest
    have hy : y.value.isLiteral = x.value.isLiteral := isLiteral_written ..
    cases hliteral : isLiteral x with
    | false =>
      rw [if_neg (by decide)]
      refine ⟨fun hlit => ?_, hrest⟩
      rw [hy] at hlit
      exact absurd (hlit.symm.trans hliteral) (by decide)
    | true =>
      -- A literal is on the line then, whatever was there before.
      have hsolid (seen : Bool) : (y.value.isNewline || seen && y.value.isSpacing) = false := by
        have hlit : y.value.isLiteral = true := hy.trans hliteral
        have hspace : y.value.kind ≠ .whitespace := by
          intro hspace
          rw [Piece.isLiteral, hspace] at hlit
          cases hlit
        rw [Piece.isNewline_eq_false hspace, Piece.isSpacing]
        simp [hspace]
      rw [hsolid] at hrest
      rw [if_pos rfl, announcement]
      split
      · refine ⟨by simp [Piece.isLiteral], by simp [Piece.isLiteral],
          fun _ => by cases freshAfter before <;> decide, ?_⟩
        rw [hsolid]
        exact hrest
      · next hstart =>
        have hfresh : freshAfter before = false := by
          simp only [startsStatement, Bool.and_eq_true, Bool.or_eq_true,
            decide_eq_true_eq] at hstart
          exact Bool.eq_false_iff.mpr fun hfresh => hstart ⟨.inl hfresh, hopening⟩
        refine ⟨fun _ => hfresh, ?_⟩
        rw [hsolid]
        exact hrest

/-! ## What is announced is a literal -/

/-- A directive for data that has been put in is followed by a blank that has been put in, and by a
literal that was there. -/
def Announced : List Piece → Prop
  | [] => True
  | p :: rest =>
    (p.label = none → p.kind = .identifier → p.text = dataDirective →
      ∃ q later, rest = .made .whitespace [.char ' '] :: q :: later ∧ q.isLiteral = true ∧
        q.label.isSome = true) ∧
    Announced rest

namespace Announced

variable {qs : List Piece}

theorem cons (hp : p.label.isSome = true ∨ p.kind ≠ .identifier)
    (h : Announced ps) : Announced (p :: ps) := by
  refine ⟨fun hlabel hkind => ?_, h⟩
  rcases hp with hp | hp
  · rw [hlabel] at hp
    cases hp
  · exact absurd hkind hp

theorem append_of_labelled (hps : ∀ p ∈ ps, p.label.isSome = true ∨ p.kind ≠ .identifier)
    (h : Announced qs) : Announced (ps ++ qs) := by
  induction ps with
  | nil => exact h
  | cons p ps ih =>
    obtain ⟨hp, hrest⟩ := forall_mem_cons.mp hps
    exact (ih hrest).cons hp

theorem append (hps : Announced ps) (h : Announced qs) : Announced (ps ++ qs) := by
  induction ps with
  | nil => exact h
  | cons p ps ih =>
    refine ⟨fun hlabel hkind htext => ?_, ih hps.2⟩
    obtain ⟨q, later, rfl, hq⟩ := hps.1 hlabel hkind htext
    exact ⟨q, later ++ qs, by simp, hq⟩

theorem of_append (h : Announced (ps ++ qs)) : Announced qs := by
  induction ps with
  | nil => exact h
  | cons p ps ih => exact ih h.2

end Announced

/-- All items of the row have labels. -/
def Labelled (xs : List Item) : Prop := ∀ x ∈ xs, x.value.label.isSome = true

theorem AgedRow.labelled {ys : List Item} (h : AgedRow xs ys) (hxs : Labelled xs) :
    Labelled ys := by
  intro y hy
  obtain ⟨x, hx, haged⟩ := exists_mem_of_forall₂ h hy
  rw [haged.label]
  exact hxs x hx

theorem shown_word (h : Tame (x :: ahead)) (hkind : x.value.kind = .identifier)
    (hlabels : Labelled ahead) (opening : Text) (before : List Piece) :
    ∀ y ∈ (word opening before x ahead).shown,
      y.value.label.isSome = true ∨ y.value.kind ≠ .identifier := by
  have hleafy : Leafy ahead := h.tail.leafy
  have hacts := acts_word hkind opening before ahead
  have hpass (text : Text) : ∀ y ∈ (pass text x ahead).shown,
      y.value.label.isSome = true ∨ y.value.kind ≠ .identifier := by
    unfold pass
    dsimp only
    split
    · exact forall_mem_singleton.mpr (.inr (by simp))
    · exact forall_mem_nil _
  have hcondition (comparison : Text) :
      ∀ y ∈ (condition opening comparison before x ahead).shown,
        y.value.label.isSome = true ∨ y.value.kind ≠ .identifier := by
    have haged := ((spelled_expression opening
      ((Item.setText Retarget.conditional x).value :: before)
      (bodyDistance x.value) ahead).reworked.agedRow hleafy).labelled hlabels
    refine forall_mem_append.mpr ⟨fun y hy => .inl (haged y (mem_append_left _ hy)), ?_⟩
    split
    · exact forall_mem_cons.mpr ⟨.inr (by simp), forall_mem_singleton.mpr (.inr (by simp))⟩
    · exact forall_mem_nil _
  generalize word opening before x ahead = r at hacts
  cases hacts with
  | repetition | halfWords | plain => exact forall_mem_nil _
  | immediate =>
    unfold immediate
    dsimp only
    split
    · exact fun y hy => .inl (hlabels y ((List.takeWhile_prefix _).subset hy))
    · have hblank := agedRow_blankStatement hleafy
      have haged := hblank.trans ((spelled_operand opening
        ((Item.setText x.value.text.dropLast x).value :: before)
        (statement ahead).length _).reworked.agedRow (hblank.leafy hleafy))
      refine forall_mem_cons.mpr ⟨.inr (by simp), forall_mem_cons.mpr ⟨.inr (by simp), ?_⟩⟩
      exact fun y hy => .inl (haged.labelled hlabels y (mem_of_mem_take hy))
  | message =>
    intro y hy
    rcases (shown_message x ahead y hy).2 with hspace | hstring
    · exact .inr (by simp [hspace])
    · exact .inr (by simp [hstring])
  | @directive head =>
    cases head with
    | ifZero | ifNotZero => exact hcondition _
    | ifFirstPass | ifSecondPass => exact hpass _
    | define => exact forall_mem_nil _

/-- **Only literals are announced.** -/
theorem announced_retargetRow (h : Tame xs) (hlabels : Labelled xs) (opening : Text)
    (before : List Piece) : Announced ((retargetRow opening before xs).map Nest.value) := by
  fun_induction retargetRow opening before xs with
  | case1 => trivial
  | case2 before x ahead hkind r ih =>
    obtain ⟨hx, hahead⟩ := forall_mem_cons.mp hlabels
    have haged := (deals_word h hkind opening before).agedRow_drop
    have hrest := ih (haged.tame (h.tail.drop _))
      (haged.labelled fun y hy => hahead y (mem_of_mem_drop hy))
    have hself : r.self.value.label.isSome = true := by
      obtain ⟨text, hself⟩ : ∃ text, r.self = Item.setText text x :=
        exists_self_word hkind opening before ahead
      rw [hself]
      exact hx
    rw [map_append, map_cons]
    refine .cons (.inl hself) (.append_of_labelled (fun p hp => ?_) hrest)
    obtain ⟨y, hy, rfl⟩ := mem_map.mp hp
    exact shown_word h hkind hahead opening before y hy
  | case3 before x ahead hkind y ih =>
    obtain ⟨hx, hahead⟩ := forall_mem_cons.mp hlabels
    have hafter := agedRow_after h.tail.leafy x
    have hrest := ih (hafter.tame h.tail) (hafter.labelled hahead)
    have hy : y.value.label.isSome = true := by
      rw [(aged_written (leafy_cons.mp h.leafy).1
        (by simp [respellings]) opening before ahead).label]
      exact hx
    have hself := hrest.cons (.inl hy)
    cases hliteral : isLiteral x with
    | false => exact hself
    | true =>
      rw [if_pos rfl, announcement]
      split
      · have hlit : y.value.isLiteral = true := (isLiteral_written ..).trans hliteral
        exact ⟨fun _ _ _ => ⟨_, _, rfl, hlit, hy⟩, hself.cons (.inr (by simp))⟩
      · exact hself

end Row

end Macro10
