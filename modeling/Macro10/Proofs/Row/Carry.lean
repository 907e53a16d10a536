import Macro10.Proofs.Row.Aging
import Mathlib.Data.List.Perm.Basic

/-!
# What the walk along a row puts down

When the walk has passed an item, it has put the item down where it was, with items of its own
around it; only a message turns what is left of its statement into white space (`Carried`). The walk
relies on the normal form: arguments are on the line of their directive, and a directive on the pass
has no group among them but its body (`Tame`).
-/

namespace Macro10.Row

open List
open Item (blanked made setText)

variable {x : Item} {ys xs ahead : List Item} {text : Text}

variable {kind : Kind} {taken shown : List Item}

/-! ## Items put down -/

/-- The item has been put in. -/
structure Made (y : Item) : Prop where
  label : y.value.label = none
  kind : y.value.kind ≠ .container
  inside : y.inside = []

theorem made_made (h : kind ≠ .container) (text : Text) : Made (made kind text) :=
  ⟨rfl, h, rfl⟩

/-- The item is one that the rules put in, but for messages. -/
def Inserted (y : Item) : Prop := ∃ m ∈ madePieces, y = made m.1 m.2

theorem Inserted.made {y : Item} (h : Inserted y) : Made y := by
  obtain ⟨m, hm, rfl⟩ := h
  have hkinds : ∀ m ∈ madePieces, m.1 ≠ .container := by decide
  exact made_made (hkinds m hm) m.2

theorem inserted_made (h : (kind, text) ∈ madePieces) : Inserted (made kind text) := ⟨_, h, rfl⟩

/-- The item is the word for a message. -/
def isMessage (x : Item) : Bool :=
  x.value.kind = .identifier && x.value.upper = Keyword.message

theorem isMessage_iff :
    isMessage x = true ↔ x.value.kind = .identifier ∧ x.value.upper = Keyword.message := by
  simp [isMessage]

theorem word_message (h : x.value.upper = Keyword.message) (opening : Text)
    (before : List Piece) (ahead : List Item) : word opening before x ahead = message x ahead := by
  rw [word, h]
  rfl

/-- The items `taken` from the line of a message have been blanked out to `shown`, in some order. -/
structure Swallows (taken shown : List Item) : Prop where
  leafy : Leafy taken
  line : ∀ x ∈ taken, x.value.isNewline = false
  blank : ∀ y ∈ shown, Made y ∨ y.value.kind = .whitespace ∧ y.inside = []
  perm : (shown.filterMap (·.value.label)).Perm (taken.filterMap (·.value.label))

/-- The walk along the items `xs` has left the items `ys`, where `R` holds of what was inside an
item and what is inside it now. -/
inductive Carried (R : List Item → List Item → Prop) : List Item → List Item → Prop
  | nil : Carried R [] []
  | made {y : Item} {xs ys : List Item} (hy : Made y) (h : Carried R xs ys) : Carried R xs (y :: ys)
  | item {x y : Item} {xs ys : List Item} (hx : Becomes R x y) (h : Carried R xs ys) :
      Carried R (x :: xs) (y :: ys)
  | message {x y : Item} {taken shown xs ys : List Item} (hword : isMessage x = true)
      (hx : Becomes R x y) (hshown : Swallows taken shown) (h : Carried R xs ys) :
      Carried R (x :: (taken ++ xs)) (y :: (shown ++ ys))

theorem Swallows.kind_ne (h : Swallows taken shown) : ∀ y ∈ shown, y.value.kind ≠ .container := by
  intro y hy
  rcases h.blank y hy with hmade | ⟨hspace, -⟩
  · exact hmade.kind
  · rw [hspace]
    decide

theorem Swallows.of_agedRow (h : Swallows taken shown)
    (hxs : AgedRow xs taken) : Swallows xs shown where
  leafy := by
    intro x hx hkind
    obtain ⟨y, hy, haged⟩ := exists_mem_of_forall₂ (List.Forall₂.flip hxs) hx
    rw [haged.inside]
    exact h.leafy y hy (haged.kind_ne hkind)
  line := by
    intro x hx
    obtain ⟨y, hy, haged⟩ := exists_mem_of_forall₂ (List.Forall₂.flip hxs) hx
    rw [← haged.isNewline_eq]
    exact h.line y hy
  blank := h.blank
  perm := by
    have hlabels : taken.filterMap (·.value.label) = xs.filterMap (·.value.label) := by
      clear h
      induction hxs with
      | nil => rfl
      | cons hx _ ih => rw [filterMap_cons, filterMap_cons, hx.label, ih]
    rw [← hlabels]
    exact h.perm

namespace Carried

variable {R : List Item → List Item → Prop} {us vs : List Item}

theorem mades (hus : ∀ y ∈ us, Made y) (h : Carried R xs ys) : Carried R xs (us ++ ys) := by
  induction us with
  | nil => exact h
  | cons u us ih =>
    obtain ⟨hu, hus⟩ := forall_mem_cons.mp hus
    exact .made hu (ih hus)

/-- The walk may have changed the items before it came to them. -/
theorem of_agedRow (h : Carried R ys us) (hxs : AgedRow xs ys) : Carried R xs us := by
  induction h generalizing xs with
  | nil =>
    cases hxs
    exact .nil
  | made hy _ ih => exact .made hy (ih hxs)
  | item hx _ ih =>
    cases hxs with
    | cons haged hrest => exact .item (haged.becomes hx) (ih hrest)
  | message hword hx hshown _ ih =>
    cases hxs with
    | cons haged hrest =>
      obtain ⟨taken, later, rfl, htaken, hlater⟩ := AgedRow.split hrest
      refine .message ?_ (haged.becomes hx) (hshown.of_agedRow htaken) (ih hlater)
      rw [isMessage_iff] at hword ⊢
      obtain ⟨hkind, hupper⟩ := haged.upper_eq hword.1
      exact ⟨hkind, hupper.trans hword.2⟩

theorem of_aged_append (hxs : AgedRow xs ys) (h : Carried Eq us vs) :
    Carried Eq (xs ++ us) (ys ++ vs) := by
  induction hxs with
  | nil => exact h
  | cons haged _ ih => exact .item haged.toBecomes ih

end Carried

/-! ## Words -/

theorem Clear.congr {S : Item → Item → Prop} (h : Clear xs) (hS : List.Forall₂ S xs ys)
    (hmarks : ∀ {x y}, S x y → marks y = marks x)
    (hhead : ∀ {x y head}, S x y → y.value.head? = some head → x.value.head? = some head)
    (hkind : ∀ {x y}, S x y → x.value.kind ≠ .container → y.value.kind ≠ .container) :
    Clear ys := by
  induction hS with
  | nil => trivial
  | @cons x y xs ys hx hxs ih =>
    refine ⟨fun head hy hafter => ?_, ih h.2⟩
    rw [leading_congr (hmarks hx)]
    intro v hv
    obtain ⟨u, hu, huv⟩ := exists_mem_of_forall₂ (forall₂_take _ hxs) hv
    exact hkind huv (h.1 head (hhead hx hy) hafter u hu)

/-- The walk can take the row: this is what it needs to know of the normal form. -/
structure Tame (xs : List Item) : Prop where
  leafy : Leafy xs
  inLine : InLine xs
  clear : Clear xs

theorem Tame.tail (h : Tame (x :: xs)) : Tame xs :=
  ⟨(leafy_cons.mp h.leafy).2, h.inLine.2, h.clear.2⟩

theorem Tame.drop (h : Tame xs) (n : Nat) : Tame (xs.drop n) := by
  induction n generalizing xs with
  | zero => exact h
  | succ n ih =>
    cases xs with
    | nil => exact h
    | cons x xs => exact ih h.tail

theorem AgedRow.tame (h : AgedRow xs ys) (hxs : Tame xs) : Tame ys where
  leafy := h.leafy hxs.leafy
  inLine := hxs.inLine.congr h.map_frame_eq
  clear := hxs.clear.congr h Aged.marks_eq (fun haged => haged.head?_eq) Aged.kind_ne

/-- What the rule for a word `x` may do with the items after it. -/
inductive Deals (x : Item) (ahead : List Item) (r : Outcome) : Prop
  /-- The items that it takes are put down as they are then, with items that it has made. -/
  | steady (front back : List Item) (self : Becomes Eq x r.self)
      (aged : AgedRow ahead r.ahead) (inserted : ∀ y ∈ front ++ back, Inserted y)
      (shown : r.shown = front ++ r.ahead.take r.taken ++ back)
  /-- The items that it takes are swallowed, and no others are changed. -/
  | message (hword : isMessage x = true) (self : Becomes Eq x r.self)
      (shown : Swallows (ahead.take r.taken) r.shown)
      (later : r.ahead.drop r.taken = ahead.drop r.taken)

namespace Deals

variable {r : Outcome} (h : Deals x ahead r)
include h

theorem agedRow_drop : AgedRow (ahead.drop r.taken) (r.ahead.drop r.taken) := by
  cases h with
  | steady front back self aged inserted shown => exact aged.drop r.taken
  | message hword self shown later =>
    rw [later]
    exact .refl _

/-- The walk goes on after what the rule has dealt with. -/
theorem carried (hrest : Carried Eq (r.ahead.drop r.taken) ys) :
    Carried Eq (x :: ahead) (r.self :: r.shown ++ ys) := by
  cases h with
  | steady front back self aged inserted shown =>
    obtain ⟨hfront, hback⟩ := forall_mem_append.mp fun y hy => (inserted y hy).made
    have hahead := Carried.of_aged_append (.refl (r.ahead.take r.taken)) (hrest.mades hback)
    rw [take_append_drop] at hahead
    rw [cons_append, shown, append_assoc, append_assoc]
    exact .item self ((hahead.of_agedRow aged).mades hfront)
  | message hword self shown later =>
    rw [later] at hrest
    rw [← take_append_drop r.taken ahead, cons_append]
    exact .message hword self shown hrest

end Deals

theorem becomes_setText (text : Text) (x : Item) :
    Becomes Eq x (setText text x) := ⟨rfl, .inl rfl, rfl⟩

theorem take_statement (ahead : List Item) :
    ahead.take (statement ahead).length = statement ahead :=
  (prefix_iff_eq_take.mp (List.takeWhile_prefix _)).symm

section Words

variable (h : Leafy ahead)
include h

/-- An immediate instruction blanks out what is in front of its operand. -/
theorem agedRow_blankStatement : AgedRow ahead
    (blankLeading (statement ahead) ++ ahead.drop (statement ahead).length) := by
  have happend := (reworked_blankLeading (statement ahead)).append
    (.refl (ahead.drop (statement ahead).length))
  rw [statement_append_drop] at happend
  exact happend.agedRow h

theorem deals_immediate (opening : Text) (before : List Piece) :
    Deals x ahead (immediate opening before x ahead) := by
  unfold immediate
  dsimp only
  split
  · refine .steady [] [] (becomes_setText _ x) (.refl ahead) (forall_mem_nil _) ?_
    rw [nil_append, append_nil]
    exact (take_statement ahead).symm
  · have hblank := agedRow_blankStatement h
    refine .steady [made .whitespace [.char ' '], made .operator [.char '#']] []
      (becomes_setText _ x)
      (hblank.trans ((spelled_operand ..).reworked.agedRow (hblank.leafy h))) ?_ ?_
    · intro y hy
      rcases mem_cons.mp hy with rfl | hy
      · exact inserted_made (by decide)
      · obtain rfl := mem_singleton.mp hy
        exact inserted_made (by decide)
    · rw [append_nil]
      rfl

theorem deals_condition (opening : Text) {comparison : Text}
    (hcomparison : (.operator, comparison) ∈ madePieces) (before : List Piece) :
    Deals x ahead (condition opening comparison before x ahead) := by
  unfold condition
  dsimp only
  have haged := (spelled_expression opening
    ((setText Retarget.conditional x).value :: before)
    (bodyDistance x.value) ahead).reworked.agedRow h
  generalize expression opening _ _ ahead = e at haged ⊢
  refine .steady [] (if e.comma then [made .operator comparison, made .number [.char '0']]
    else []) (becomes_setText _ x) haged ?_ ?_
  · intro y hy
    split at hy
    · rcases mem_cons.mp hy with rfl | hy
      · exact inserted_made hcomparison
      · obtain rfl := mem_singleton.mp hy
        exact inserted_made (by decide)
    · cases hy
  · dsimp only
    rw [nil_append, take_left]

theorem deals_definition : Deals x ahead (definition x ahead) := by
  refine .steady [] [] (becomes_setText _ x) ?_ (forall_mem_nil _) rfl
  have happend := (reworked_header x.value.body (ahead.take (leading x.value))).append
    (.refl (ahead.drop (leading x.value)))
  rw [take_append_drop] at happend
  exact happend.agedRow h

theorem deals_pass (hline : leading x.value ≤ lineLength ahead)
    (hfree : ∀ y ∈ ahead.take (leading x.value), y.value.kind ≠ .container)
    (htext : text ∈ blankTexts) : Deals x ahead (pass text x ahead) := by
  have htaken : Leafy (ahead.take (leading x.value)) := h.of_subset (take_subset _ _)
  have hlines : ∀ y ∈ ahead.take (leading x.value), y.value.isNewline = false :=
    fun y hy => isNewline_of_mem_take hline hy
  have hsplit := take_append_drop (leading x.value) ahead
  unfold pass
  dsimp only
  split
  · refine .steady [made .whitespace text] [] (becomes_setText _ x) (.refl ahead) ?_ rfl
    intro y hy
    obtain rfl := mem_singleton.mp hy
    have hmade : ∀ text ∈ blankTexts, (Kind.whitespace, text) ∈ madePieces := by decide
    exact inserted_made (hmade text htext)
  · next first rest htake =>
    rw [htake] at hfree htaken hlines hsplit
    obtain ⟨hfirst, hrest⟩ := forall_mem_cons.mp hfree
    obtain ⟨hleaf, hleaves⟩ := leafy_cons.mp htaken
    obtain ⟨hend, hends⟩ := forall_mem_cons.mp hlines
    refine .steady [] [] (becomes_setText _ x) ?_ (forall_mem_nil _) rfl
    have hblanks : AgedRow rest (rest.map blanked) :=
      forall₂_map_right_iff.mpr <| forall₂_same.mpr fun y hy =>
        aged_blanked (hrest y hy) (hleaves y hy (hrest y hy)) (hends y hy)
    have haged : AgedRow (first :: rest) (setText text (blanked first) :: rest.map blanked) :=
      .cons (aged_whitespace hfirst (hleaf hfirst) hend (mem_cons_of_mem _ htext)) hblanks
    have happend := haged.append (.refl (ahead.drop (leading x.value)))
    rwa [hsplit] at happend

/-- What a message shows: all that it takes, blanked out, and perhaps a text. -/
theorem swallows_message : Swallows (statement ahead) (message x ahead).shown where
  leafy := h.of_subset (List.takeWhile_prefix _).subset
  line := fun _ hy => isNewline_of_mem_statement hy
  blank := forall_mem_shown_message x
    (fun y hy hkind => .inr ⟨hkind, h y ((List.takeWhile_prefix _).subset hy) (by simp [hkind])⟩)
    (fun _ _ => .inr ⟨rfl, rfl⟩) (.inl (made_made (by decide) _))
    fun _ _ => .inl (made_made (by decide) _)
  perm := by
    have hsplit := (parted_message ahead).split
    unfold message
    dsimp only
    generalize messageParts isGap (statement ahead) _ = m at hsplit ⊢
    have hcontent : (m.content.map blanked).filterMap (·.value.label) =
        m.content.filterMap (·.value.label) := by
      rw [filterMap_map]
      rfl
    rw [← hsplit, filterMap_append, filterMap_append, ← hcontent,
      ← filterMap_append, ← filterMap_append]
    split
    · -- Without a text, the blank after the message may come before what is blanked out.
      refine List.Perm.filterMap _ ?_
      generalize m.content.map blanked = blanks
      generalize hkept : m.separator.toList ++ m.trailing.toList = kept
      have hfront : (kept.take 1 ++ blanks ++ kept.drop 1).Perm (kept ++ blanks) := by
        rw [append_assoc]
        refine (perm_append_comm.append_left _).trans (.of_eq ?_)
        rw [← append_assoc, take_append_drop]
      refine hfront.trans ?_
      rw [← hkept, append_assoc, append_assoc]
      exact perm_append_comm.append_left _
    · refine .of_eq ?_
      cases m.separator <;> simp [filterMap_cons, made, Piece.made]

theorem swallows_taken : Swallows (ahead.take (message x ahead).taken) (message x ahead).shown := by
  rw [show (message x ahead).taken = (statement ahead).length from rfl, take_statement]
  exact swallows_message h

omit h in
theorem drop_ahead_message (x : Item) (ahead : List Item) :
    (message x ahead).ahead.drop (message x ahead).taken = ahead.drop (message x ahead).taken := by
  have hsplit := (parted_message ahead).split
  unfold message
  dsimp only
  generalize messageParts isGap (statement ahead) _ = m at hsplit ⊢
  have hlength : (m.separator.toList ++ m.content.map blanked ++ m.trailing.toList).length =
      (statement ahead).length := by
    rw [← hsplit]
    simp
  exact drop_left' hlength

theorem deals_message (hword : isMessage x = true) : Deals x ahead (message x ahead) :=
  .message hword (becomes_setText _ x) (swallows_taken h) (drop_ahead_message x ahead)

end Words

theorem deals_word (h : Tame (x :: ahead)) (hkind : x.value.kind = .identifier)
    (opening : Text) (before : List Piece) : Deals x ahead (word opening before x ahead) := by
  have hleafy : Leafy ahead := h.tail.leafy
  have hplain : ∀ {y : Item} {ahead' : List Item}, Becomes Eq x y →
      AgedRow ahead ahead' → Deals x ahead { self := y, ahead := ahead' } :=
    fun hy haged => .steady [] [] hy haged (forall_mem_nil _) rfl
  have hsame : Becomes Eq x x := (Aged.refl x).toBecomes
  have hpass : ∀ {head : Head} {text : Text}, Head.ofWord? x.value.upper = some head →
      head.bodyAfterComma = false → text ∈ blankTexts → Deals x ahead (pass text x ahead) := by
    intro head text hhead hfirst htext
    refine deals_pass hleafy h.inLine.1 (h.clear.1 head ?_ hfirst) htext
    rw [Piece.head?, if_pos hkind, hhead]
  unfold word
  dsimp only
  split
  · exact hplain hsame ((reworked_braceBody _ ahead).agedRow hleafy)
  split
  · exact hplain (becomes_setText _ x) (.refl ahead)
  split
  · exact deals_immediate hleafy opening before
  split
  · next hmessage => exact deals_message hleafy (isMessage_iff.mpr ⟨hkind, hmessage⟩)
  split
  · exact deals_condition hleafy opening (by decide) before
  · exact deals_condition hleafy opening (by decide) before
  · next hhead => exact hpass hhead rfl (by decide)
  · next hhead => exact hpass hhead rfl (by decide)
  · exact deals_definition hleafy
  · exact hplain hsame (.refl ahead)

/-- What a word shows is what a message makes of its statement, or what the word takes and what it
has made. -/
theorem forall_mem_shown {P : Item → Prop} (h : Tame (x :: ahead))
    (hkind : x.value.kind = .identifier) (opening : Text) (before : List Piece)
    (hmessage : ∀ y ∈ (message x ahead).shown, P y) (hinserted : ∀ y, Inserted y → P y)
    (htaken : isMessage x = false →
      ∀ y ∈ (word opening before x ahead).ahead.take (word opening before x ahead).taken, P y) :
    ∀ y ∈ (word opening before x ahead).shown, P y := by
  cases hword : isMessage x with
  | true =>
    rw [word_message (isMessage_iff.mp hword).2]
    exact hmessage
  | false =>
    cases deals_word h hkind opening before with
    | message htrue => cases hword.symm.trans htrue
    | steady front back _ _ inserted shown =>
      obtain ⟨hfront, hback⟩ := forall_mem_append.mp fun y hy => hinserted y (inserted y hy)
      rw [shown]
      exact forall_mem_append.mpr ⟨forall_mem_append.mpr ⟨hfront, htaken hword⟩, hback⟩

theorem inserted_announcement (x : Item) (opening : Text) (before : List Piece) :
    ∀ y ∈ if isLiteral x then announcement opening before else [], Inserted y := by
  unfold announcement
  split
  · split
    · exact forall_mem_cons.mpr ⟨inserted_made (by decide),
        forall_mem_singleton.mpr (inserted_made (by decide))⟩
    · exact forall_mem_nil _
  · exact forall_mem_nil _

/-- **The walk along a row puts down what it comes to.** -/
theorem carried_retargetRow (h : Tame xs) (opening : Text) (before : List Piece) :
    Carried Eq xs (retargetRow opening before xs) := by
  fun_induction retargetRow opening before xs with
  | case1 => exact .nil
  | case2 before x ahead hkind r ih =>
    have hdeals := deals_word h hkind opening before
    exact hdeals.carried (ih (hdeals.agedRow_drop.tame (h.tail.drop _)))
  | case3 before x ahead hkind y ih =>
    have hafter := agedRow_after h.tail.leafy x
    have hrest := (ih (hafter.tame h.tail)).of_agedRow hafter
    have hself : Aged x y := aged_written (leafy_cons.mp h.leafy).1 (by simp [respellings]) ..
    exact .mades (fun z hz => (inserted_announcement x opening before z hz).made)
      (.item hself.toBecomes hrest)

end Macro10.Row
