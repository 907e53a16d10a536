import Macro10.Proofs.Retarget.Statement
import Mathlib.Data.List.Induction

/-!
# The rules for directives

Conditions and macro definitions do in a document what the functions on rows say. The arguments of a
directive are the cells right after it, and its body is the last of them, so it is always found
among them.
-/

namespace Macro10.Retarget

open List
open Cell (blanked items length_ids pieces value_item)
open Row (bodyDistance header modifyFirst pass spaced)
open Edit Document

variable {ys : List Cell}

variable {d d' : Document} {s : Spot} {ahead : List Cell} {x : Cell} {fuel : Nat}
  {group : Id → Edit Unit}

/-! ## Conditions -/

/-- The body that a token names is at the distance that its piece gives. -/
theorem body_eq_bodyDistance {t : Token} {p : Piece} {places places' : List Id}
    (h : t.Marked p places places') :
    t.body = (bodyDistance p).bind (places'[·]?) ∧
      ∀ k, bodyDistance p = some k → k < places'.length := by
  rw [h.body, bodyDistance]
  cases hbody : p.body with
  | false => simp
  | true =>
    cases hparts : p.parts with
    | none => simp
    | some n =>
      have hle := h.parts_le n hparts
      cases n with
      | zero => simp
      | succ n =>
        have hlt : n < places'.length := hle
        simp [hlt, getLast?_take]

/-- A condition is retargeted as `Row.condition` says. -/
theorem yields_retargetCondition (hgroup : GroupRule fuel group) (comparison : Text)
    (hx : x.piece.kind = .identifier) (h : Walking d s (x :: ahead))
    (hfuel : Cell.Within fuel ahead) :
    YieldsWord (retargetCondition group comparison x.id (Cell.ids ahead))
      (Row.condition s.opening comparison s.pieces x.item (items ahead)) d s x ahead := by
  have hkind : x.piece.kind ≠ .container := by simp [hx]
  have hinside : x.inside = [] := (h.nested x (by simp)).leaf hkind
  obtain ⟨t, ht, hfits⟩ := h.holds
  obtain ⟨hbody, hlt⟩ := body_eq_bodyDistance (hfits.marks rfl)
  refine yields_token_bind ht ?_
  refine (yields_setText [] hkind conditional h).bind fun _ d₁ hd₁ => ?_
  have hword : Progress d d₁ s [x] ahead [x.setText conditional] ahead [x.setText conditional] :=
    .of_leaves hd₁ (.cons ⟨rfl, .inl rfl⟩ .nil) (.refl ahead) (by simpa using hinside)
  rw [hbody]
  refine (yields_retargetExpression hgroup comparison (by simpa using hlt) hword.walking hfuel).mono
    fun c d' ⟨eaten, rest, front, rest', tail, he⟩ => ?_
  obtain ⟨rfl, hprogress, htokens, htaken, hitems, hrest, htail⟩ := he
  have hbefore : (s.past [x.setText conditional]).pieces =
      (Item.setText conditional x.item).value :: s.pieces := by simp
  rw [hbefore, hword.kept.newline, Spot.opening_past] at hitems
  rw [hbefore, Spot.opening_past] at hrest htail
  obtain ⟨e, he⟩ : ∃ e, Row.expression s.opening ((Item.setText conditional x.item).value ::
    s.pieces) (bodyDistance x.piece) (items (eaten ++ rest)) = e := ⟨_, rfl⟩
  have hr : Row.condition s.opening comparison s.pieces x.item
      (items (eaten ++ rest)) =
      { self := Item.setText conditional x.item, taken := e.items.length, ahead := e.items ++ e.rest
        shown := e.items ++ if e.comma then [Item.made .operator comparison,
          Item.made .number [.char '0']] else [] } := by
    rw [Row.condition, value_item, he]
  rw [he] at hitems hrest htail
  have hlength : e.items.length = eaten.length := by
    have hfront := congrArg List.length hitems
    have hids := congrArg List.length hprogress.ids_front
    simp only [Cell.length_items, length_map, length_ids] at hfront hids
    omega
  rw [hr]
  refine ⟨eaten, rest, _, rest', _, rfl, hword.trans h (.refl eaten) (.refl rest) hprogress, ?_,
    htaken, hlength, ?_, ?_, ?_⟩
  · rw [htokens]
    simp
  · simp only [singleton_append, Cell.items_cons, Cell.items_append, hitems, htail,
      Cell.item_setText, map_cons, map_append, Row.descend_setText (x := x.item)
        (by simpa using hkind)]
    congr 2
    split <;> simp [Row.descend_made]
  · rw [take_left, ← Row.map_value_descend d.newline, ← hitems, Cell.map_value_items]
    simp
  · rw [drop_left, hrest]

/-! ## Arguments before the body -/

theorem before?_append_singleton {i : Id} {ids : List Id} (h : i ∉ ids) :
    before? i (ids ++ [i]) = some ids := by
  induction ids with
  | nil => simp [before?]
  | cons j ids ih =>
    rw [mem_cons, not_or] at h
    rw [cons_append, before?, if_neg (Ne.symm h.1), ih h.2]
    rfl

/-- The arguments before the body are the next cells. -/
theorem yields_leadingParts (h : Walking d s (x :: ahead)) :
    Yields (leadingParts x.id) d fun ids d' =>
      ids = Cell.ids (ahead.take (Row.leading x.piece)) ∧ d' = d := by
  obtain ⟨t, ht, hfits⟩ := h.holds
  have hmarks := hfits.marks rfl
  have hparts : t.parts.getD [] = (Cell.ids ahead).take (x.piece.parts.getD 0) := by
    rw [hmarks.parts]
    cases x.piece.parts <;> simp
  have hle : x.piece.parts.getD 0 ≤ ahead.length := by
    cases hn : x.piece.parts with
    | none => exact Nat.zero_le _
    | some n => simpa using hmarks.parts_le n hn
  have htake : ∀ n, Cell.ids (ahead.take n) = (Cell.ids ahead).take n := by simp [Cell.ids]
  refine yields_token_bind ht ?_
  rw [hparts, hmarks.body, htake, Row.leading]
  generalize x.piece.parts.getD 0 = n at hle ⊢
  cases x.piece.body with
  | false => exact yields_pure ⟨rfl, rfl⟩
  | true =>
    cases n with
    | zero => exact yields_pure ⟨rfl, rfl⟩
    | succ n =>
      have hn : n < (Cell.ids ahead).length := by rw [length_ids]; exact hle
      have hsplit : (Cell.ids ahead).take (n + 1) =
          (Cell.ids ahead).take n ++ [(Cell.ids ahead)[n]] := by
        rw [take_succ_eq_append_getElem hn]
      have hnodup : ((Cell.ids ahead).take (n + 1)).Nodup :=
        (nodup_cons.mp (nodup_append.mp h.nodup_ids).2.1).2.sublist (take_sublist _ _)
      rw [hsplit] at hnodup ⊢
      have hnot : (Cell.ids ahead)[n] ∉ (Cell.ids ahead).take n := by
        intro hmem
        exact (nodup_append.mp hnodup).2.2 _ hmem _ (by simp) rfl
      rw [getLast?_append, getLast?_singleton]
      simp only [if_true, Option.some_or, before?_append_singleton hnot]
      exact yields_pure ⟨rfl, rfl⟩

/-! ## Conditions on the pass -/

/-- A condition on the pass is retargeted as `Row.pass` says. -/
theorem yields_retargetPass (condition : Text) (hx : x.piece.kind = .identifier)
    (h : Walking d s (x :: ahead)) :
    YieldsWord (retargetPass condition x.id) (pass condition x.item (items ahead)) d s x ahead := by
  have hkind : x.piece.kind ≠ .container := by simp [hx]
  have hinside : x.inside = [] := (h.nested x (by simp)).leaf hkind
  refine (yields_setText [] hkind conditional h).bind fun _ d₁ hd₁ => ?_
  have hwalk : Walking d₁ s (x.setText conditional :: ahead) := hd₁.walking
  refine (yields_leadingParts hwalk).bind ?_
  rintro _ d₁ ⟨rfl, rfl⟩
  have hlead : Row.leading (x.setText conditional).piece = Row.leading x.piece := rfl
  rw [hlead, Row.pass, value_item, Cell.take_items, Cell.drop_items]
  obtain ⟨leading, rest, rfl, hleading, hrest⟩ : ∃ leading rest, ahead = leading ++ rest ∧
      ahead.take (Row.leading x.piece) = leading ∧ ahead.drop (Row.leading x.piece) = rest :=
    ⟨_, _, (take_append_drop _ _).symm, rfl, rfl⟩
  rw [hleading, hrest]
  cases leading with
  | nil =>
    have hword : Progress d d₁ s [x] rest [x.setText conditional] rest [x.setText conditional] :=
      .of_leaves hd₁ (.cons ⟨rfl, .inl rfl⟩ .nil) (.refl rest) (by simpa using hinside)
    refine yields_synthesize_bind (yields_pure ?_)
    refine ⟨[], rest, _, rest, _, rfl, hword.insert [_] .whitespace (by decide) condition, ?_, rfl,
      rfl, ?_, ?_, rfl⟩
    · simp [Cell.made]
    · simp [Row.descend_setText, Row.descend_made, hkind]
    · simp
  | cons first leading =>
    show Yields (do
      blankAll (Cell.ids (first :: leading))
      setText first.id condition
      pure Continuation.none) d₁ _
    refine (yields_blankAll [x.setText conditional] (first :: leading) hwalk).bind
      fun _ d₂ hd₂ => ?_
    refine (yields_setText [x.setText conditional] (x := first.blanked) (by simp) condition
      hd₂.walking).bind fun _ d₃ hd₃ => yields_pure ?_
    refine ⟨[], _, _, _, _, .of_edited (hd₁.trans (hd₂.trans hd₃)) hinside hkind ?_⟩
    simp [items]

/-! ## Macro definitions -/

section Lists

variable {α β : Type} {p q : α → Bool} {g : α → α}

/-- The first element of the kind is changed, or there is none. -/
theorem modifyFirst_cases (p : α → Bool) (g : α → α) (xs : List α) :
    (xs.filter p = [] ∧ modifyFirst p g xs = xs) ∨
      ∃ us x vs, xs = us ++ x :: vs ∧ xs.filter p = x :: vs.filter p ∧
        modifyFirst p g xs = us ++ g x :: vs := by
  induction xs with
  | nil => exact .inl ⟨rfl, rfl⟩
  | cons x xs ih =>
    by_cases hx : p x = true
    · exact .inr ⟨[], x, xs, rfl, by simp [hx], by simp [modifyFirst, hx]⟩
    · rcases ih with ⟨hnone, hsame⟩ | ⟨us, y, vs, rfl, hsome, hfirst⟩
      · exact .inl ⟨by simpa [hx] using hnone, by simp [modifyFirst, hx, hsame]⟩
      · exact .inr ⟨x :: us, y, vs, rfl, by simpa [hx] using hsome,
          by simp [modifyFirst, hx, hfirst]⟩

section

variable (hp : ∀ x, p x = true → q x = false) (hg : ∀ x, q (g x) = false) (xs : List α)
include hp hg xs

theorem filter_modifyFirst : (modifyFirst p g xs).filter q = xs.filter q := by
  induction xs with
  | nil => rfl
  | cons x xs ih =>
    rw [modifyFirst]
    split
    · next hx => simp [hg, hp x hx]
    · simp [filter_cons, ih]

theorem filter_modifyLast : (Row.modifyLast p g xs).filter q = xs.filter q := by
  rw [Row.modifyLast, filter_reverse, filter_modifyFirst hp hg, filter_reverse, reverse_reverse]

end

end Lists

theorem yields_operatorsAmong (text : Text) {cs : List Cell}
    (h : ∀ c ∈ cs, d.Looks c) :
    Yields (operatorsAmong text (Cell.ids cs)) d fun ids d' =>
      ids = Cell.ids (cs.filter (·.piece.isOperator text)) ∧ d' = d := by
  induction cs with
  | nil => exact yields_pure ⟨rfl, rfl⟩
  | cons c cs ih =>
    obtain ⟨⟨t, ht, hlooks⟩, hcs⟩ := forall_mem_cons.mp h
    refine yields_ask_bind (isOperator_eq ht hlooks text) ((ih hcs).bind ?_)
    rintro _ _ ⟨rfl, rfl⟩
    refine yields_pure ⟨?_, rfl⟩
    rw [filter_cons]
    split <;> rfl

/-- The cell as a single blank. -/
def spacedCell (c : Cell) : Cell := c.blanked.setText [.char ' ']

theorem item_spacedCell (c : Cell) : (spacedCell c).item = spaced c.item := by
  simp [spacedCell, spaced]

theorem cellRule_spaceAll : CellRule spaceAll spacedCell := by
  refine ⟨rfl, fun xs c _ _ _ h hrest => (yields_blank xs h).bind fun _ d₁ hd₁ => ?_⟩
  refine (yields_setText xs (x := c.blanked) (by simp) _ hd₁.walking).bind fun _ d₂ hd₂ => ?_
  exact hrest d₂ (hd₁.trans hd₂)

/-- The first of the cells that it is given is changed. -/
theorem CellRule.yields_first {rule : List Id → Edit Unit} {g : Cell → Cell}
    (hrule : CellRule rule g) (p : Cell → Bool) (xs cs : List Cell)
    (h : Walking d s (xs ++ (cs ++ ys))) :
    Yields (rule ((Cell.ids (cs.filter p)).take 1)) d fun _ d' =>
      Edited d d' s (xs ++ (cs ++ ys)) (xs ++ (modifyFirst p g cs ++ ys)) := by
  rcases modifyFirst_cases p g cs with ⟨hnone, hsame⟩ | ⟨us, c, vs, rfl, hsome, hfirst⟩
  · rw [hnone, hsame, Cell.ids_nil, take_nil, hrule.nil]
    exact yields_pure (.refl h)
  · have hwalk : Walking d s ((xs ++ us) ++ c :: (vs ++ ys)) := by simpa using h
    rw [hsome, hfirst]
    refine hrule.cons _ hwalk fun d' hd' => ?_
    rw [take_zero, hrule.nil]
    exact yields_pure (by simpa using hd')

/-- The last of the cells that it is given is changed. -/
theorem CellRule.yields_last {rule : List Id → Edit Unit} {g : Cell → Cell}
    (hrule : CellRule rule g) (p : Cell → Bool) (xs cs : List Cell)
    (h : Walking d s (xs ++ (cs ++ ys))) :
    Yields (rule (Cell.ids (cs.filter p)).getLast?.toList) d fun _ d' =>
      Edited d d' s (xs ++ (cs ++ ys)) (xs ++ (Row.modifyLast p g cs ++ ys)) := by
  have hlast : (Cell.ids (cs.filter p)).getLast? = ((cs.reverse.filter p).head?).map Cell.id := by
    rw [filter_reverse, head?_reverse, Cell.ids, getLast?_map]
  rw [hlast, Row.modifyLast]
  rcases modifyFirst_cases p g cs.reverse with ⟨hnone, hsame⟩ | ⟨us, c, vs, hcs, hsome, hfirst⟩
  · rw [hnone, hsame, reverse_reverse]
    exact hrule.nil ▸ yields_pure (.refl h)
  · obtain rfl : cs = vs.reverse ++ c :: us.reverse := by
      rw [← reverse_reverse cs, hcs]
      simp
    have hwalk : Walking d s ((xs ++ vs.reverse) ++ c :: (us.reverse ++ ys)) := by simpa using h
    rw [hsome, hfirst]
    refine hrule.cons _ hwalk fun d' hd' => ?_
    rw [hrule.nil]
    exact yields_pure (by simpa using hd')

theorem yields_blankTrailing (xs cs : List Cell)
    (h : Walking d s (xs ++ (cs ++ ys))) :
    Yields (blankLeading (Cell.ids cs).reverse) d fun _ d' => ∃ cs',
      Edited d d' s (xs ++ (cs ++ ys)) (xs ++ (cs' ++ ys)) ∧
      items cs' = (Row.blankLeading (items cs).reverse).reverse := by
  induction cs using List.reverseRecOn generalizing d ys with
  | nil => exact yields_pure ⟨[], .refl h, rfl⟩
  | append_singleton cs c ih =>
    have hreverse : (Cell.ids (cs ++ [c])).reverse = c.id :: (Cell.ids cs).reverse := by simp
    have hitems : (items (cs ++ [c])).reverse = c.item :: (items cs).reverse := by simp
    have hwalk : Walking d s ((xs ++ cs) ++ c :: ys) := by simpa using h
    obtain ⟨t, ht, hlooks⟩ := h.looks c (by simp)
    rw [hreverse, hitems, Row.blankLeading, value_item]
    refine yields_token_bind ht ?_
    rw [hlooks.isBlank]
    cases c.piece.isBlank with
    | false => exact yields_pure ⟨cs ++ [c], .refl h, by simp⟩
    | true =>
      refine (yields_blank _ hwalk).bind fun _ d₁ hd₁ => ?_
      have hwalk₁ : Walking d₁ s (xs ++ (cs ++ c.blanked :: ys)) := by
        simpa using hd₁.walking
      refine (ih hwalk₁).mono ?_
      rintro _ d' ⟨cs', hd', hcs'⟩
      refine ⟨cs' ++ [c.blanked], ?_, ?_⟩
      · have hall := hd₁.trans (by simpa using hd')
        simpa using hall
      · simp [hcs']

/-- The arguments of a macro definition with blanks for parentheses and commas. -/
def spacedArguments (cs : List Cell) : List Cell :=
  (Row.modifyLast (·.piece.isOperator ")") blanked
    (modifyFirst (·.piece.isOperator "(") spacedCell cs)).map
      fun c => if c.piece.isOperator "," then spacedCell c else c

theorem header_items (body : Bool) (cs : List Cell) :
    header body (items cs) =
      if body then (Row.blankLeading (items (spacedArguments cs)).reverse).reverse
      else items (spacedArguments cs) := by
  have hcells : Row.separated (·.value.isOperator) spaced Item.blanked (items cs) =
      items (spacedArguments cs) :=
    Row.separated_map (fun c text => by rw [value_item]) (fun c => (item_spacedCell c).symm)
      (fun c => (Cell.item_blanked c).symm) cs
  rw [Row.header_eq, hcells]

theorem isOperator_spacedCell (c : Cell) (text : Text) :
    (spacedCell c).piece.isOperator text = false :=
  Piece.isOperator_of_kind_ne (by simp [spacedCell, Piece.setText]) text

/-- The parentheses and commas are found before any of them is changed, and no change of one of them
makes or unmakes another. -/
theorem yields_spacedArguments_bind {k : Edit Unit} {Q : Unit → Document → Prop} {cs : List Cell}
    (h : Walking d s (x :: (cs ++ ys)))
    (hk : ∀ d', Edited d d' s (x :: (cs ++ ys)) (x :: (spacedArguments cs ++ ys)) → Yields k d' Q) :
    Yields (do
      let opens ← operatorsAmong "(" (Cell.ids cs)
      let closes ← operatorsAmong ")" (Cell.ids cs)
      let commas ← operatorsAmong "," (Cell.ids cs)
      spaceAll (opens.take 1)
      blankAll closes.getLast?.toList
      spaceAll commas
      k) d Q := by
  have hlooks : ∀ c ∈ cs, d.Looks c := fun c hc => h.looks c (by simp [hc])
  refine (yields_operatorsAmong "(" hlooks).bind ?_
  rintro _ d ⟨rfl, rfl⟩
  refine (yields_operatorsAmong ")" hlooks).bind ?_
  rintro _ d ⟨rfl, rfl⟩
  refine (yields_operatorsAmong "," hlooks).bind ?_
  rintro _ d ⟨rfl, rfl⟩
  have hfirst (text : Text) (hne : "(" ≠ text) :
      (modifyFirst (·.piece.isOperator "(") spacedCell cs).filter (·.piece.isOperator text) =
        cs.filter (·.piece.isOperator text) :=
    filter_modifyFirst (fun c hc => Piece.isOperator_of_ne hc hne)
      (fun c => isOperator_spacedCell c text) cs
  rw [← hfirst ")" (by decide), ← hfirst "," (by decide)]
  unfold spacedArguments at hk
  refine (cellRule_spaceAll.yields_first _ [x] cs h).bind fun _ d₂ hd₂ => ?_
  generalize modifyFirst (·.piece.isOperator "(") spacedCell cs = cs₁ at hd₂ hk ⊢
  have hlast : (Row.modifyLast (·.piece.isOperator ")") blanked cs₁).filter
      (·.piece.isOperator ",") =
      cs₁.filter (·.piece.isOperator ",") :=
    filter_modifyLast (fun c hc => Piece.isOperator_of_ne hc (by decide))
      (fun c => Piece.isOperator_of_kind_ne (by simp) _) cs₁
  rw [← hlast]
  refine (cellRule_blankAll.yields_last _ [x] cs₁ hd₂.walking).bind fun _ d₃ hd₃ => ?_
  generalize Row.modifyLast (·.piece.isOperator ")") blanked cs₁ = cs₂ at hd₃ hk ⊢
  refine (cellRule_spaceAll.yields _ [x] cs₂ hd₃.walking).bind fun _ d₄ hd₄ => ?_
  exact hk d₄ (hd₂.trans (hd₃.trans hd₄))

/-- No blank is left in front of a body. -/
theorem yields_blankBeforeBody {cs : List Cell} (h : Walking d s (x :: (cs ++ ys)))
    (hcs : cs.length = min (Row.leading x.piece) (cs ++ ys).length) :
    Yields (do if (← token x.id).body.isSome then blankLeading (Cell.ids cs).reverse) d
      fun _ d' => ∃ cs', Edited d d' s (x :: (cs ++ ys)) (x :: (cs' ++ ys)) ∧
        items cs' = if x.piece.body then (Row.blankLeading (items cs).reverse).reverse
          else items cs := by
  obtain ⟨t, ht, hfits⟩ := h.holds
  refine yields_token_bind ht ?_
  rw [(hfits.marks rfl).body]
  cases hflag : x.piece.body with
  | false => exact yields_pure ⟨cs, .refl h, by simp⟩
  | true =>
    rw [if_pos rfl]
    split
    · exact yields_blankTrailing [x] cs h
    · next hnone =>
      -- Without arguments there is nothing in front of a body.
      have htake := congrArg List.length (getLast?_eq_none_iff.mp
        (Option.not_isSome_iff_eq_none.mp hnone))
      rw [Row.leading, if_pos hflag] at hcs
      simp only [length_take, length_ids, length_append, length_nil] at htake hcs
      obtain rfl : cs = [] := length_eq_zero_iff.mp (by omega)
      exact yields_pure ⟨[], .refl h, rfl⟩

/-- A macro definition is retargeted as `Row.definition` says. -/
theorem yields_retargetDefinition (hx : x.piece.kind = .identifier)
    (h : Walking d s (x :: ahead)) :
    Yields (retargetDefinition x.id) d fun _ d' => ∃ ahead',
      Edited d d' s (x :: ahead) (x.setText macroDefinition :: ahead') ∧
      items ahead' = (Row.definition x.item (items ahead)).ahead := by
  have hkind : x.piece.kind ≠ .container := by simp [hx]
  refine (yields_setText [] hkind macroDefinition h).bind fun _ d₁ hd₁ => ?_
  have hwalk : Walking d₁ s (x.setText macroDefinition :: ahead) := hd₁.walking
  refine (yields_leadingParts hwalk).bind ?_
  rintro _ d₁ ⟨rfl, rfl⟩
  have hlead : Row.leading (x.setText macroDefinition).piece = Row.leading x.piece := rfl
  rw [hlead, Row.definition, value_item, Cell.take_items, Cell.drop_items]
  obtain ⟨cs, rest, rfl, hcs, hrest⟩ : ∃ cs rest, ahead = cs ++ rest ∧
      ahead.take (Row.leading x.piece) = cs ∧ ahead.drop (Row.leading x.piece) = rest :=
    ⟨_, _, (take_append_drop _ _).symm, rfl, rfl⟩
  have hlength := congrArg List.length hcs
  rw [length_take] at hlength
  rw [hcs, hrest, header_items]
  refine yields_spacedArguments_bind hwalk fun d₂ hd₂ => ?_
  have hids : Cell.ids (spacedArguments cs) = Cell.ids cs := by
    have hall := (Cell.pared_cons.mp hd₂.pared).2.ids_eq
    rw [Cell.ids_append, Cell.ids_append] at hall
    exact append_cancel_right hall
  have hsame : (spacedArguments cs).length = cs.length := by
    simpa using congrArg List.length hids
  rw [← hids]
  refine (yields_blankBeforeBody hd₂.walking ?_).mono ?_
  · rw [length_append, hsame, ← length_append, hlead, hlength]
  · rintro _ d' ⟨cs', hd', hitems⟩
    refine ⟨cs' ++ rest, (hd₁.trans hd₂).trans hd', ?_⟩
    rw [Cell.items_append, hitems]
    rfl

end Macro10.Retarget
