import Macro10.Proofs.Retarget.Expression
import Macro10.Proofs.Document.Rendering

/-!
# The rules for statements

Immediate instructions, messages and repetitions do in a document what the functions on rows say.
-/

namespace Macro10.Retarget

open List Edit Document
open Cell (blanked item item_setText items_append items_cons length_items pieces value_item)

variable {cs ys taken later : List Cell} {commented : Bool}

variable {m : Row.MessageParts Cell}

variable {d d' : Document} {s : Spot} {ahead : List Cell} {x : Cell} {fuel : Nat}
  {group : Id → Edit Unit}

/-! ## What a rule for words does -/

/-- A rule for words has made of the word `x` and of the cells ahead what the function on rows says
in `r`. It has gone over `taken`, and the cells `out` stand for them and for the word. -/
structure Worded (r : Row.Outcome) (d d' : Document) (s : Spot) (x : Cell) (ahead : List Cell)
    (c : Continuation) (taken rest front rest' out : List Cell) : Prop where
  split : ahead = taken ++ rest
  progress : Progress d d' s (x :: taken) rest front rest' out
  tokens : x.id :: c.tokens = Cell.ids out
  count : c.taken = taken.length
  taken : r.taken = taken.length
  items : Cell.items out = (r.self :: r.shown).map (Row.descend d.newline)
  pieces : pieces front = r.self.value :: (r.ahead.take r.taken).map Nest.value
  rest : Cell.items rest' = r.ahead.drop r.taken

/-- The rule makes of the word `x` what the function on rows says in `r`. -/
abbrev YieldsWord (rule : Edit Continuation) (r : Row.Outcome) (d : Document) (s : Spot) (x : Cell)
    (ahead : List Cell) : Prop :=
  Yields rule d fun c d' => ∃ taken rest front rest' out,
    Worded r d d' s x ahead c taken rest front rest' out

/-- A rule that takes no tokens and puts none in. -/
theorem Worded.of_edited {r : Row.Outcome} {x' : Cell} {ahead' : List Cell}
    (h : Edited d d' s (x :: ahead) (x' :: ahead')) (hinside : x'.inside = [])
    (hkind : x'.piece.kind ≠ .container)
    (hr : r = { self := x'.item, ahead := Cell.items ahead' }) :
    Worded r d d' s x ahead .none [] ahead [x'] ahead' [x'] := by
  obtain ⟨hcell, hahead⟩ := Cell.pared_cons.mp h.pared
  subst hr
  refine ⟨rfl, .of_leaves h (.cons hcell .nil) hahead ?_, ?_, rfl, rfl, ?_, ?_, rfl⟩
  · intro c hc
    obtain rfl := mem_singleton.mp hc
    exact hinside
  · simp [Continuation.none, Cell.id_eq_of_tag hcell.1]
  · simp [Row.descend_of_kind_ne (x := x'.item) (by simpa using hkind)]
  · simp

theorem map_descend_items (h : ∀ c ∈ cs, c.piece.kind ≠ .container)
    (newline : Text) : (Cell.items cs).map (Row.descend newline) = Cell.items cs := by
  refine (map_congr_left fun y hy => ?_).trans (map_id _)
  obtain ⟨c, hc, rfl⟩ := mem_map.mp hy
  exact Row.descend_of_kind_ne (by simpa using h c hc) newline

/-! ## Scans -/

section

variable (h : ∀ c ∈ cs, d.Looks c)
include h

theorem yields_statementRest :
    Yields (statementRest (Cell.ids cs)) d fun ids d' =>
      ids = Cell.ids (cs.takeWhile fun c => !(c.piece.isNewline || c.piece.kind = .comment)) ∧
        d' = d := by
  induction cs with
  | nil => exact yields_pure ⟨rfl, rfl⟩
  | cons c cs ih =>
    obtain ⟨⟨t, ht, hlooks⟩, hcs⟩ := forall_mem_cons.mp h
    refine yields_token_bind ht ?_
    rw [hlooks.isNewline, hlooks.kind, takeWhile_cons]
    cases hend : (c.piece.isNewline || decide (c.piece.kind = .comment)) with
    | true => exact yields_pure ⟨rfl, rfl⟩
    | false =>
      refine (ih hcs).bind ?_
      rintro _ _ ⟨rfl, rfl⟩
      exact yields_pure ⟨rfl, rfl⟩

theorem yields_allBlank :
    Yields (allBlank (Cell.ids cs)) d fun b d' => b = cs.all (·.piece.isBlank) ∧ d' = d := by
  induction cs with
  | nil => exact yields_pure ⟨rfl, rfl⟩
  | cons c cs ih =>
    obtain ⟨⟨t, ht, hlooks⟩, hcs⟩ := forall_mem_cons.mp h
    refine yields_token_bind ht ?_
    rw [hlooks.isBlank, all_cons]
    cases c.piece.isBlank with
    | true => exact ih hcs
    | false => exact yields_pure ⟨rfl, rfl⟩

end

theorem yields_blankLeading (xs : List Cell)
    (h : Walking d s (xs ++ (cs ++ ys))) :
    Yields (blankLeading (Cell.ids cs)) d fun _ d' => ∃ cs',
      Edited d d' s (xs ++ (cs ++ ys)) (xs ++ (cs' ++ ys)) ∧
      Cell.Pared cs cs' ∧ Cell.items cs' = Row.blankLeading (Cell.items cs) := by
  induction cs generalizing d xs with
  | nil => exact yields_pure ⟨[], .refl h, .nil, rfl⟩
  | cons c cs ih =>
    obtain ⟨t, ht, hlooks⟩ := h.looks c (by simp)
    refine yields_token_bind ht ?_
    rw [hlooks.isBlank, items_cons, Row.blankLeading, value_item]
    cases c.piece.isBlank with
    | false => exact yields_pure ⟨c :: cs, .refl h, .refl _, rfl⟩
    | true =>
      refine (yields_blank xs h).bind fun _ d₁ hd₁ => ?_
      have hwalk := hd₁.walking
      rw [← singleton_append, ← append_assoc] at hwalk
      refine (ih _ hwalk).mono ?_
      rintro _ d' ⟨cs', hd', hpared, hitems⟩
      refine ⟨c.blanked :: cs', ?_, .cons ⟨rfl, .inr rfl⟩ hpared, ?_⟩
      · simpa using hd₁.trans (by simpa using hd')
      · simp [hitems]

/-- The cells up to the end of the statement. -/
def statementCells (cs : List Cell) : List Cell :=
  cs.takeWhile fun c => !(c.piece.isNewline || c.piece.kind = .comment)

theorem statement_items (cs : List Cell) :
    Row.statement (Cell.items cs) = Cell.items (statementCells cs) := by
  simp [Row.statement, statementCells, Cell.items, takeWhile_map, Function.comp_def]

theorem statementCells_split (cs : List Cell) :
    ∃ taken rest, cs = taken ++ rest ∧ statementCells cs = taken :=
  ⟨_, _, takeWhile_append_dropWhile.symm, rfl⟩

/-! ## Immediate instructions -/

theorem yields_retargetImmediate (hgroup : GroupRule fuel group) (hx : x.piece.kind = .identifier)
    (h : Walking d s (x :: ahead)) (hfuel : Cell.Within fuel ahead) :
    YieldsWord (retargetImmediate group x.id (Cell.ids ahead))
      (Row.immediate s.opening s.pieces x.item (Cell.items ahead)) d s x ahead := by
  have hkind : x.piece.kind ≠ .container := by simp [hx]
  have hinside : x.inside = [] := (h.nested x (by simp)).leaf hkind
  obtain ⟨taken, rest, rfl, htaken⟩ := statementCells_split ahead
  have hstatement := statement_items (taken ++ rest)
  rw [htaken] at hstatement
  obtain ⟨t, ht, hfits⟩ := h.holds
  refine yields_token_bind ht ?_
  rw [hfits.looks.words hkind]
  refine (yields_setText [] hkind _ h).bind fun _ d₁ hd₁ => ?_
  refine (yields_statementRest fun c hc => hd₁.walking.looks c (by simp [hc])).bind ?_
  rintro _ _ ⟨rfl, rfl⟩
  rw [← statementCells, htaken]
  refine (yields_allBlank fun c hc => hd₁.walking.looks c (by simp [hc])).bind ?_
  rintro _ _ ⟨rfl, rfl⟩
  split
  · next hblank =>
    refine (yields_report hd₁.walking ..).bind fun _ d₂ hd₂ => yields_pure ?_
    have hblanks : ∀ c ∈ taken, c.piece.isBlank = true := by simpa using hblank
    have hleaf : ∀ c ∈ taken, c.piece.kind ≠ .container := fun c hc => by
      simp [Piece.kind_of_isBlank (hblanks c hc)]
    have hr : Row.immediate s.opening s.pieces x.item (Cell.items (taken ++ rest)) =
        { self := Item.setText x.piece.text.dropLast x.item, shown := Cell.items taken,
          taken := taken.length, ahead := Cell.items (taken ++ rest) } := by
      have hall : (Cell.items taken).all (·.value.isBlank) = true := by
        simpa [Cell.items] using hblanks
      simp only [Row.immediate, hstatement, if_pos hall, value_item, length_items]
    have hprogress : Progress d d₂ s (x :: taken) rest
        (x.setText x.piece.text.dropLast :: taken) rest
        (x.setText x.piece.text.dropLast :: taken) :=
      .of_leaves (hd₁.trans hd₂) (.cons ⟨rfl, .inl rfl⟩ (Cell.Pared.refl taken)) (.refl rest)
        (forall_mem_cons.mpr ⟨hinside, fun c hc =>
          (h.nested c (by simp [hc])).leaf (hleaf c hc)⟩)
    refine ⟨taken, rest, _, rest, _, rfl, hprogress, rfl, by simp, ?_, ?_, ?_, ?_⟩ <;> rw [hr]
    · rw [← item_setText, ← items_cons, map_descend_items]
      exact forall_mem_cons.mpr ⟨hkind, hleaf⟩
    · simp [Cell.map_value_items]
    · simp
  · next hblank =>
    have hr : Row.immediate s.opening s.pieces x.item (Cell.items (taken ++ rest)) =
        let self := Item.setText x.piece.text.dropLast x.item
        let ahead := Row.operand s.opening (self.value :: s.pieces) taken.length
          (Row.blankLeading (Cell.items taken) ++ Cell.items rest)
        { self, taken := taken.length, ahead
          shown := Item.made .whitespace [.char ' '] :: Item.made .operator [.char '#'] ::
            ahead.take taken.length } := by
      have hall : ¬(Cell.items taken).all (·.value.isBlank) = true := by
        simpa [Cell.items] using hblank
      have hdrop : (Cell.items (taken ++ rest)).drop taken.length = Cell.items rest := by simp
      simp only [Row.immediate, hstatement, if_neg hall, value_item, length_items, hdrop]
    rw [hr]
    refine (yields_blankLeading [x.setText _] hd₁.walking).bind ?_
    rintro _ d₂ ⟨taken', hd₂, hpared, hitems⟩
    have hword : Progress d d₂ s [x] (taken ++ rest)
        [x.setText x.piece.text.dropLast] (taken' ++ rest) [x.setText x.piece.text.dropLast] :=
      .of_leaves (hd₁.trans hd₂) (.cons ⟨rfl, .inl rfl⟩ .nil) (hpared.append (.refl rest))
        (by simpa using hinside)
    have htakenfuel : Cell.Within fuel taken := fun c hc => hfuel c (by simp [hc])
    rw [← hpared.ids_eq]
    refine (yields_retargetOperand hgroup hword.walking (htakenfuel.pared hpared)).bind ?_
    rintro _ d₃ ⟨front, rest', hoperand, hfront, hrest'⟩
    refine yields_synthesize_bind (yields_synthesize_bind (yields_pure ?_))
    have hprogress := hword.trans h hpared (.refl rest) hoperand
    have hlast := (hprogress.insert [_] .whitespace (by decide) [.char ' ']).insert [_, _] .operator
      (by decide) [.char '#']
    have hbefore : (s.past [x.setText x.piece.text.dropLast]).pieces =
        (Item.setText x.piece.text.dropLast x.item).value :: s.pieces := by simp
    have hnewline : d₂.newline = d.newline := hword.kept.newline
    rw [hbefore, hpared.length_eq, items_append, hitems, hnewline] at hfront
    rw [hbefore, hpared.length_eq, items_append, hitems] at hrest'
    refine ⟨taken, rest, _, rest', _, rfl, hlast, ?_, ?_, rfl, ?_, ?_, hrest'⟩
    · simp [hoperand.ids_front, Cell.made]
    · simp [hpared.length_eq]
    · simp [hfront, Row.descend_made, Row.descend_setText, hkind]
    · rw [singleton_append, Cell.pieces_cons, ← Cell.map_value_items front, hfront,
        Row.map_value_descend]
      simp

/-! ## Messages -/

/-- The cell is a blank with a text. -/
def isGapCell (c : Cell) : Bool := Row.isGap c.item

theorem messageParts_items (taken : List Cell) (commented : Bool) :
    Row.messageParts Row.isGap (Cell.items taken) commented =
      { separator := (Row.messageParts isGapCell taken commented).separator.map item
        content := Cell.items (Row.messageParts isGapCell taken commented).content
        trailing := (Row.messageParts isGapCell taken commented).trailing.map item } :=
  Row.messageParts_map item Row.isGap taken commented

theorem yields_isGap {c : Cell} (h : d.Looks c) :
    Yields (isGap c.id) d fun b d' => b = isGapCell c ∧ d' = d := by
  obtain ⟨t, ht, hlooks⟩ := h
  refine yields_token_bind ht (yields_pure ⟨?_, rfl⟩)
  rw [hlooks.isBlank, isGapCell, Row.isGap, value_item]
  cases hblank : c.piece.isBlank with
  | false => rfl
  | true => rw [hlooks.words (by simp [Piece.kind_of_isBlank hblank])]

theorem yields_splitSeparator (hm : Row.messageParts isGapCell taken commented = m)
    (h : ∀ c ∈ taken, d.Looks c) :
    Yields (splitSeparator (Cell.ids taken)) d fun r d' =>
      r = (m.separator.map Cell.id, Cell.ids (Row.afterSeparator isGapCell taken)) ∧ d' = d := by
  subst hm
  cases taken with
  | nil => exact yields_pure ⟨rfl, rfl⟩
  | cons c cs =>
    refine (yields_isGap (h c (by simp))).bind ?_
    rintro _ _ ⟨rfl, rfl⟩
    refine yields_pure ⟨?_, rfl⟩
    cases hc : isGapCell c <;>
      simp [Row.messageParts, Row.afterSeparator, Option.filter, hc] <;> rfl

theorem yields_splitTrailing
    (hm : Row.messageParts isGapCell taken (later.head?.any (·.piece.kind = .comment)) = m)
    (h : ∀ c ∈ taken ++ later, d.Looks c) :
    Yields (splitTrailing (Cell.ids (Row.afterSeparator isGapCell taken)) (Cell.ids later).head?) d
      fun r d' => r = (Cell.ids m.content, m.trailing.map Cell.id) ∧ d' = d := by
  subst hm
  simp only [Row.messageParts]
  have hsub : Row.afterSeparator isGapCell taken ⊆ taken := by
    unfold Row.afterSeparator
    split
    · exact (tail_sublist taken).subset
    · exact List.Subset.refl taken
  generalize Row.afterSeparator isGapCell taken = cs at hsub ⊢
  cases later with
  | nil => exact yields_pure ⟨rfl, rfl⟩
  | cons y later =>
    obtain ⟨t, ht, hlooks⟩ := h y (by simp)
    have hids : (Cell.ids cs).getLast? = cs.getLast?.map Cell.id := by simp [Cell.ids]
    unfold splitTrailing
    cases hlast : cs.getLast? with
    | none =>
      rw [hids, hlast]
      exact yields_token_bind ht (yields_pure ⟨by simp, rfl⟩)
    | some last =>
      rw [hids, hlast]
      have hmem : last ∈ taken := hsub (mem_of_getLast? hlast)
      refine yields_token_bind ht ((yields_isGap (h last (by simp [hmem]))).bind ?_)
      rintro _ _ ⟨rfl, rfl⟩
      rw [hlooks.kind]
      split
      · next hgap =>
        simp only [Bool.and_eq_true, decide_eq_true_eq] at hgap
        exact yields_pure ⟨by simp [hgap.1, hgap.2, Option.filter, Cell.ids, map_dropLast], rfl⟩
      · next hgap =>
        simp only [Bool.and_eq_true, decide_eq_true_eq, not_and] at hgap
        refine yields_pure ⟨?_, rfl⟩
        by_cases hcomment : y.piece.kind = .comment
        · simp [hcomment, hgap hcomment, Option.filter]
        · simp [hcomment]

/-- A rule that changes one cell after another, from `c` to `g c`. -/
structure CellRule (rule : List Id → Edit Unit) (g : Cell → Cell) : Prop where
  nil : rule [] = pure ()
  cons : ∀ {d : Document} {s : Spot} (xs : List Cell) {c : Cell} {ys : List Cell} {ids : List Id}
    {Q : Unit → Document → Prop}, Walking d s (xs ++ c :: ys) →
      (∀ d', Edited d d' s (xs ++ c :: ys) (xs ++ g c :: ys) → Yields (rule ids) d' Q) →
      Yields (rule (c.id :: ids)) d Q

/-- Such a rule changes the cells that it is given. -/
theorem CellRule.yields {rule : List Id → Edit Unit} {g : Cell → Cell} (hrule : CellRule rule g)
    (p : Cell → Bool) (xs cs : List Cell) (h : Walking d s (xs ++ (cs ++ ys))) :
    Yields (rule (Cell.ids (cs.filter p))) d fun _ d' =>
      Edited d d' s (xs ++ (cs ++ ys))
      (xs ++ (cs.map (fun c => if p c then g c else c) ++ ys)) := by
  induction cs generalizing d xs with
  | nil =>
    rw [filter_nil, Cell.ids_nil, hrule.nil]
    exact yields_pure (.refl h)
  | cons c cs ih =>
    rw [filter_cons, map_cons]
    split
    · refine hrule.cons xs h fun d₁ hd₁ => ?_
      have hwalk : Walking d₁ s (xs ++ [g c] ++ (cs ++ ys)) := by simpa using hd₁.walking
      refine (ih _ hwalk).mono fun _ d' hd' => hd₁.trans ?_
      simpa using hd'
    · have hwalk : Walking d s (xs ++ [c] ++ (cs ++ ys)) := by simpa using h
      simpa using ih _ hwalk

theorem cellRule_blankAll : CellRule blankAll blanked :=
  ⟨rfl, fun xs _ _ _ _ h hrest => (yields_blank xs h).bind fun _ d' hd' => hrest d' hd'⟩

theorem yields_blankAll (xs cs : List Cell) (h : Walking d s (xs ++ (cs ++ ys))) :
    Yields (blankAll (Cell.ids cs)) d fun _ d' =>
      Edited d d' s (xs ++ (cs ++ ys)) (xs ++ (cs.map blanked ++ ys)) := by
  simpa using cellRule_blankAll.yields (fun _ => true) xs cs h

/-- The cells of a statement when its message is blanked out. -/
def messageRow (m : Row.MessageParts Cell) : List Cell :=
  m.separator.toList ++ m.content.map blanked ++ m.trailing.toList

/-- The blanks around a message, of which the first stays in front of it. -/
def messageGaps (m : Row.MessageParts Cell) : List Cell := m.separator.toList ++ m.trailing.toList

theorem message_items (htaken : statementCells (taken ++ later) = taken)
    (hm : Row.messageParts isGapCell taken (later.head?.any (·.piece.kind = .comment)) = m) :
    Row.message x.item (Cell.items (taken ++ later)) =
      { self := Item.setText ".OUT" x.item
        shown :=
          if (Text.trim (Item.textOf (Cell.items m.content))).isEmpty then
            Cell.items ((messageGaps m).take 1 ++ m.content.map blanked ++ (messageGaps m).drop 1)
          else
            (m.separator.map item).getD (Item.made .whitespace [.char ' ']) ::
              Cell.items (m.content.map blanked) ++
                Item.made .string (Row.printed (Item.textOf (Cell.items m.content))) ::
                  Cell.items m.trailing.toList
        taken := taken.length
        ahead := Cell.items (messageRow m ++ later) } := by
  have hstatement := statement_items (taken ++ later)
  rw [htaken] at hstatement
  have hdrop : (Cell.items (taken ++ later)).drop taken.length = Cell.items later := by simp
  have hcommented : (Cell.items later).head?.any (·.value.kind = .comment) =
      later.head?.any (·.piece.kind = .comment) := by
    cases later <;> simp
  have htoList : ∀ o : Option Cell, (o.map item).toList = Cell.items o.toList := by
    rintro (_ | c) <;> rfl
  have hblanks : (Cell.items m.content).map Item.blanked = Cell.items (m.content.map blanked) := by
    simp [Cell.items]
  simp only [Row.message, hstatement, length_items, hdrop, hcommented, messageParts_items, hm,
    htoList, hblanks]
  simp only [← items_append, Cell.take_items, Cell.drop_items]
  rfl

theorem kind_messageRow (hm : Row.messageParts isGapCell taken commented = m) :
    ∀ c ∈ messageRow m, c.piece.kind = .whitespace := by
  have hgap : ∀ c : Cell, isGapCell c = true → c.piece.kind = .whitespace := fun c hc => by
    simpa using Row.kind_of_isGap hc
  subst hm
  intro c hc
  simp only [messageRow, mem_append, Option.mem_toList, mem_map] at hc
  rcases hc with (hc | ⟨y, -, rfl⟩) | hc
  · exact hgap c (Row.messageParts_gap (.inl hc))
  · rfl
  · exact hgap c (Row.messageParts_gap (.inr hc))

theorem perm_messageRow (m : Row.MessageParts Cell) :
    (messageRow m).Perm ((messageGaps m).take 1 ++ m.content.map blanked ++
      (messageGaps m).drop 1) := by
  obtain ⟨separator, content, trailing⟩ := m
  cases separator with
  | some s => simp [messageRow, messageGaps]
  | none =>
    cases trailing with
    | none => simp [messageRow, messageGaps]
    | some t => simp [messageRow, messageGaps]

theorem ids_toList (o : Option Cell) : (o.map Cell.id).toList = Cell.ids o.toList := by
  cases o <;> rfl

/-- The message of the directive `x` has been blanked out. -/
structure MessageBlanked (m : Row.MessageParts Cell) (d d' : Document) (s : Spot) (x : Cell)
    (taken later : List Cell) : Prop where
  statement : statementCells (taken ++ later) = taken
  parts : Row.messageParts isGapCell taken (later.head?.any (·.piece.kind = .comment)) = m
  word : x.piece.kind ≠ .container
  edited : Edited d d' s (x :: (taken ++ later)) (x.setText ".OUT" :: (messageRow m ++ later))
  pared : Cell.Pared taken (messageRow m)

namespace MessageBlanked

variable {m : Row.MessageParts Cell} {taken later : List Cell}

/-- All that has been walked over is done as it is. -/
theorem progress (h : MessageBlanked m d d' s x taken later) :
    Progress d d' s (x :: taken) later (x.setText ".OUT" :: messageRow m) later
      (x.setText ".OUT" :: messageRow m) := by
  refine .of_leaves h.edited (.cons ⟨rfl, .inl rfl⟩ h.pared) (.refl later) ?_
  have hnested := h.edited.walking.nested
  refine forall_mem_cons.mpr ⟨(hnested _ (by simp)).leaf h.word, fun c hc => ?_⟩
  exact (hnested c (by simp [hc])).leaf (by simp [kind_messageRow h.parts c hc])

/-- What is put in place of the message is the outcome on rows. -/
theorem worded {d'' : Document} {c : Continuation} {out : List Cell}
    (h : MessageBlanked m d d' s x taken later)
    (hprogress : Progress d d'' s (x :: taken) later
      (x.setText ".OUT" :: messageRow m) later (x.setText ".OUT" :: out))
    (htokens : c.tokens = Cell.ids out) (hcount : c.taken = taken.length)
    (hshown : (Row.message x.item (Cell.items (taken ++ later))).shown = Cell.items out)
    (hsolid : ∀ c ∈ out, c.piece.kind ≠ .container) :
    Worded (Row.message x.item (Cell.items (taken ++ later))) d d'' s x
      (taken ++ later) c taken later (x.setText ".OUT" :: messageRow m) later
      (x.setText ".OUT" :: out) := by
  have hlength := h.pared.length_eq
  have hword : (x.setText ".OUT").piece.kind ≠ .container := h.word
  refine ⟨rfl, hprogress, by simp [htokens], hcount, ?_, ?_, ?_, ?_⟩
  · rw [message_items h.statement h.parts]
  · rw [hshown, message_items h.statement h.parts, ← item_setText, ← items_cons,
      map_descend_items (forall_mem_cons.mpr ⟨hword, hsolid⟩)]
  · rw [message_items h.statement h.parts, Cell.take_items, ← hlength, take_left,
      Cell.map_value_items, ← item_setText, value_item, Cell.pieces_cons]
  · rw [message_items h.statement h.parts, Cell.drop_items, ← hlength, drop_left]

theorem yields_string {d₁ : Document} (separator : Cell)
    (h : MessageBlanked m d d' s x taken later)
    (hempty : ¬(Text.trim (Item.textOf (Cell.items m.content))).isEmpty = true)
    (hseparator : separator.item = (m.separator.map item).getD (Item.made .whitespace [.char ' ']))
    (hsolid : separator.piece.kind ≠ .container)
    (hd₁ : Progress d d₁ s (x :: taken) later
      (x.setText ".OUT" :: messageRow m) later
      (x.setText ".OUT" :: separator :: m.content.map blanked ++ m.trailing.toList)) :
    Yields (do
      let string ← synthesize .string (Row.printed (Item.textOf (Cell.items m.content)))
      pure (⟨separator.id :: Cell.ids m.content ++ string :: (m.trailing.map Cell.id).toList,
        (Cell.ids taken).length⟩ : Continuation)) d₁ fun c d' => ∃ taken' rest front rest' out,
      Worded (Row.message x.item (Cell.items (taken ++ later))) d d' s x
        (taken ++ later) c taken' rest front rest' out := by
  have hids : Cell.ids m.content = Cell.ids (m.content.map blanked) :=
    (Cell.Pared.blanked _).ids_eq.symm
  have hspace := kind_messageRow h.parts
  refine yields_synthesize_bind (yields_pure ?_)
  have hstring : Progress d _ s (x :: taken) later
      (x.setText ".OUT" :: messageRow m) later (x.setText ".OUT" :: (separator ::
        m.content.map blanked ++ Cell.made _ _ _ :: m.trailing.toList)) :=
    hd₁.insert (x.setText ".OUT" :: separator :: m.content.map blanked) .string (by decide)
      (Row.printed (Item.textOf (Cell.items m.content)))
  refine ⟨taken, later, _, later, _, h.worded hstring ?_ (by simp) ?_ ?_⟩
  · rw [ids_toList, hids]
    simp [Cell.made]
  · rw [message_items h.statement h.parts, if_neg hempty, ← hseparator]
    simp
  · intro c hc
    simp only [cons_append, mem_cons, mem_append] at hc
    rcases hc with rfl | hc | rfl | hc
    · exact hsolid
    · simp [hspace c (by simp only [messageRow, mem_append]; exact .inl (.inr hc))]
    · simp [Cell.made, Piece.made]
    · simp [hspace c (by simp only [messageRow, mem_append]; exact .inr hc)]

end MessageBlanked

theorem yields_retargetMessage (hx : x.piece.kind = .identifier)
    (h : Walking d s (x :: ahead)) :
    YieldsWord (retargetMessage x.id (Cell.ids ahead)) (Row.message x.item (Cell.items ahead)) d s x
      ahead := by
  have hkind : x.piece.kind ≠ .container := by simp [hx]
  obtain ⟨taken, later, rfl, htaken⟩ := statementCells_split ahead
  obtain ⟨t, ht, -⟩ := h.holds
  refine yields_token_bind ht ?_
  refine (yields_setText [] hkind _ h).bind fun _ d₁ hd₁ => ?_
  have hwalk : Walking d₁ s (x.setText ".OUT" :: (taken ++ later)) := hd₁.walking
  have hlooks := hwalk.looks
  refine (yields_statementRest fun c hc => hlooks c (by simp [hc])).bind ?_
  rintro _ _ ⟨rfl, rfl⟩
  rw [← statementCells, htaken]
  have hdrop : (Cell.ids (taken ++ later)).drop (Cell.ids taken).length = Cell.ids later := by
    simp
  -- The statement falls into its parts.
  obtain ⟨m, hm⟩ : ∃ m, Row.messageParts isGapCell taken
    (later.head?.any (·.piece.kind = .comment)) = m := ⟨_, rfl⟩
  have htake : m.separator.toList ++ m.content ++ m.trailing.toList = taken := by
    rw [← hm]
    exact Row.messageParts_append ..
  refine (yields_splitSeparator hm fun c hc => hlooks c (by simp [hc])).bind ?_
  rintro _ _ ⟨rfl, rfl⟩
  rw [hdrop]
  refine (yields_splitTrailing hm fun c hc =>
    hlooks c (mem_append_right _ (mem_cons_of_mem _ hc))).bind ?_
  rintro _ d₁ ⟨rfl, rfl⟩
  have hcontent : ∀ c ∈ m.content, c ∈ x.setText ".OUT" :: (taken ++ later) := by
    intro c hc
    simp [← htake, hc]
  have hrender := renderList_eq (fun c hc => hlooks c (by simp [hcontent c hc]))
    (fun c hc => hwalk.nested c (hcontent c hc)) fun c hc => by
      have hlt := Cell.length_places_inside_lt (hcontent c hc)
      have hle := hwalk.length_places_le
      omega
  refine yields_ask_bind hrender ?_
  rw [← htake] at hwalk
  have hparts : Walking d₁ s (x.setText ".OUT" :: m.separator.toList ++
      (m.content ++ (m.trailing.toList ++ later))) := by
    simpa using hwalk
  refine (yields_blankAll _ m.content hparts).bind fun _ d₂ hd₂ => ?_
  have hblanked : MessageBlanked m d d₂ s x taken later := by
    refine ⟨htaken, hm, hkind, hd₁.trans ?_, ?_⟩
    · rw [← htake]
      simpa [messageRow] using hd₂
    · rw [← htake]
      exact ((Cell.Pared.refl _).append (.blanked _)).append (.refl _)
  have hids : Cell.ids m.content = Cell.ids (m.content.map blanked) :=
    (Cell.Pared.blanked _).ids_eq.symm
  have hspace := kind_messageRow hm
  split
  · next hempty =>
    refine (yields_report hblanked.edited.walking ..).bind fun _ d₃ hd₃ => yields_pure ?_
    have hperm := perm_messageRow m
    have hreported : MessageBlanked m d d₃ s x taken later :=
      { hblanked with edited := hblanked.edited.trans hd₃ }
    refine ⟨taken, later, _, later, _, hreported.worded (hreported.progress.perm (hperm.cons _)) ?_
      (by simp) ?_ fun c hc => by simp [hspace c (hperm.mem_iff.mpr hc)]⟩
    · simp only [ids_toList, hids, ← Cell.ids_append]
      simp [messageGaps, Cell.ids]
    · rw [message_items htaken hm, if_pos hempty]
  · next hempty =>
    have hdone := hblanked.progress
    cases hseparator : m.separator with
    | some separator =>
      simp only [Option.map_some, pure_bind]
      refine hblanked.yields_string separator hempty (by simp [hseparator]) ?_ ?_
      · simp [hspace separator (by simp [messageRow, hseparator])]
      · simpa [messageRow, hseparator] using hdone
    | none =>
      simp only [Option.map_none]
      have hmade := hdone.insert [x.setText ".OUT"] .whitespace (by decide) [.char ' ']
      refine yields_synthesize_bind (hblanked.yields_string (Cell.made _ .whitespace [.char ' '])
        hempty ?_ ?_ ?_)
      · simp [hseparator]
      · simp [Cell.made, Piece.made]
      · simpa [messageRow, hseparator] using hmade

/-! ## Repetitions -/

theorem yields_brace (xs : List Cell) {y : Cell}
    (h : Walking d s (xs ++ y :: ys)) :
    Yields (brace y.id) d fun _ d' => ∃ y',
      Edited d d' s (xs ++ y :: ys) (xs ++ y' :: ys) ∧
      y'.item = Row.braced y.item := by
  obtain ⟨t, ht, hlooks⟩ := h.looks y (by simp)
  refine yields_token_bind ht ?_
  rw [hlooks.kind, hlooks.opening, hlooks.closing, Row.braced, value_item]
  split
  · refine yields_update (lt_size_of_getElem? ht) ⟨_, .change (Cell.rewrite_brackets y _ _) h, ?_⟩
    rw [Cell.item_setPiece]
  · exact yields_pure ⟨y, .refl h, rfl⟩

theorem braceFirst_items (cs : List Cell) :
    ((cs.dropWhile (·.piece.isBlank)).head? = none ∧
      Row.braceFirst (Cell.items cs) = Cell.items cs) ∨
    ∃ xs y ys, cs = xs ++ y :: ys ∧ (cs.dropWhile (·.piece.isBlank)).head? = some y ∧
      Row.braceFirst (Cell.items cs) = Cell.items xs ++ Row.braced y.item :: Cell.items ys := by
  induction cs with
  | nil => exact .inl ⟨rfl, rfl⟩
  | cons c cs ih =>
    rw [dropWhile_cons, items_cons, Row.braceFirst, value_item]
    cases hc : c.piece.isBlank with
    | false => exact .inr ⟨[], c, cs, rfl, rfl, rfl⟩
    | true =>
      simp only [if_true]
      rcases ih with ⟨hnone, hsame⟩ | ⟨xs, y, ys, rfl, hsome, hbrace⟩
      · exact .inl ⟨hnone, by rw [hsame]⟩
      · exact .inr ⟨c :: xs, y, ys, rfl, hsome, by rw [hbrace]; rfl⟩

theorem braceBody_items (owner : Option Nat) (cs : List Cell) :
    (sharing (·.isOperator ",") owner cs = none ∧
      Row.braceBody owner (Cell.items cs) = Cell.items cs) ∨
    ∃ xs y ys, cs = xs ++ y :: ys ∧
      sharing (·.isOperator ",") owner cs = some y ∧
      Row.braceBody owner (Cell.items cs) =
        Cell.items (xs ++ [y]) ++ Row.braceFirst (Cell.items ys) := by
  induction cs generalizing owner with
  | nil => exact .inl ⟨rfl, rfl⟩
  | cons c cs ih =>
    rw [sharing, items_cons, Row.braceBody, value_item]
    split
    · exact .inl ⟨rfl, rfl⟩
    · split
      · exact .inr ⟨[], c, cs, rfl, rfl, rfl⟩
      · rcases ih (owner.map (· + 1)) with ⟨hnone, hsame⟩ | ⟨xs, y, ys, rfl, hsome, hbrace⟩
        · exact .inl ⟨hnone, by rw [hsame]⟩
        · exact .inr ⟨c :: xs, y, ys, rfl, hsome, by rw [hbrace]; rfl⟩

theorem yields_retargetRepetition (h : Walking d s (x :: ahead)) :
    Yields (retargetRepetition x.id) d fun _ d' => ∃ ahead',
      Edited d d' s (x :: ahead) (x :: ahead') ∧
      Cell.items ahead' = Row.braceBody (x.piece.owner.map (· + 1)) (Cell.items ahead) := by
  have hfind : d.findInArguments x.id .operator (some ",") =
      .ok ((sharing (·.isOperator ",") (x.piece.owner.map (· + 1)) ahead).map Cell.id) := by
    obtain ⟨t, ht, hfits⟩ := h.holds
    have hmarks := hfits.marks rfl
    have howner : t.owner = (x.piece.owner.map (· + 1)).bind ((Cell.ids (x :: s.before))[·]?) := by
      rw [hmarks.owner]
      cases x.piece.owner <;> simp
    have hle := h.length_le
    rw [findInArguments, token_eq_ok_iff.mpr ht]
    simp only [bind, Except.bind, hfits.linked.next, howner]
    refine h.step.findBefore_eq (fun u p inside hlooks => hlooks.isOperator _) ?_ ?_
    · intro k hk
      obtain ⟨j, hj, rfl⟩ := Option.map_eq_some_iff.mp hk
      have hlt := hmarks.owner_lt j hj
      simpa using hlt
    · rw [length_cons] at hle
      rw [walkLimit]
      omega
  refine yields_ask_bind hfind ?_
  rcases braceBody_items (x.piece.owner.map (· + 1)) ahead with
    ⟨hnone, hsame⟩ | ⟨xs, comma, ys, rfl, hsome, hbrace⟩
  · rw [hnone]
    exact yields_pure ⟨ahead, .refl h, hsame.symm⟩
  · rw [hsome]
    refine yields_ask_bind (h.nextNonBlank (x :: xs)) ?_
    rcases braceFirst_items ys with ⟨hnone, hsame⟩ | ⟨us, y, vs, rfl, hsome, hfirst⟩
    · rw [hnone]
      exact yields_pure ⟨_, .refl h, by rw [hbrace, hsame]; simp⟩
    · rw [hsome]
      have hwalk : Walking d s ((x :: xs ++ comma :: us) ++ y :: vs) := by
        simpa using h
      refine (yields_brace _ hwalk).mono ?_
      rintro _ d' ⟨y', hd', hitem⟩
      refine ⟨xs ++ comma :: us ++ y' :: vs, by simpa using hd', ?_⟩
      rw [hbrace, hfirst]
      simp [hitem]

end Macro10.Retarget
