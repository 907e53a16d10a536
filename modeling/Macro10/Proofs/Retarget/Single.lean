import Macro10.Proofs.Document.Neighbours
import Macro10.Proofs.Row.Walk

/-!
# The rules for single tokens

What the rules for strings, literals and operators do in a document is what the functions on rows
say, and they never fail.
-/

namespace Macro10.Retarget

open List
open Cell (ids item_setText items pieces value_item)
open Edit Document

variable {d : Document} {s : Spot} {ahead : List Cell} {x : Cell}

/-! ## Steps at a cell -/

/-- A cell ahead gets another text. -/
theorem yields_setText (xs : List Cell) {ys : List Cell} (hx : x.piece.kind ≠ .container)
    (text : Text) (h : Walking d s (xs ++ x :: ys)) :
    Yields (setText x.id text) d fun _ d' =>
      Edited d d' s (xs ++ x :: ys) (xs ++ x.setText text :: ys) := by
  obtain ⟨t, ht, -⟩ := h.holds_ahead xs
  exact yields_update (lt_size_of_getElem? ht) (.change (Cell.rewrite_setText hx text) h)

/-- A cell ahead is blanked out. -/
theorem yields_blank (xs : List Cell) {ys : List Cell} (h : Walking d s (xs ++ x :: ys)) :
    Yields (blank x.id) d fun _ d' =>
      Edited d d' s (xs ++ x :: ys) (xs ++ x.blanked :: ys) := by
  obtain ⟨t, ht, -⟩ := h.holds_ahead xs
  exact yields_update (lt_size_of_getElem? ht) (.change (Cell.rewrite_blanked x) h)

theorem yields_report (h : Walking d s ahead) (problem : Problem)
    (position : Option Position) (length : Int) (severity : Severity) :
    Yields (report problem position length severity) d fun _ d' =>
      Edited d d' s ahead ahead :=
  ⟨(), _, rfl, .report h ..⟩

/-! ## Literals -/

/-- A string of one character becomes a character literal. -/
theorem yields_retargetString (hx : x.piece.kind = .string)
    (h : Walking d s (x :: ahead)) :
    Yields (retargetString x.id) d fun _ d' =>
      Edited d d' s (x :: ahead) (x.setText (quoteSingle x.piece.text) :: ahead) := by
  have hkind : x.piece.kind ≠ .container := by simp [hx]
  obtain ⟨t, ht, hfits⟩ := h.holds
  refine yields_token_bind ht ?_
  rw [hfits.looks.words hkind]
  split
  · exact yields_setText [] hkind _ h
  · rename_i hsame
    rw [not_not] at hsame
    refine yields_pure ?_
    rw [hsame, Cell.setText_self]
    exact .refl h

/-- Whether a token starts a statement can be read off the row. -/
theorem yields_startsStatement (hx : x.piece.isSpacing = false)
    (h : Walking d s (x :: ahead)) :
    Yields (startsStatement x.id) d fun b d' =>
      b = Row.startsStatement s.pieces ∧ d' = d := by
  refine yields_ask_bind (h.firstSolid hx) ?_
  refine yields_ask_bind h.prevSolid ?_
  have hlabel : d.isOperator ":"
      ((s.before.dropWhile (·.piece.isSpacing)).head?.map Cell.id) =
      .ok ((s.pieces.dropWhile Piece.isSpacing).head?.any (·.isOperator ":")) := by
    rw [Cell.dropWhile_pieces]
    exact h.isOperator_head? (fun _ hc => mem_append_left _ ((dropWhile_sublist _).subset hc)) _
  refine yields_ask_bind hlabel (yields_pure ⟨?_, rfl⟩)
  rw [Row.startsStatement, Cell.takeWhile_pieces]
  congr 1
  have hline := (takeWhile_sublist (p := fun c : Cell => !c.piece.isNewline) (l := s.before)).subset
  generalize s.before.takeWhile (!·.piece.isNewline) = line at hline ⊢
  cases hfirst : (line.reverse.dropWhile (·.piece.isSpacing)).head? with
  | none =>
    rw [head?_eq_none_iff, dropWhile_eq_nil_iff] at hfirst
    have hall : (pieces line).all Piece.isSpacing = true := by
      simpa [pieces] using hfirst
    simp [hall]
  | some y =>
    have hy : y ∈ line := by
      have hmem := (dropWhile_sublist _).subset (mem_of_head? hfirst)
      exact mem_reverse.mp hmem
    have hsolid : y.piece.isSpacing = false := by
      have hnot := head?_dropWhile_not (fun c : Cell => c.piece.isSpacing) line.reverse
      rw [hfirst] at hnot
      simpa using hnot
    have hne : y.id ≠ x.id := by
      have hids := (nodup_append.mp h.nodup_ids).2.2
      exact hids _ (mem_map_of_mem (hline hy)) _ (by simp)
    have hall : (pieces line).all Piece.isSpacing = false := by
      rw [all_eq_false]
      exact ⟨y.piece, mem_map_of_mem hy, by simp [hsolid]⟩
    simp [hall, hne]

theorem yields_inParentheses (h : Walking d s (x :: ahead)) :
    Yields (inParentheses x.id) d fun b d' => b = decide (s.opening = "(") ∧ d' = d := by
  obtain ⟨t, ht, hfits⟩ := h.holds
  refine yields_token_bind ht ?_
  rw [hfits.linked.parent]
  cases hparent : s.parent with
  | none => exact yields_pure ⟨by rw [h.top hparent]; rfl, rfl⟩
  | some i =>
    obtain ⟨t, ht, hopening⟩ := h.opened i hparent
    exact yields_token_bind ht (yields_pure ⟨by rw [hopening], rfl⟩)

/-- A literal that starts a statement is announced. -/
theorem yields_announceData (hx : x.piece.isSpacing = false)
    (h : Walking d s (x :: ahead)) :
    Yields (announceData x.id) d fun new d' => ∃ out, new = ids out ∧
      items out = Row.announcement s.opening s.pieces ∧
      Progress d d' s [] (x :: ahead) [] (x :: ahead) out := by
  have hnone := Progress.refl h
  refine (yields_startsStatement hx h).bind ?_
  rintro _ _ ⟨rfl, rfl⟩
  cases hstarts : Row.startsStatement s.pieces with
  | false => exact yields_pure ⟨[], rfl, by simp [Row.announcement, hstarts], hnone⟩
  | true =>
    simp only [Bool.not_true, Bool.false_eq_true, if_false]
    refine (yields_inParentheses h).bind ?_
    rintro _ _ ⟨rfl, rfl⟩
    by_cases hopen : s.opening = "("
    · rw [if_pos (decide_eq_true hopen)]
      exact yields_pure ⟨[], rfl, by simp [Row.announcement, hopen], hnone⟩
    · rw [if_neg (by simpa using hopen)]
      refine yields_synthesize_bind (yields_synthesize_bind (yields_pure ?_))
      refine ⟨[Cell.made _ .identifier dataDirective, Cell.made _ .whitespace [.char ' ']], rfl, ?_,
        (hnone.insert [] .identifier (by decide) _).insert [_] .whitespace (by decide) _⟩
      simp [Row.announcement, hstarts, hopen]

/-! ## Operators -/

/-- An assignment, with the colon after it. -/
theorem yields_retargetAssignment (hx : x.piece.kind = .operator)
    (h : Walking d s (x :: ahead)) :
    Yields (retargetAssignment x.id) d fun _ d' => ∃ ahead',
      Edited d d' s (x :: ahead) (x.setText " .SET " :: ahead') ∧
      items ahead' = match items ahead with
        | [] => []
        | y :: rest =>
          if y.value.isOperator ":" then Item.blanked y :: rest else y :: rest := by
  have hkind : x.piece.kind ≠ .container := by simp [hx]
  obtain ⟨t, ht, hfits⟩ := h.holds
  refine yields_token_bind ht ?_
  rw [hfits.linked.next]
  cases ahead with
  | nil => exact (yields_setText [] hkind _ h).mono fun _ d' hd' => ⟨[], hd', rfl⟩
  | cons y ahead =>
    obtain ⟨u, hu, hlooks⟩ := h.looks y (by simp)
    refine yields_ask_bind (isOperator_eq hu hlooks _) ?_
    simp only [Cell.items_cons, value_item]
    split
    · refine (yields_blank [x] h).bind fun _ d₁ hd₁ => ?_
      refine (yields_setText [] hkind _ hd₁.walking).mono fun _ d' hd' => ?_
      exact ⟨y.blanked :: ahead, hd₁.trans hd', by simp⟩
    · exact (yields_setText [] hkind _ h).mono fun _ d' hd' => ⟨_, hd', rfl⟩

theorem afterBlanks_items (cs : List Cell) :
    Row.afterBlanks (items cs) = (pieces (cs.dropWhile (·.piece.isBlank))).head? := by
  rw [Row.afterBlanks, Cell.map_value_items, Cell.dropWhile_pieces]

/-- A point before a sign. -/
theorem yields_retargetPoint (hx : x.piece.kind = .operator)
    (h : Walking d s (x :: ahead)) :
    Yields (retargetPoint x.id) d fun _ d' => ∃ x',
      Edited d d' s (x :: ahead) (x' :: ahead) ∧
      x'.item = if (Row.afterBlanks (items ahead)).any
          (fun p => p.isOperator "+" || p.isOperator "-") then
        Item.setText "*" x.item else x.item := by
  have hkind : x.piece.kind ≠ .container := by simp [hx]
  have hsub : ahead.dropWhile (·.piece.isBlank) ⊆ s.before ++ x :: ahead := fun c hc =>
    mem_append_right _ (mem_cons_of_mem _ ((dropWhile_sublist _).subset hc))
  refine yields_ask_bind (h.nextNonBlank []) ?_
  refine yields_ask_bind (h.isOperator_head? hsub _) ?_
  refine yields_ask_bind (h.isOperator_head? hsub _) ?_
  rw [afterBlanks_items]
  generalize (pieces (ahead.dropWhile (·.piece.isBlank))).head? = following
  have hsign : following.any (fun p => p.isOperator "+" ||
      p.isOperator "-") = (following.any (·.isOperator "+") ||
        following.any (·.isOperator "-")) := by
    cases following <;> rfl
  rw [hsign]
  split
  · exact (yields_setText [] hkind _ h).mono fun _ d' hd' => ⟨_, hd', item_setText _ _⟩
  · exact yields_pure ⟨x, .refl h, rfl⟩

/-- A percent sign before a name. -/
theorem yields_retargetPercent (h : Walking d s (x :: ahead)) :
    Yields (retargetPercent x.id) d fun _ d' => ∃ x',
      Edited d d' s (x :: ahead) (x' :: ahead) ∧
      x'.item = if (items ahead).head?.any (·.value.kind = .identifier) then
        Item.blanked x.item else x.item := by
  obtain ⟨t, ht, hfits⟩ := h.holds
  refine yields_token_bind ht ?_
  rw [hfits.linked.next]
  cases ahead with
  | nil => exact yields_pure ⟨x, .refl h, rfl⟩
  | cons y ahead =>
    obtain ⟨u, hu, hfits⟩ := h.holds_ahead [x]
    refine yields_token_bind hu ?_
    rw [hfits.looks.kind]
    simp only [Cell.items_cons, head?_cons, Option.any_some, value_item, decide_eq_true_eq]
    split
    · exact (yields_blank [] h).mono fun _ d' hd' => ⟨_, hd', Cell.item_blanked _⟩
    · exact yields_pure ⟨x, .refl h, rfl⟩

theorem yields_endsLine (h : Walking d s ahead) :
    Yields (endsLine s.parent) d fun b d' => b = s.opening.isEmpty ∧ d' = d := by
  cases hparent : s.parent with
  | none => exact yields_pure ⟨by rw [h.top hparent]; rfl, rfl⟩
  | some i =>
    obtain ⟨t, ht, hopening⟩ := h.opened i hparent
    exact yields_token_bind ht (yields_pure ⟨by rw [hopening], rfl⟩)

/-- A comma at the end of a line. -/
theorem yields_retargetComma (h : Walking d s (x :: ahead)) :
    Yields (retargetComma x.id) d fun _ d' => ∃ x',
      Edited d d' s (x :: ahead) (x' :: ahead) ∧
      x'.item = if Row.endsLine s.opening (items ahead) then Item.blanked x.item else x.item := by
  have hlast : ∀ dangling : Bool, dangling = Row.endsLine s.opening (items ahead) →
      Yields (if dangling = true then blank x.id else pure ()) d fun _ d' => ∃ x',
        Edited d d' s (x :: ahead) (x' :: ahead) ∧
        x'.item = if Row.endsLine s.opening (items ahead) then Item.blanked x.item
          else x.item := by
    rintro _ rfl
    split
    · exact (yields_blank [] h).mono fun _ d' hd' => ⟨_, hd', Cell.item_blanked _⟩
    · exact yields_pure ⟨x, .refl h, rfl⟩
  refine yields_ask_bind (h.nextNonBlank []) ?_
  cases hfirst : (ahead.dropWhile (·.piece.isBlank)) with
  | nil =>
    obtain ⟨t, ht, hfits⟩ := h.holds
    refine yields_token_bind ht ?_
    rw [hfits.linked.parent]
    refine (yields_endsLine h).bind ?_
    rintro _ _ ⟨rfl, rfl⟩
    exact hlast _ (by rw [Row.endsLine, afterBlanks_items, hfirst]; rfl)
  | cons y rest =>
    have hmem : y ∈ ahead := (dropWhile_sublist _).subset (hfirst ▸ mem_cons_self)
    obtain ⟨xs, ys, rfl⟩ := append_of_mem hmem
    obtain ⟨u, hu, hfits⟩ := h.holds_ahead (x :: xs)
    refine yields_token_bind hu ?_
    rw [pure_bind, hfits.looks.isNewline, hfits.looks.kind]
    exact hlast _ (by rw [Row.endsLine, afterBlanks_items, hfirst]; rfl)

/-- Operators are retargeted as in the row. -/
theorem yields_retargetOperator (hx : x.piece.kind = .operator)
    (h : Walking d s (x :: ahead)) :
    Yields (retargetOperator x.id) d fun _ d' => ∃ x' ahead',
      Edited d d' s (x :: ahead) (x' :: ahead') ∧
      x'.item = Row.operator s.opening x.item (items ahead) ∧
      items ahead' = Row.afterOperator x.item (items ahead) := by
  have hkind : x.piece.kind ≠ .container := by simp [hx]
  obtain ⟨t, ht, hfits⟩ := h.holds
  refine yields_token_bind ht ?_
  simp only [hfits.looks.text_eq hkind, Row.operator, Row.afterOperator, value_item]
  split
  · refine (yields_retargetAssignment hx h).mono ?_
    rintro _ d' ⟨ahead', hd', hitems⟩
    exact ⟨_, ahead', hd', item_setText _ _, hitems⟩
  split
  · exact (yields_setText [] hkind _ h).mono fun _ d' hd' =>
      ⟨_, ahead, hd', item_setText _ _, rfl⟩
  split
  · refine (yields_retargetPoint hx h).mono ?_
    rintro _ d' ⟨x', hd', hitem⟩
    exact ⟨x', ahead, hd', hitem, rfl⟩
  split
  · refine (yields_retargetPercent h).mono ?_
    rintro _ d' ⟨x', hd', hitem⟩
    exact ⟨x', ahead, hd', hitem, rfl⟩
  split
  · refine (yields_retargetComma h).mono ?_
    rintro _ d' ⟨x', hd', hitem⟩
    exact ⟨x', ahead, hd', hitem, rfl⟩
  · exact yields_pure ⟨x, ahead, .refl h, rfl, rfl⟩

end Macro10.Retarget
