import Macro10.Proofs.Row.Normal
import Macro10.Proofs.Row.Walk

/-!
# The lines of a row

The rules look no further than the end of the line, and no further back than its start, so a row of
whole lines can be retargeted in parts (`retarget_append`). For this no directive may have arguments
beyond its line (`InLine`), and no item an owner before the row (`Owned`); the rules keep both.
-/

namespace Macro10.Row

open List

variable {before before' : List Piece} {p : Piece} {xs : List Item} {n : Nat}

open Retarget (quoteSingle requote)

variable {ys : List Item} {x : Item}

/-! ## Nothing before the line counts -/

/-- The owners of the items are among them or the `n` pieces before them. -/
def Owned : Nat → List Item → Prop
  | _, [] => True
  | n, x :: rest => (∀ k, x.value.owner = some k → k < n) ∧ Owned (n + 1) rest

theorem Owned.congr (hmarks : ys.map marks = xs.map marks) (h : Owned n xs) : Owned n ys := by
  induction xs generalizing ys n with
  | nil =>
    obtain rfl := map_eq_nil_iff.mp hmarks
    trivial
  | cons x xs ih =>
    obtain ⟨y, ys, rfl, hy, hys⟩ := map_eq_cons_iff.mp hmarks
    have howner : y.value.owner = x.value.owner := congrArg Prod.fst hy
    exact ⟨howner ▸ h.1, ih hys h.2⟩

/-- Owners of what comes later. -/
theorem Owned.drop (h : Owned n xs) (k : Nat) : Owned ((xs.take k).length + n) (xs.drop k) := by
  induction k generalizing xs n with
  | zero => simpa using h
  | succ k ih =>
    cases xs with
    | nil => trivial
    | cons x xs =>
      have hrest := ih h.2
      rw [take_succ_cons, drop_succ_cons, length_cons]
      rwa [Nat.add_right_comm, Nat.add_assoc]

/-- The two lists of pieces agree on the nearest `n`, and as far as the start of the line. -/
structure SameLine (n : Nat) (before before' : List Piece) : Prop where
  near : ∀ k < n, before[k]? = before'[k]?
  starts : ∀ zs, startsStatement (zs ++ before) = startsStatement (zs ++ before')

/-- The same pieces may be put before both. -/
theorem SameLine.append (h : SameLine n before before')
    (zs : List Piece) : SameLine (zs.length + n) (zs ++ before) (zs ++ before') where
  near := by
    intro k hk
    rcases Nat.lt_or_ge k zs.length with hlt | hge
    · rw [getElem?_append_left hlt, getElem?_append_left hlt]
    · rw [getElem?_append_right hge, getElem?_append_right hge]
      exact h.near _ (by omega)
  starts := fun ys => by simpa using h.starts (ys ++ zs)

theorem SameLine.cons (h : SameLine n before before') (p : Piece) :
    SameLine (n + 1) (p :: before) (p :: before') := by
  rw [Nat.add_comm]
  exact h.append [p]

theorem takeWhile_append_of_isNewline (h : p.isNewline = true) (zs ps : List Piece) :
    (zs ++ p :: ps).takeWhile (fun q => !q.isNewline) = zs.takeWhile fun q => !q.isNewline := by
  induction zs with
  | nil => simp [h]
  | cons z zs ih => simp [takeWhile_cons, ih]

/-- After a line terminator, nothing before it counts. -/
theorem sameLine_of_isNewline (h : p.isNewline = true) (ps : List Piece) :
    SameLine 0 (p :: ps) [] where
  near := fun k hk => absurd hk (Nat.not_lt_zero k)
  starts := by
    intro zs
    unfold startsStatement
    rw [takeWhile_append_of_isNewline h, append_nil]
    cases hall : (zs.takeWhile fun q => !q.isNewline).all Piece.isSpacing with
    | true => rfl
    | false =>
      -- The line is not empty, so the last of its pieces that is no white space is on it.
      obtain ⟨z, hz, hspacing⟩ := all_eq_false.mp hall
      have hmem : z ∈ zs := (List.takeWhile_prefix _).subset hz
      obtain ⟨y, ys, hys⟩ : ∃ y ys, zs.dropWhile Piece.isSpacing = y :: ys := by
        cases hdrop : zs.dropWhile Piece.isSpacing with
        | nil => exact absurd (dropWhile_eq_nil_iff.mp hdrop z hmem) hspacing
        | cons y ys => exact ⟨y, ys, rfl⟩
      rw [dropWhile_append, hys]
      rfl

section Congruence

variable (h : SameLine n before before')
include h

/-- How a group is written depends on its line only. -/
theorem roleAfter_congr (hp : ∀ k, p.owner = some k → k < n) :
    roleAfter before p = roleAfter before' p := by
  unfold roleAfter
  split
  · rfl
  · next k howner => rw [h.near k (hp k howner)]

/-- What is written depends on the line only. -/
theorem written_congr (hx : ∀ k, x.value.owner = some k → k < n) (respell : Text → Text)
    (opening : Text) (ahead : List Item) :
    written respell opening before x ahead = written respell opening before' x ahead := by
  unfold written enter entered
  rw [roleAfter_congr h hx]

omit h in
theorem owned_after {rest : List Item} (hrest : Owned n rest) : Owned n (after x rest) :=
  hrest.congr (map_marks_of_map_frame (reworked_after x rest).map_frame_eq)

omit h in
theorem map_frame_blankLeading (ahead : List Item) :
    (blankLeading (statement ahead) ++ ahead.drop (statement ahead).length).map frame =
      ahead.map frame := by
  rw [map_append, (reworked_blankLeading _).map_frame_eq, ← map_append, statement_append_drop]

/-- An operand depends on its line only. -/
theorem operand_congr (hxs : Owned n xs) (opening : Text) (count : Nat) :
    operand opening before count xs = operand opening before' count xs := by
  induction count generalizing n before before' xs with
  | zero => rfl
  | succ count ih =>
    cases xs with
    | nil => rfl
    | cons x rest =>
      simp only [operand]
      rw [written_congr h hxs.1, ih (h.cons _) (owned_after hxs.2)]

/-- An expression depends on its line only. -/
theorem expression_congr (hxs : Owned n xs) (opening : Text) (body : Option Nat) :
    expression opening before body xs = expression opening before' body xs := by
  fun_induction expression opening before body xs generalizing n before' with
  | case1 => rw [expression]
  | case2 before body x rest hstop => rw [expression, if_pos hstop]
  | case3 before body x rest hstop hcomma => rw [expression, if_neg hstop, if_pos hcomma]
  | case4 before body x rest hstop hcomma y =>
    rename_i e ih
    have hy : written quoteSingle opening before' x rest = y := (written_congr h hxs.1 ..).symm
    have he := ih (h.cons y.value) (owned_after hxs.2)
    rw [expression, if_neg hstop, if_neg hcomma, hy]
    simp only
    rw [← he]

/-- A word depends on its line only. -/
theorem word_congr {ahead : List Item} (hahead : Owned (n + 1) ahead) (opening : Text) :
    word opening before x ahead = word opening before' x ahead := by
  have hline : Owned (n + 1) (blankLeading (statement ahead) ++
      ahead.drop (statement ahead).length) :=
    hahead.congr (map_marks_of_map_frame (map_frame_blankLeading ahead))
  have himmediate : immediate opening before x ahead = immediate opening before' x ahead := by
    simp only [immediate]
    rw [operand_congr (h.cons _) hline]
  have hcondition : ∀ comparison, condition opening comparison before x ahead =
      condition opening comparison before' x ahead := by
    intro comparison
    simp only [condition]
    rw [expression_congr (h.cons _) hahead]
  simp only [word, himmediate, hcondition]

/-- A row is retargeted in the same way after pieces that agree as far as its line and its owners
reach. -/
theorem retargetRow_congr (hxs : Owned n xs) (opening : Text) :
    retargetRow opening before xs = retargetRow opening before' xs := by
  fun_induction retargetRow opening before xs generalizing n before' with
  | case1 => rw [retargetRow]
  | case2 before x ahead hkind r =>
    rename_i ih
    have hr : r = word opening before' x ahead := word_congr h hxs.2 opening
    have hbefore := (h.cons r.self.value).append ((r.ahead.take r.taken).map Nest.value).reverse
    have hahead : Owned (n + 1) r.ahead :=
      hxs.2.congr (map_marks_word opening before x ahead)
    rw [retargetRow, if_pos hkind, ← hr]
    simp only
    rw [← ih hbefore (by simpa using hahead.drop r.taken)]
  | case3 before x ahead hkind y =>
    rename_i ih
    have hstarts : announcement opening before = announcement opening before' := by
      have hsame := h.starts []
      rw [nil_append, nil_append] at hsame
      rw [announcement, announcement, hsame]
    have hy : written quoteSingle opening before' x ahead = y := (written_congr h hxs.1 ..).symm
    have hrest := ih (h.cons y.value) (owned_after hxs.2)
    rw [retargetRow, if_neg hkind, ← hstarts, hy]
    simp only
    rw [← hrest]

end Congruence

/-! ## Nothing after the line counts -/

/-- Some item ends a line. -/
def HasEnd (xs : List Item) : Prop := ∃ x ∈ xs, x.value.isNewline = true

theorem not_hasEnd_nil : ¬HasEnd [] := by simp [HasEnd]

/-- A line that goes on still has its end ahead. -/
theorem HasEnd.tail (h : HasEnd (x :: xs)) (hline : x.value.isNewline = false) : HasEnd xs := by
  obtain ⟨y, hy, hend⟩ := h
  rcases mem_cons.mp hy with rfl | hy
  · exact absurd hend (by simp [hline])
  · exact ⟨y, hy, hend⟩

theorem HasEnd.congr (hframe : ys.map frame = xs.map frame) (h : HasEnd xs) : HasEnd ys := by
  obtain ⟨x, hx, hline⟩ := h
  have hmem : frame x ∈ ys.map frame := hframe ▸ mem_map_of_mem hx
  obtain ⟨y, hy, heq⟩ := mem_map.mp hmem
  exact ⟨y, hy, (congrArg Prod.snd heq).trans hline⟩

theorem HasEnd.lineLength_lt (h : HasEnd xs) : lineLength xs < xs.length := by
  induction xs with
  | nil => exact absurd h not_hasEnd_nil
  | cons x xs ih =>
    unfold lineLength
    rw [takeWhile_cons]
    cases hline : x.value.isNewline with
    | true => simp
    | false =>
      have hlt := ih (h.tail hline)
      unfold lineLength at hlt
      simpa using hlt

theorem lineLength_congr (hframe : ys.map frame = xs.map frame) :
    lineLength ys = lineLength xs := by
  have hline : ∀ zs : List Item, lineLength zs =
      ((zs.map frame).takeWhile fun f => !f.2).length := by
    intro zs
    rw [takeWhile_map, length_map]
    rfl
  rw [hline, hline, hframe]

/-- One more item on the line. -/
theorem lineLength_cons (h : x.value.isNewline = false) (xs : List Item) :
    lineLength (x :: xs) = lineLength xs + 1 := by
  simp [lineLength, h]

theorem lineLength_cons_pos (h : n + 1 ≤ lineLength (x :: xs)) :
    x.value.isNewline = false ∧ n ≤ lineLength xs := by
  unfold lineLength at h ⊢
  rw [takeWhile_cons] at h
  cases hline : x.value.isNewline with
  | true => simp [hline] at h
  | false => exact ⟨rfl, by simpa [hline] using h⟩

section Locality

variable (h : HasEnd xs) (later : List Item)
include h

/-- The next token is no later than the end of the line. -/
theorem afterBlanks_append : afterBlanks (xs ++ later) = afterBlanks xs := by
  induction xs with
  | nil => exact absurd h not_hasEnd_nil
  | cons x xs ih =>
    unfold afterBlanks at ih ⊢
    rw [cons_append, map_cons, map_cons, dropWhile_cons, dropWhile_cons]
    split
    · next hblank =>
      exact ih (h.tail (Piece.isNewline_of_isBlank hblank))
    · rfl

theorem head?_append_of_hasEnd : (xs ++ later).head? = xs.head? := by
  cases xs with
  | nil => exact absurd h not_hasEnd_nil
  | cons y ys => rfl

/-- An operator looks at its line only. -/
theorem operator_append (opening : Text) (x : Item) :
    operator opening x (xs ++ later) = operator opening x xs := by
  unfold operator endsLine
  rw [afterBlanks_append h, head?_append_of_hasEnd h]

theorem afterOperator_append (x : Item) :
    afterOperator x (xs ++ later) = afterOperator x xs ++ later := by
  unfold afterOperator
  split
  · cases xs with
    | nil => exact absurd h not_hasEnd_nil
    | cons z zs =>
      simp only [cons_append]
      split <;> rfl
  · rfl

/-- Every token looks at its line only. -/
theorem written_append (respell : Text → Text) (opening : Text) (before : List Piece) (x : Item) :
    written respell opening before x (xs ++ later) = written respell opening before x xs := by
  unfold written
  rw [operator_append h]

theorem after_append (x : Item) : after x (xs ++ later) = after x xs ++ later := by
  unfold after
  split
  · exact afterOperator_append h later x
  · rfl

/-- A statement ends with its line. -/
theorem statement_append : statement (xs ++ later) = statement xs := by
  induction xs with
  | nil => exact absurd h not_hasEnd_nil
  | cons x xs ih =>
    unfold statement at ih ⊢
    rw [cons_append, takeWhile_cons, takeWhile_cons]
    cases hline : x.value.isNewline with
    | true => simp
    | false => rw [ih (h.tail hline)]

/-- What is after the line is no operand. -/
theorem operand_append (hn : n ≤ lineLength xs) (opening : Text) (before : List Piece) :
    operand opening before n (xs ++ later) = operand opening before n xs ++ later := by
  induction n generalizing xs before with
  | zero => rfl
  | succ n ih =>
    cases xs with
    | nil => cases hn
    | cons x xs =>
      obtain ⟨hline, hn'⟩ := lineLength_cons_pos hn
      have hxs : HasEnd xs := h.tail hline
      have hframe := (reworked_after x xs).map_frame_eq
      simp only [cons_append, operand]
      rw [written_append hxs, after_append hxs,
        ih (hxs.congr hframe) (by rwa [lineLength_congr hframe])]

/-- An expression ends with its line. -/
theorem expression_append (opening : Text) (before : List Piece) (body : Option Nat) :
    expression opening before body (xs ++ later) =
      { expression opening before body xs with
        rest := (expression opening before body xs).rest ++ later } := by
  fun_induction expression opening before body xs with
  | case1 => exact absurd h not_hasEnd_nil
  | case2 before body x rest hstop => rw [cons_append, expression, if_pos hstop]
  | case3 before body x rest hstop hcomma =>
    rw [cons_append, expression, if_neg hstop, if_pos hcomma]
  | case4 before body x rest hstop hcomma y e ih =>
    have hline : x.value.isNewline = false := by
      simp only [Bool.or_eq_true, not_or, Bool.not_eq_true] at hstop
      exact hstop.1.2
    have hrest : HasEnd rest := h.tail hline
    have he := ih (hrest.congr (reworked_after x rest).map_frame_eq)
    rw [cons_append, expression, if_neg hstop, if_neg hcomma, written_append hrest,
      after_append hrest]
    simp only
    rw [he]

theorem braceFirst_append : braceFirst (xs ++ later) = braceFirst xs ++ later := by
  induction xs with
  | nil => exact absurd h not_hasEnd_nil
  | cons x xs ih =>
    simp only [cons_append, braceFirst]
    split
    · next hblank =>
      rw [ih (h.tail (Piece.isNewline_of_isBlank hblank)), cons_append]
    · rfl

/-- A body is on the line of its directive. -/
theorem braceBody_append (owner : Option Nat) :
    braceBody owner (xs ++ later) = braceBody owner xs ++ later := by
  induction xs generalizing owner with
  | nil => exact absurd h not_hasEnd_nil
  | cons x xs ih =>
    simp only [cons_append, braceBody]
    split
    · rfl
    · next hstop =>
      have hline : x.value.isNewline = false := by
        simp only [Bool.or_eq_true, not_or, Bool.not_eq_true] at hstop
        exact hstop.1
      have hxs : HasEnd xs := h.tail hline
      split
      · rw [braceFirst_append hxs, cons_append]
      · rw [ih hxs, cons_append]

omit h in
/-- A statement is no longer than its line. -/
theorem length_statement_le (xs : List Item) : (statement xs).length ≤ lineLength xs := by
  induction xs with
  | nil => exact le_rfl
  | cons x xs ih =>
    unfold statement lineLength at ih ⊢
    rw [takeWhile_cons, takeWhile_cons]
    cases hline : x.value.isNewline with
    | true => simp
    | false =>
      split
      · simpa using ih
      · simp

theorem drop_append_of_hasEnd (hn : n ≤ lineLength xs) :
    (xs ++ later).drop n = xs.drop n ++ later :=
  drop_append_of_le_length (Nat.le_trans hn (Nat.le_of_lt h.lineLength_lt))

theorem take_append_of_hasEnd (hn : n ≤ lineLength xs) : (xs ++ later).take n = xs.take n :=
  take_append_of_le_length (Nat.le_trans hn (Nat.le_of_lt h.lineLength_lt))

/-- An immediate instruction takes nothing from the next line. -/
theorem immediate_append (opening : Text) (before : List Piece) (x : Item) :
    immediate opening before x (xs ++ later) =
      { immediate opening before x xs with
        ahead := (immediate opening before x xs).ahead ++ later } := by
  have hle := length_statement_le xs
  have hframe := map_frame_blankLeading xs
  simp only [immediate]
  rw [statement_append h, drop_append_of_hasEnd h later hle]
  split
  · rfl
  · rw [← append_assoc, operand_append (h.congr hframe) later
      (by rwa [lineLength_congr hframe])]
    have hoperand := (spelled_operand opening
      ((Item.setText x.value.text.dropLast x).value :: before)
      (statement xs).length _).reworked.map_frame_eq.trans hframe
    rw [take_append_of_hasEnd (h.congr hoperand) later (by rwa [lineLength_congr hoperand])]

theorem HasEnd.drop (hn : n ≤ lineLength xs) : HasEnd (xs.drop n) := by
  induction n generalizing xs with
  | zero => exact h
  | succ n ih =>
    cases xs with
    | nil => cases hn
    | cons x xs =>
      obtain ⟨hline, hn'⟩ := lineLength_cons_pos hn
      exact ih (h.tail hline) hn'

/-- A message takes nothing from the next line. -/
theorem message_append (x : Item) :
    message x (xs ++ later) = { message x xs with ahead := (message x xs).ahead ++ later } := by
  have hle := length_statement_le xs
  simp only [message]
  rw [statement_append h, drop_append_of_hasEnd h later hle,
    head?_append_of_hasEnd (h.drop hle), ← append_assoc]

/-- A condition takes nothing from the next line. -/
theorem condition_append (opening comparison : Text) (before : List Piece) (x : Item) :
    condition opening comparison before x (xs ++ later) =
      { condition opening comparison before x xs with
        ahead := (condition opening comparison before x xs).ahead ++ later } := by
  simp only [condition]
  rw [expression_append h]
  simp only [append_assoc]

section

variable (hx : leading x.value ≤ lineLength xs)
include hx

theorem pass_append (text : Text) :
    pass text x (xs ++ later) =
      { pass text x xs with ahead := (pass text x xs).ahead ++ later } := by
  simp only [pass]
  rw [take_append_of_hasEnd h later hx, drop_append_of_hasEnd h later hx]
  split
  · rfl
  · simp only [append_assoc]

/-- A definition takes nothing from the next line. -/
theorem definition_append :
    definition x (xs ++ later) =
      { definition x xs with ahead := (definition x xs).ahead ++ later } := by
  simp only [definition]
  rw [take_append_of_hasEnd h later hx, drop_append_of_hasEnd h later hx, ← append_assoc]

/-- A word whose arguments are on its line does not look beyond the line. -/
theorem word_append (opening : Text) (before : List Piece) :
    word opening before x (xs ++ later) =
      { word opening before x xs with ahead := (word opening before x xs).ahead ++ later } := by
  unfold word
  simp only
  split
  · rw [braceBody_append h]
  split
  · rfl
  split
  · exact immediate_append h later opening before x
  split
  · exact message_append h later x
  split
  · exact condition_append h later ..
  · exact condition_append h later ..
  · exact pass_append h later hx _
  · exact pass_append h later hx _
  · exact definition_append h later hx
  · rfl

end

end Locality

theorem length_items_expression_le (opening : Text) (before : List Piece) (body : Option Nat)
    (xs : List Item) : (expression opening before body xs).items.length ≤ lineLength xs := by
  fun_induction expression opening before body xs with
  | case1 | case2 => exact Nat.zero_le _
  | case3 before body x rest _ hcomma =>
    have hline : x.value.isNewline = false :=
      Piece.isNewline_eq_false (by rw [Piece.kind_of_isOperator hcomma]; decide)
    rw [lineLength_cons hline]
    exact Nat.succ_le_succ (Nat.zero_le _)
  | case4 before body x rest hstop hcomma y e ih =>
    have hline : x.value.isNewline = false := by
      simp only [Bool.or_eq_true, not_or, Bool.not_eq_true] at hstop
      exact hstop.1.2
    rw [lineLength_cons hline, ← lineLength_congr (reworked_after x rest).map_frame_eq]
    exact Nat.succ_le_succ ih

theorem taken_pass (text : Text) (x : Item) (ahead : List Item) :
    (pass text x ahead).taken = 0 := by
  unfold pass
  dsimp only
  split <;> rfl

theorem taken_immediate (opening : Text) (before : List Piece) (x : Item) (ahead : List Item) :
    (immediate opening before x ahead).taken = (statement ahead).length := by
  unfold immediate
  dsimp only
  split <;> rfl

/-- A word deals with no items beyond its line. -/
theorem taken_word_le (opening : Text) (before : List Piece) (x : Item) (xs : List Item) :
    (word opening before x xs).taken ≤ lineLength xs := by
  unfold word
  simp only
  split
  · exact Nat.zero_le _
  split
  · exact Nat.zero_le _
  split
  · rw [taken_immediate]
    exact length_statement_le xs
  split
  · exact length_statement_le xs
  split
  · exact length_items_expression_le ..
  · exact length_items_expression_le ..
  · rw [taken_pass]
    exact Nat.zero_le _
  · rw [taken_pass]
    exact Nat.zero_le _
  · exact Nat.zero_le _
  · exact Nat.zero_le _

/-! ## Rows in parts -/

/-- The items end with the end of a line. -/
def Ended (xs : List Item) : Prop := ∃ x, xs.getLast? = some x ∧ x.value.isNewline = true

theorem Ended.hasEnd (h : Ended xs) : HasEnd xs := by
  obtain ⟨x, hx, hline⟩ := h
  exact ⟨x, mem_of_getLast? hx, hline⟩

theorem Ended.congr (hframe : ys.map frame = xs.map frame) (h : Ended xs) : Ended ys := by
  obtain ⟨x, hx, hline⟩ := h
  have hlast : (ys.map frame).getLast? = some (frame x) := by
    rw [hframe, getLast?_map, hx]
    rfl
  rw [getLast?_map] at hlast
  obtain ⟨y, hy, heq⟩ := Option.map_eq_some_iff.mp hlast
  exact ⟨y, hy, (congrArg Prod.snd heq).trans hline⟩

/-- What is left of whole lines is whole lines. -/
theorem Ended.drop (h : Ended xs) (hn : n < xs.length) : Ended (xs.drop n) := by
  obtain ⟨x, hx, hline⟩ := h
  exact ⟨x, by rw [getLast?_drop, if_neg (not_le.mpr hn), hx], hline⟩

theorem Ended.tail (h : Ended (x :: xs)) (hne : xs ≠ []) : Ended xs := by
  obtain ⟨y, hy, hline⟩ := h
  obtain ⟨z, zs, rfl⟩ := exists_cons_of_ne_nil hne
  exact ⟨y, by rwa [getLast?_cons_cons] at hy, hline⟩

theorem leading_congr {y : Item} (h : marks y = marks x) : leading y.value = leading x.value := by
  simp only [marks, Prod.mk.injEq] at h
  rw [leading, leading, h.2.1, h.2.2]

/-- No directive has arguments beyond its line. -/
def InLine : List Item → Prop
  | [] => True
  | x :: rest => leading x.value ≤ lineLength rest ∧ InLine rest

/-- A directive whose body is the first group after it has no other group among its arguments. -/
def Clear : List Item → Prop
  | [] => True
  | x :: rest =>
    (∀ head, x.value.head? = some head → head.bodyAfterComma = false →
      ∀ y ∈ rest.take (leading x.value), y.value.kind ≠ .container) ∧ Clear rest

theorem InLine.congr (hframe : ys.map frame = xs.map frame) (h : InLine xs) : InLine ys := by
  induction xs generalizing ys with
  | nil =>
    obtain rfl := map_eq_nil_iff.mp hframe
    trivial
  | cons x xs ih =>
    obtain ⟨y, ys, rfl, hy, hys⟩ := map_eq_cons_iff.mp hframe
    have hleading := leading_congr (x := x) (y := y) (congrArg Prod.fst hy)
    exact ⟨by rw [hleading, lineLength_congr hys]; exact h.1, ih hys h.2⟩

/-- Arguments stay on their line. -/
theorem InLine.drop (h : InLine xs) (n : Nat) : InLine (xs.drop n) := by
  induction n generalizing xs with
  | zero => exact h
  | succ n ih =>
    cases xs with
    | nil => trivial
    | cons x xs => exact ih h.2

/-- The walk over whole lines, and what it has just passed when it goes on after them. -/
theorem exists_retargetRow_append (hxs : Ended xs) (hin : InLine xs) (opening : Text)
    (before : List Piece) (ys : List Item) :
    ∃ p ps, p.isNewline = true ∧ retargetRow opening before (xs ++ ys) =
      retargetRow opening before xs ++ retargetRow opening (p :: ps) ys := by
  fun_induction retargetRow opening before xs with
  | case1 =>
    obtain ⟨x, hx, -⟩ := hxs
    cases hx
  | case2 before x ahead hkind r ih =>
    have hahead : Ended ahead := by
      refine hxs.tail ?_
      rintro rfl
      obtain ⟨y, hy, hline⟩ := hxs
      obtain rfl : x = y := by simpa using hy
      rw [Piece.isNewline_eq_false (by simp [hkind])] at hline
      cases hline
    have hframe : r.ahead.map frame = ahead.map frame := map_frame_word hin.1 opening before
    have htaken : r.taken ≤ lineLength r.ahead := by
      rw [lineLength_congr hframe]
      exact taken_word_le opening before x ahead
    have hr : Ended r.ahead := hahead.congr hframe
    obtain ⟨p, ps, hp, hrest⟩ :=
      ih (hr.drop (htaken.trans_lt hr.hasEnd.lineLength_lt)) ((hin.2.congr hframe).drop _)
    refine ⟨p, ps, hp, ?_⟩
    rw [cons_append, retargetRow, if_pos hkind, word_append hahead.hasEnd ys hin.1]
    simp only
    rw [take_append_of_hasEnd hr.hasEnd ys htaken, drop_append_of_hasEnd hr.hasEnd ys htaken, hrest,
      append_assoc]
  | case3 before x ahead hkind y ih =>
    rw [cons_append, retargetRow, if_neg hkind]
    by_cases hne : ahead = []
    · subst hne
      obtain ⟨z, hz, hline⟩ := hxs
      obtain rfl : x = z := by simpa using hz
      have hspace : x.value.kind = .whitespace := Piece.kind_of_isNewline hline
      refine ⟨x.value, before, hline, ?_⟩
      simp [y, written, after, isLiteral, hspace, retargetRow]
    · have hahead := hxs.tail hne
      have hframe := (reworked_after x ahead).map_frame_eq
      obtain ⟨p, ps, hp, hrest⟩ := ih (hahead.congr hframe) (hin.2.congr hframe)
      refine ⟨p, ps, hp, ?_⟩
      rw [written_append hahead.hasEnd, after_append hahead.hasEnd]
      simp only
      rw [hrest, append_assoc, cons_append]

/-- **A row that starts with whole lines can be retargeted in parts.** -/
theorem retarget_append (hxs : xs = [] ∨ Ended xs) (hin : InLine xs) (hys : Owned 0 ys)
    (newline opening : Text) :
    retarget newline opening (xs ++ ys) =
      retarget newline opening xs ++ retarget newline opening ys := by
  rw [retarget_eq, retarget_eq, retarget_eq, ← map_append]
  rcases hxs with rfl | hxs
  · rw [retargetRow]
    rfl
  · obtain ⟨p, ps, hp, hrow⟩ := exists_retargetRow_append hxs hin opening [] ys
    rw [hrow, retargetRow_congr (sameLine_of_isNewline hp ps) hys]

end Macro10.Row
