import Macro10.Proofs.Row.Fenced
import Macro10.Proofs.Row.Foretold

/-!
# Blocks in a row

A directive that the walk comes to opens a block, and the walk comes to every directive but those
that a word before them on their line takes: a message, an immediate instruction, a condition before
its comma, or a directive on the pass (`Overtakes`). Such a directive opens nothing
(`opens_or_overtaken`).
-/

namespace Macro10.Row

open List

variable {before : List Piece} {xs ahead ys out : List Item} {x y : Item}
  {n l j i m : Nat} {r : Outcome} {head : Head} {opening : Text}

open Retarget (closingKeyword? quoteSingle)

/-! ## Directives that have not opened a block -/

/-- A token that has not opened a block: a directive, or what is left of one. -/
inductive Pending (y : Item) : Prop
  | directive {head : Head} (hhead : y.value.head? = some head)
  | blank (hkind : y.value.kind = .whitespace) (hclosing : closingKeyword? y.value.upper = none)

namespace Pending

variable (h : Pending y)
include h

theorem kind : y.value.kind = .identifier ∨ y.value.kind = .whitespace := by
  cases h with
  | directive hhead => exact .inl (Piece.kind_of_head? hhead)
  | blank hkind => exact .inr hkind

theorem closing_eq_none : closingKeyword? y.value.upper = none := by
  cases h with
  | @directive head hhead =>
    rw [Head.keyword_of_ofWord? (Piece.ofWord?_of_head? hhead)]
    cases head <;> decide
  | blank _ hclosing => exact hclosing

theorem aged {y' : Item} (haged : Aged y y') : Pending y' := by
  have hblank (hspace : y'.value.kind = .whitespace) : Pending y' :=
    .blank hspace (haged.closing h.kind h.closing_eq_none)
  cases h with
  | @directive head hhead =>
    rcases haged.kind with hkind | ⟨-, hspace⟩
    · have hword := hkind.trans (Piece.kind_of_head? hhead)
      have hhead' : y'.value.head? = some head := by
        rw [Piece.head?, if_pos hword, ← (haged.upper_eq hword).2]
        exact Piece.ofWord?_of_head? hhead
      exact .directive hhead'
    · exact hblank hspace
  | blank hkind =>
    rcases haged.kind with heq | ⟨-, hspace⟩
    · exact hblank (heq.trans hkind)
    · exact hblank hspace

end Pending

/-! ## Directives that are overtaken -/

/-- The word `k` at `j` leaves nothing of the items up to `i` to the walk. -/
inductive Seizes (xs : List Item) (j i : Nat) (k : Item) : Prop
  | immediate (hkey : Keyword.immediates.elem k.value.upper = true)
  | message (hkey : k.value.upper = Keyword.message)
  /-- A condition has its expression up to a comma. -/
  | condition {head : Head} (hhead : k.value.head? = some head)
      (hafter : head.bodyAfterComma = true)
      (free : ∀ {l : Nat} {y : Item}, j < l → l < i → xs[l]? = some y → isComma y = false)
  /-- A directive on the pass has its arguments. -/
  | pass {head : Head} (hhead : k.value.head? = some head) (hpass : head.isPass = true)
      (hle : i ≤ j + leading k.value)

/-- The word `k` at `j` takes the item at `i`, which is on its line. -/
structure Overtakes (xs : List Item) (j i : Nat) (k : Item) : Prop where
  word : xs[j]? = some k
  kind : k.value.kind = .identifier
  lt : j < i
  line : ∀ {l : Nat} {y : Item}, j < l → l < i → xs[l]? = some y → y.value.isNewline = false
  seizes : Seizes xs j i k

/-- No comma turns up later: what changes before the walk comes to it lies before the next
directive. -/
theorem isComma_of_leaves {k : Item} (hleaves : Leaves x ahead n ys)
    (hfenced : Fenced (x :: ahead)) (hk : ahead[n + j]? = some k) (hhead : k.value.head? ≠ none)
    (hjm : j < m) (hy : ahead[n + m]? = some y)
    (hfree : ∀ {y'}, ys[m]? = some y' → isComma y' = false) : isComma y = false := by
  have hbefore : ¬n + m < leading x.value := by
    intro hlt
    have hle := leading_le x.value
    cases hparts : x.value.parts with
    | none =>
      rw [hparts, Option.getD_none] at hle
      omega
    | some p =>
      rw [hparts, Option.getD_some] at hle
      exact hhead (hfenced.fence hparts (by omega) hk)
  obtain ⟨y', hy', halters, -⟩ := hleaves.get hy
  cases halters with
  | same => exact hfree hy'
  | colon hcolon => exact Piece.isOperator_of_ne hcolon (by decide)
  | braced hgroup => exact Piece.isOperator_of_kind_ne (by simp [hgroup]) _
  | erased _ _ hlt => exact absurd hlt hbefore
  | respaced _ hlt => exact absurd hlt hbefore

/-- What is overtaken after a step was overtaken before it. -/
theorem Overtakes.of_leaves {k' : Item} (h : Overtakes ys j i k')
    (hleaves : Leaves x ahead n ys) (hfenced : Fenced (x :: ahead)) :
    ∃ k, Overtakes (x :: ahead) (n + j + 1) (n + i + 1) k ∧ Aged k k' := by
  obtain ⟨k, hk, -, haged⟩ := hleaves.get_back h.word
  obtain ⟨hkind, hupper⟩ := haged.upper_eq h.kind
  have hlt := h.lt
  refine ⟨k, ⟨hk, hkind, by omega, ?_, ?_⟩, haged⟩
  · intro l y hjl hli hy
    obtain ⟨m, rfl⟩ : ∃ m, l = n + m + 1 := ⟨l - n - 1, by omega⟩
    obtain ⟨y', hy', -, haged'⟩ := hleaves.get (l := m) hy
    rw [← haged'.isNewline_eq]
    exact h.line (by omega) (by omega) hy'
  · cases h.seizes with
    | immediate hkey => exact .immediate (by rw [hupper, hkey])
    | message hkey => exact .message (hupper.trans hkey)
    | condition hhead hafter free =>
      have hhead' := haged.head?_eq hhead
      refine .condition hhead' hafter ?_
      intro l y hjl hli hy
      obtain ⟨m, rfl⟩ : ∃ m, l = n + m + 1 := ⟨l - n - 1, by omega⟩
      exact isComma_of_leaves hleaves hfenced hk (by simp [hhead']) (by omega) hy
        (free (by omega) (by omega))
    | pass hhead hpass hle =>
      rw [leading_congr haged.marks_eq] at hle
      exact .pass (haged.head?_eq hhead) hpass (by omega)

/-- What a word takes, it overtakes. -/
theorem Acts.overtakes {opening : Text} (h : Acts opening before x ahead r)
    (hkind : x.value.kind = .identifier) (hi : i < r.taken) :
    Overtakes (x :: ahead) 0 (i + 1) x where
  word := rfl
  kind := hkind
  lt := Nat.succ_pos i
  line := by
    intro l y hl hli hy
    obtain ⟨m, rfl⟩ := Nat.exists_eq_succ_of_ne_zero hl.ne'
    exact (h.not_ended (by omega) hy).1
  seizes := by
    have hcondition {comparison : Text} {head : Head} (hhead : x.value.head? = some head)
        (hafter : head.bodyAfterComma = true)
        (hi : i < (condition opening comparison before x ahead).taken) :
        Seizes (x :: ahead) 0 (i + 1) x := by
      refine .condition hhead hafter ?_
      intro l y hl hli hy
      obtain ⟨m, rfl⟩ := Nat.exists_eq_succ_of_ne_zero hl.ne'
      have hm : m + 1 < (condition opening comparison before x ahead).taken := by omega
      exact (expression_items (Nat.lt_of_succ_lt hm) hy).2.2 hm
    cases h with
    | repetition | halfWords | plain => cases hi
    | immediate _ hkey => exact .immediate hkey
    | message _ hword => exact .message (isMessage_iff.mp hword).2
    | @directive head n hhead hparts =>
      cases head with
      | ifZero | ifNotZero => exact hcondition hhead rfl hi
      | ifFirstPass | ifSecondPass =>
        have hpass : i < (Row.pass _ x ahead).taken := hi
        rw [taken_pass] at hpass
        cases hpass
      | define => cases hi

/-- A directive on the pass overtakes its arguments. -/
theorem overtakes_of_leading (hline : InLine (x :: ahead))
    (hhead : x.value.head? = some head) (hpass : head.isPass = true)
    (hi : i < leading x.value) : Overtakes (x :: ahead) 0 (i + 1) x where
  word := rfl
  kind := Piece.kind_of_head? hhead
  lt := Nat.succ_pos i
  line := by
    intro l y hl hli hy
    obtain ⟨m, rfl⟩ := Nat.exists_eq_succ_of_ne_zero hl.ne'
    refine isNewline_of_mem_take hline.1 (mem_of_getElem? (i := m) ?_)
    rw [getElem?_take_of_lt (by omega)]
    exact hy
  seizes := .pass hhead hpass (by omega)

/-! ## Words that have acted -/

/-- The item `y` is the word `k`, with another text. -/
structure Acted (k y : Item) : Prop where
  label : y.value.label = k.value.label
  kind : y.value.kind = .identifier
  text : y.value.text ≠ k.value.text

theorem Acted.of_aged {k k' : Item} (h : Acted k' y) (haged : Aged k k')
    (hkind : k'.value.kind = .identifier) : Acted k y where
  label := h.label.trans haged.label
  kind := h.kind
  text := by
    rw [← haged.text hkind]
    exact h.text

/-- A word that is no keyword of the source differs from one that is. -/
theorem acted_setText (hkind : x.value.kind = .identifier) {text : Text}
    (htext : Text.upper text ≠ x.value.upper) : Acted x (Item.setText text x) where
  label := rfl
  kind := hkind
  text := by
    intro heq
    rw [Piece.upper_of_kind_ne (by simp [hkind])] at htext
    exact htext (congrArg Text.upper heq)

theorem acted_directive (hhead : x.value.head? = some head) :
    Acted x (Item.setText head.opener x) := by
  refine acted_setText (Piece.kind_of_head? hhead) ?_
  rw [Head.keyword_of_ofWord? (Piece.ofWord?_of_head? hhead)]
  cases head <;> decide

/-- A word that takes something has acted. -/
theorem Acts.acted {opening : Text} (h : Acts opening before x ahead r)
    (hkind : x.value.kind = .identifier) (htaken : 0 < r.taken) : Acted x r.self := by
  cases h with
  | repetition | halfWords | plain => cases htaken
  | immediate _ hkey =>
    rw [self_immediate]
    refine ⟨rfl, hkind, fun heq => ?_⟩
    -- The mnemonic of an immediate instruction has a last letter.
    have hlength := congrArg List.length heq
    rw [Item.value_setText, Piece.text_setText, length_dropLast] at hlength
    have hnil : x.value.text = [] := eq_nil_of_length_eq_zero (by omega)
    rw [Piece.upper_of_kind_ne (by simp [hkind]), hnil] at hkey
    exact absurd hkey (by decide)
  | message _ hword =>
    refine acted_setText hkind ?_
    rw [(isMessage_iff.mp hword).2]
    decide
  | directive hhead =>
    rw [self_directive]
    exact acted_directive hhead

/-! ## Bodies -/

/-- The body of a directive is known as such. -/
theorem Foretold.head_of_body {heads : Nat → Option Nat} (h : Foretold heads [] xs)
    (hfenced : Fenced xs) (hx : xs[i]? = some x) (hbody : x.value.body = true)
    (hlabel : x.value.label = some l) :
    ∃ m b, x.value.parts = some (m + 1) ∧ xs[i + m + 1]? = some b ∧ b.value.kind = .container ∧
      b.value.label.bind heads = some l := by
  obtain ⟨us, rest, rfl, rfl⟩ := exists_split_of_getElem? hx
  have hat := h.drop us.length
  have hafter := hfenced.drop us.length
  rw [drop_left] at hat hafter
  obtain ⟨m, b, hparts, hb, hkind, howner⟩ := hafter.exists_body hbody
  obtain ⟨vs, ws, rfl, rfl⟩ := exists_split_of_getElem? hb
  refine ⟨vs.length, b, hparts, ?_, hkind, ?_⟩
  · rw [Nat.add_assoc, getElem?_append_right (Nat.le_add_right _ _), Nat.add_sub_cancel_left,
      getElem?_cons_succ, hb]
  · have hhead := hat.2.drop vs.length
    rw [drop_left, take_left] at hhead
    have hfirst := hhead.1 hkind
    have hmark : headAfter ((vs.map (pieceMarks ·.value)).reverse ++ pieceMarks x.value ::
        (((us ++ x :: (vs ++ b :: ws)).take us.length).map (pieceMarks ·.value)).reverse) b.value =
        some (some l) := by
      simp [headAfter, howner, pieceMarks, hbody, hparts, hlabel]
    rw [append_nil, hmark] at hfirst
    obtain ⟨l', hl', heq⟩ := Option.map_eq_some_iff.mp hfirst.symm
    rw [hl', heq]

/-! ## The walk -/

/-- Among the items `out` the token `x` is the word that it was, or it is white space. -/
def Unopened (x : Item) (out : List Item) : Prop :=
  ∀ l, x.value.label = some l → ∃ y ∈ out, y.value.label = some l ∧
    closingKeyword? y.value.upper = none ∧ (y.value.kind = .whitespace ∨
      y.value.kind = .identifier ∧ x.value.kind = .identifier ∧ y.value.text = x.value.text)

/-- The token `x` at `i` opens a block, or it does not and a word before it takes it. -/
def Opened (xs : List Item) (i : Nat) (x : Item) (out : List Item) : Prop :=
  (∃ head, x.value.head? = some head ∧ Item.setText head.opener x ∈ out) ∨
  Unopened x out ∧ (x.value.kind = .identifier → ∃ j k, Overtakes xs j i k ∧ ∃ y ∈ out, Acted k y)

namespace Opened

variable {out' : List Item}

theorem mono (h : Opened xs i x out) (hsub : out ⊆ out') : Opened xs i x out' := by
  rcases h with ⟨head, hhead, hself⟩ | ⟨hself, hover⟩
  · exact .inl ⟨head, hhead, hsub hself⟩
  · refine .inr ⟨fun l hl => ?_, fun hkind => ?_⟩
    · obtain ⟨z, hz, hrest⟩ := hself l hl
      exact ⟨z, hsub hz, hrest⟩
    · obtain ⟨j, k, hovertakes, y, hy, hacted⟩ := hover hkind
      exact ⟨j, k, hovertakes, y, hsub hy, hacted⟩

/-- One step of the walk before the token. -/
theorem of_leaves {y' : Item} (h : Opened ys l y' out) (hleaves : Leaves x ahead n ys)
    (htame : Tame (x :: ahead)) (hfenced : Fenced (x :: ahead)) (hy : ahead[n + l]? = some y)
    (hy' : ys[l]? = some y')
    (hself : ∀ {head : Head}, x.value.head? = some head → 0 < leading x.value →
      Item.setText head.opener x ∈ out) :
    Opened (x :: ahead) (n + l + 1) y out := by
  obtain ⟨z, hz, halters, haged⟩ := hleaves.get hy
  cases hz.symm.trans hy'
  rcases h with ⟨head, hhead, hmem⟩ | ⟨hunopened, hover⟩
  · have hword := (Piece.kind_of_head? (haged.head?_eq hhead))
    rcases halters.eq_or_erased (.inl hword) with rfl | ⟨-, hspace, -⟩
    · exact .inl ⟨head, hhead, hmem⟩
    · exact absurd (hspace.symm.trans (Piece.kind_of_head? hhead)) (by decide)
  · refine .inr ⟨fun i hi => ?_, fun hword => ?_⟩
    · obtain ⟨w, hw, hlabel, hclosing, hsame⟩ := hunopened i (haged.label.trans hi)
      refine ⟨w, hw, hlabel, hclosing, hsame.imp_right ?_⟩
      rintro ⟨hident, hkind, htext⟩
      exact ⟨hident, (haged.upper_eq hkind).1, htext.trans (haged.text hkind)⟩
    · rcases halters.eq_or_erased (.inl hword) with rfl | ⟨hlt, -, head', hx, hpass⟩
      · obtain ⟨j, k, hovertakes, w, hw, hacted⟩ := hover hword
        obtain ⟨k', hovertakes', haged'⟩ := hovertakes.of_leaves hleaves hfenced
        exact ⟨_, k', hovertakes', w, hw, hacted.of_aged haged' hovertakes.kind⟩
      · exact ⟨0, x, overtakes_of_leading htame.inLine hx hpass hlt, _, hself hx (by omega),
          acted_directive hx⟩

end Opened

/-- A token that a word takes has not opened a block. -/
theorem unopened_of_taken (htame : Tame (x :: ahead)) (hword : x.value.kind = .identifier)
    (opening : Text) (before : List Piece) (hi : i < (word opening before x ahead).taken)
    (hy : ahead[i]? = some y) (hpending : Pending y) :
    Unopened y (word opening before x ahead).shown := by
  obtain ⟨z, hz, hlabel, hz', hsame⟩ : ∃ z, (word opening before x ahead).ahead[i]? = some z ∧
      z.value.label = y.value.label ∧ Pending z ∧ (z.value.kind = .whitespace ∨
        z.value.kind = .identifier ∧ y.value.kind = .identifier ∧ z.value.text = y.value.text) := by
    cases deals_word htame hword opening before with
    | message hmessage =>
      rw [word_message (isMessage_iff.mp hmessage).2]
      obtain ⟨z, hz, rfl | rfl⟩ := exists_getElem?_of_forall₂ (forall₂_message x ahead) hy
      · exact ⟨z, hz, rfl, hpending, hpending.kind.symm.imp_right fun hkind => ⟨hkind, hkind, rfl⟩⟩
      · exact ⟨_, hz, rfl, .blank rfl (closingKeyword?_blank rfl mem_cons_self), .inl rfl⟩
    | steady _ _ _ aged =>
      obtain ⟨z, hz, haged⟩ := exists_getElem?_of_forall₂ aged hy
      refine ⟨z, hz, haged.label, hpending.aged haged, ?_⟩
      exact (hpending.aged haged).kind.symm.imp_right fun hkind =>
        ⟨hkind, (haged.upper_eq hkind).1, haged.text hkind⟩
  refine fun l hl => ⟨z, ?_, hlabel.trans hl, hz'.closing_eq_none, hsame⟩
  refine taken_subset_shown htame hword opening before (mem_of_getElem? (i := i) ?_)
  rw [getElem?_take_of_lt hi, hz]

/-- **Every directive with arguments opens a block,** unless a word before it takes it. -/
theorem opens_or_overtaken (htame : Tame xs) (hfenced : Fenced xs) (opening : Text)
    (before : List Piece) {i : Nat} {y : Item} (hy : xs[i]? = some y)
    (hparts : y.value.parts ≠ none) (hpending : Pending y) :
    Opened xs i y (retargetRow opening before xs) := by
  fun_induction retargetRow opening before xs generalizing i y with
  | case1 => cases hy
  | case2 before x ahead hword r ih =>
    cases i with
    | zero =>
      cases hy
      cases hpending with
      | @directive head hhead =>
        obtain ⟨m, hm⟩ := Option.ne_none_iff_exists'.mp hparts
        have hself : r.self = Item.setText head.opener x := by
          show (word opening before x ahead).self = _
          rw [word_of_head? hhead hm, self_directive]
        refine .inl ⟨head, hhead, ?_⟩
        rw [← hself]
        exact mem_append_left _ mem_cons_self
      | blank hkind => exact absurd (hkind.symm.trans hword) (by decide)
    | succ i =>
      rw [getElem?_cons_succ] at hy
      by_cases hi : i < r.taken
      · have hacts := acts_word hword opening before ahead
        refine .inr ⟨fun l hl => ?_, fun _ => ⟨0, x, hacts.overtakes hword hi, r.self,
          mem_append_left _ mem_cons_self, hacts.acted hword (Nat.zero_lt_of_lt hi)⟩⟩
        obtain ⟨z, hz, hsame⟩ := unopened_of_taken htame hword opening before hi hy hpending l hl
        exact ⟨z, mem_append_left _ (mem_cons_of_mem _ hz), hsame⟩
      · obtain ⟨l, rfl⟩ := Nat.exists_eq_add_of_le (not_lt.mp hi)
        have hleaves := leaves_word htame hword opening before
        obtain ⟨y', hy', -, haged⟩ := hleaves.get hy
        have hrest := ih (hleaves.tame htame) (hleaves.aged.fenced (hfenced.tail.drop _)) hy'
          (by rwa [(marks_eq_iff.mp haged.marks_eq).2.1]) (hpending.aged haged)
        refine (hrest.mono (subset_append_right _ _)).of_leaves hleaves htame hfenced hy hy' ?_
        intro head' hhead' hpos
        rw [← self_word_of_head? hhead' hpos opening before ahead]
        exact mem_append_left _ mem_cons_self
  | case3 before x ahead hword z ih =>
    cases i with
    | zero =>
      cases hy
      have hspace := hpending.kind.resolve_left hword
      have hz : z = x := by
        show written quoteSingle opening before x ahead = x
        rw [written, hspace]
      refine .inr ⟨fun l hl => ⟨z, mem_append_right _ mem_cons_self, ?_⟩,
        fun hkind => absurd hkind hword⟩
      rw [hz]
      exact ⟨hl, hpending.closing_eq_none, .inl hspace⟩
    | succ i =>
      have hleaves := leaves_after htame.tail.leafy x
      rw [← Nat.zero_add i] at hy ⊢
      obtain ⟨y', hy', -, haged⟩ := hleaves.get hy
      have hrest := ih (hleaves.tame htame) (hleaves.aged.fenced hfenced.tail) hy'
        (by rwa [(marks_eq_iff.mp haged.marks_eq).2.1]) (hpending.aged haged)
      refine (hrest.mono fun _ hw => mem_append_right _ (mem_cons_of_mem _ hw)).of_leaves
        hleaves htame hfenced hy hy' fun hhead' => ?_
      exact absurd (Piece.kind_of_head? hhead') hword

end Macro10.Row
