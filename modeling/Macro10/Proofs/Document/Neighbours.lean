import Macro10.Proofs.Document.Cursor
import Macro10.Proofs.Document.Links

/-!
# What a walk finds around it

The answers to the questions about a token's neighbourhood, read off the row. No question runs out
of steps: the places of a row are distinct, so there are no more of them than tokens.
-/

namespace Macro10

open List
open Cell (ids ids_cons)

variable {t : Token} {p : Piece} {inside places after : List Id} {ys xs : List Cell} {fuel : Nat}

/-! ## What can be seen of a token -/

namespace Token.Shows

section

variable (h : t.Shows p inside)
include h

theorem isNewline : t.isNewline = p.isNewline := by
  simp only [Token.isNewline, Piece.isNewline, h.kind, h.text]
  rfl

theorem isBlank : t.isBlank = p.isBlank := by
  have hline : t.isNewline = p.token.isNewline := h.isNewline
  simp only [Token.isBlank, Piece.isBlank, hline, h.kind]
  rfl

theorem isOperator (text : Text) : t.isOperator text = p.isOperator text := by
  simp only [Token.isOperator, Piece.isOperator, h.kind, h.text]
  rfl

theorem isSpacing : Document.isSpacing t = p.isSpacing := by
  simp only [Document.isSpacing, Piece.isSpacing, h.kind]

theorem upper : t.upper = p.upper := by
  simp only [Token.upper, Piece.upper, Token.words, h.text]

theorem isHead : (t.kind = .identifier && (Head.ofWord? t.upper).isSome) = p.head?.isSome := by
  rw [h.kind, h.upper, Piece.head?]
  by_cases hkind : p.kind = .identifier <;> simp [hkind]

theorem text_eq (hkind : p.kind ≠ .container) : t.text = some p.text := by
  rw [h.text, Piece.token, if_neg hkind]

theorem words (hkind : p.kind ≠ .container) : t.words = p.text := by
  rw [Token.words, h.text_eq hkind, Option.getD_some]

end

end Token.Shows

namespace Document

variable {c : Cell}

variable {d : Document} {s : Spot} {ahead : List Cell}

theorem Walking.length_places_le (h : Walking d s ahead) :
    s.before.length + (Cell.places ahead).length ≤ d.tokens.size := by
  have hsub : ids s.before ++ Cell.places ahead ⊆ List.range d.tokens.size :=
    fun i hi => mem_range.mpr (h.lt_size i hi)
  have hle := (subperm_of_subset h.distinct hsub).length_le
  simpa using hle

theorem Walking.length_le (h : Walking d s ahead) :
    s.before.length + ahead.length ≤ d.tokens.size := by
  have hle := h.length_places_le
  have hids := (Cell.ids_sublist_places ahead).length_le
  rw [Cell.length_ids] at hids
  omega

theorem isOperator_eq {i : Id} (ht : d.tokens[i]? = some t) (h : t.Shows p inside) (text : Text) :
    d.isOperator text (some i) = .ok (p.isOperator text) := by
  rw [isOperator, token_eq_ok_iff.mpr ht, ← h.isOperator]
  rfl

theorem Walking.isOperator_head? (h : Walking d s ahead) {cs : List Cell}
    (hcs : cs ⊆ s.before ++ ahead) (text : Text) :
    d.isOperator text (cs.head?.map Cell.id) =
      .ok ((Cell.pieces cs).head?.any (·.isOperator text)) := by
  cases cs with
  | nil => rfl
  | cons c cs =>
    obtain ⟨t, ht, hlooks⟩ := h.looks c (hcs mem_cons_self)
    exact isOperator_eq ht hlooks text

/-! ## Looking for a token -/

/-- The tokens of a row are linked to their neighbours. -/
theorem Placed.chained {marked : Bool} {parent : Option Id} (h : d.Placed marked parent [] xs []) :
    d.Chained parent (ids xs) := by
  intro before after i hsplit
  obtain ⟨xs, c, ys, rfl, rfl, rfl, rfl⟩ := Cell.exists_of_ids_eq hsplit
  obtain ⟨t, ht, hfits⟩ := h.holds
  refine ⟨t, ht, hfits.linked.parent, ?_, ?_⟩
  · rw [hfits.linked.prev, append_nil, head?_reverse]
  · rw [hfits.linked.next, append_nil]

theorem Walking.chained (xs : List Cell) (h : Walking d s (xs ++ c :: ys)) :
    d.Chained s.parent ((ids (xs.reverse ++ s.before)).reverse ++ c.id :: ids ys) := by
  simpa using h.row.chained

section Tests

variable {test : Token → Bool} {tested : Piece → Bool}
  (htest : ∀ t p inside, t.Shows p inside → test t = tested p)
  (h : ∀ c ∈ xs, d.Looks c)
include htest h

theorem dropWhile_ids :
    (ids xs).dropWhile (d.tests test) = ids (xs.dropWhile (tested ·.piece)) := by
  induction xs with
  | nil => rfl
  | cons c xs ih =>
    obtain ⟨⟨t, ht, hlooks⟩, hxs⟩ := forall_mem_cons.mp h
    rw [ids_cons, dropWhile_cons, dropWhile_cons, tests_eq ht, htest t _ _ hlooks]
    split
    · exact ih hxs
    · rfl

theorem takeWhile_ids :
    (ids xs).takeWhile (!d.tests test ·) = ids (xs.takeWhile (!tested ·.piece)) := by
  induction xs with
  | nil => rfl
  | cons c xs ih =>
    obtain ⟨⟨t, ht, hlooks⟩, hxs⟩ := forall_mem_cons.mp h
    rw [ids_cons, takeWhile_cons, takeWhile_cons, tests_eq ht, htest t _ _ hlooks]
    split
    · rw [ih hxs, ids_cons]
    · rfl

end Tests

theorem Walking.nextNonBlank (xs : List Cell)
    (h : Walking d s (xs ++ c :: ys)) :
    d.nextNonBlank c.id = .ok ((ys.dropWhile (·.piece.isBlank)).head?.map Cell.id) := by
  rw [(h.chained xs).nextNonBlank_eq, dropWhile_ids (fun _ _ _ hlooks => hlooks.isBlank)
    fun c hc => h.looks c (by simp [hc]), ids, head?_map]

theorem Walking.prevSolid (h : Walking d s (c :: ahead)) :
    d.prevSolid c.id = .ok ((s.before.dropWhile (·.piece.isSpacing)).head?.map Cell.id) := by
  rw [(h.chained []).prevSolid_eq, reverse_reverse, reverse_nil, nil_append,
    dropWhile_ids (fun _ _ _ hlooks => hlooks.isSpacing) fun c hc => h.looks c (by simp [hc]),
    ids, head?_map]

/-! ## The start of a line -/

/-- The first cell that is not skipped, if `c` is not one of those. -/
theorem head?_dropWhile_append {α : Type} {p : α → Bool} {x : α} (hx : p x = false)
    (xs ys : List α) :
    ((xs ++ x :: ys).dropWhile p).head? = some ((xs.dropWhile p).head?.getD x) := by
  induction xs with
  | nil => simp [hx]
  | cons y xs ih =>
    rw [cons_append, dropWhile_cons, dropWhile_cons]
    split
    · exact ih
    · rfl

theorem Walking.firstSolid (h : Walking d s (c :: ahead))
    (hc : c.piece.isSpacing = false) :
    (d.lineStart c.id >>= d.solidFrom) = .ok (some (((((s.before.takeWhile
      (!·.piece.isNewline)).reverse.dropWhile (·.piece.isSpacing)).head?).getD c).id)) := by
  have hchained := h.chained []
  obtain ⟨earlier, start, rest, hstart, hline, hsplit⟩ := hchained.exists_lineStart
  rw [← hsplit] at hchained
  rw [lineBefore, reverse_reverse, reverse_nil, nil_append,
    takeWhile_ids (fun _ _ _ hlooks => hlooks.isNewline) fun c hc => h.looks c (by simp [hc]),
    ← Cell.ids_reverse, ← ids_cons, ← Cell.ids_append] at hline
  rw [hstart]
  refine hchained.solidFrom_eq.trans ?_
  rw [← hline, dropWhile_ids (fun _ _ _ hlooks => hlooks.isSpacing), ids, head?_map,
    head?_dropWhile_append (p := fun c : Cell => c.piece.isSpacing) hc, Option.map_some]
  intro e he
  refine h.looks e ?_
  rcases mem_append.mp he with he | he
  · exact mem_append_left _ ((List.takeWhile_prefix _).subset (mem_reverse.mp he))
  · exact mem_append_right _ he

/-! ## Arguments -/

/-- The first cell that `wanted` holds of on the line, if it has the given owner and so have the
cells before it. The owner is given as it is seen from the first cell. -/
def sharing (wanted : Piece → Bool) (owner : Option Nat) : List Cell → Option Cell
  | [] => none
  | c :: cs =>
    if c.piece.isNewline || c.piece.owner ≠ owner then none
    else if wanted c.piece then some c
    else sharing wanted (owner.map (· + 1)) cs

/-- Distances that lead to the same place are the same. -/
theorem bind_getElem?_inj (hnodup : places.Nodup) {j k : Option Nat}
    (hj : ∀ n, j = some n → n < places.length) (hk : ∀ n, k = some n → n < places.length) :
    j.bind (places[·]?) = k.bind (places[·]?) ↔ j = k := by
  refine ⟨fun h => ?_, fun h => h ▸ rfl⟩
  cases j with
  | none =>
    cases k with
    | none => rfl
    | some n =>
      have hn := hk n rfl
      simp [getElem?_eq_getElem hn] at h
  | some m =>
    have hm := hj m rfl
    cases k with
    | none => simp [getElem?_eq_getElem hm] at h
    | some n => exact congrArg some ((getElem?_inj hm hnodup).mp h)

/-- The search for a token among the arguments that share an owner. The owner is `owner` tokens back
from the first cell ahead; `found` is a test of pieces. -/
theorem Walking.findBefore_eq {found : Token → Bool} {wanted : Piece → Bool}
    (hfound : ∀ t p inside, t.Shows p inside → found t = wanted p) {owner : Option Nat}
    (howner : ∀ k, owner = some k → k < s.before.length)
    (h : Walking d s ahead) (hfuel : ahead.length ≤ fuel) :
    d.findBefore (fun t => t.isNewline || t.owner ≠ owner.bind ((ids s.before)[·]?)) found fuel
      (ids ahead).head? = .ok ((sharing wanted owner ahead).map Cell.id) := by
  induction ahead generalizing s owner fuel with
  | nil => cases fuel <;> rfl
  | cons c cs ih =>
    obtain ⟨t, ht, hfits⟩ := h.holds
    have hmarks := hfits.marks rfl
    obtain ⟨fuel, rfl⟩ := Nat.exists_eq_add_of_le' ((Nat.succ_pos _).trans_le hfuel)
    have hsame : (t.owner ≠ owner.bind ((ids s.before)[·]?)) ↔ c.piece.owner ≠ owner := by
      rw [hmarks.owner, not_iff_not]
      exact bind_getElem?_inj (nodup_append.mp h.nodup_ids).1 hmarks.owner_lt
        (by simpa using howner)
    have hbind : owner.bind ((ids s.before)[·]?) =
        (owner.map (· + 1)).bind ((ids (c :: s.before))[·]?) := by
      cases owner <;> simp
    simp only [ids_cons, head?_cons, findBefore, token_eq_ok_iff.mpr ht, bind,
      Except.bind, hfits.looks.isNewline, hsame, hfound t _ _ hfits.looks, sharing]
    split
    · rfl
    · split
      · rfl
      · rw [hfits.linked.next, hbind]
        refine ih ?_ h.step (Nat.le_of_succ_le_succ hfuel)
        intro k hk
        obtain ⟨j, hj, rfl⟩ := Option.map_eq_some_iff.mp hk
        exact Nat.succ_lt_succ (howner j hj)

end Document

end Macro10
