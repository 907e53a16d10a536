import Macro10.Proofs.NormalRows

/-!
# Directives and their arguments

What the normal form says about directives, in terms of the document that was read: their bodies
(`Document.bodyAfter`), their arguments (`Document.partsAfter`), and the other tokens
(`Document.settledToken`). The normal form is determined by that (`normalize_arranges`).
-/

namespace Macro10

open List

variable {t u : Token} {d normal : Document} {p : Piece} {inside after parts : List Id} {i : Id}
  {body parent : Option Id} {afterComma : Bool} {cs : List Cell}

open Cell (ids ids_append ids_cons pieces pieces_append)

namespace Token

/-- The directive that the token is the keyword of. -/
def head? (t : Token) : Option Head :=
  if t.kind = .identifier then Head.ofWord? t.upper else none

/-- The token without its marks. -/
def unmarked (t : Token) : Token := { t with owner := none, parts := none, body := none }

theorem Shows.head?_eq (h : t.Shows p inside) : t.head? = p.head? := by
  rw [head?, Piece.head?, h.kind, h.upper]

end Token

namespace Document

/-- The body of a directive before the tokens at `after`: the first group, or the first group after
a comma, if the line does not end before it and no other directive starts. -/
def bodyAfter (d : Document) (afterComma : Bool) (after : List Id) : Option Id :=
  let near := after.takeWhile fun i => !d.tests (fun t => t.isNewline || t.head?.isSome) i
  (if afterComma then near.dropWhile fun i => !d.tests (·.isOperator ",") i
    else near).find? (d.tests (·.kind = .container))

/-- The arguments of a directive before the tokens at `after`: they end with the line, and the body
or another directive is the last of them. -/
def partsAfter (d : Document) (body : Option Id) (after : List Id) : List Id :=
  let line := after.takeWhile fun i => !d.tests Token.isNewline i
  line.take (line.findIdx (fun i => body = some i || d.tests (·.head?.isSome) i) + 1)

/-- The token `t` in normal form, but for its marks: `!` is "or", or "not equal" together with an
equals sign directly after it, and brackets are parentheses. -/
def settledToken (d : Document) (t : Token) : Token :=
  if t.isOperator "!" then
    { t with text := some (if t.next.any (d.tests (·.isOperator "=")) then "!="
        else "|") }
  else if t.isOperator "=" && t.prev.any (d.tests (·.isOperator "!")) then t.blanked
  else if t.kind = .container then
    { t with
      opening := if t.opening.isEmpty then [] else [.char '(']
      closing := if t.closing.isEmpty then [] else [.char ')'] }
  else t

/-- The document `normal` says of each directive of `d` what its arguments are, and apart from that
only exclamation marks and brackets are settled. -/
structure Arranges (d normal : Document) : Prop where
  frame : normal.tokens.size = d.tokens.size ∧ normal.root = d.root ∧
    normal.newline = d.newline ∧ normal.diagnostics = d.diagnostics
  /-- Apart from marks, a token depends on its neighbours only. -/
  tokens : ∀ {i : Id} {t : Token}, d.tokens[i]? = some t →
    ∃ t', normal.tokens[i]? = some t' ∧ t'.unmarked = d.settledToken t
  /-- Exactly the directives have arguments. -/
  heads : ∀ {i : Id} {t : Token}, normal.tokens[i]? = some t →
    (t.parts.isSome ↔ t.kind = .identifier ∧ (Head.ofWord? t.upper).isSome) ∧
      (t.parts = none → t.body = none)
  /-- The arguments of a directive are the tokens after it as far as they go, up to the body. -/
  parts : ∀ {parent : Option Id} {before after : List Id} {i : Id} {t : Token} {head : Head},
    d.Scope parent (before ++ i :: after) → normal.tokens[i]? = some t → t.head? = some head →
      t.body = d.bodyAfter head.bodyAfterComma after ∧
      t.parts = some (d.partsAfter t.body after) ∧
      ∀ b, t.body = some b → (d.partsAfter t.body after).getLast? = some b
  /-- A token is owned by the directive that it is an argument of. -/
  owners : ∀ {i : Id} {t : Token}, normal.tokens[i]? = some t → ∀ h,
    t.owner = some h ↔ ∃ u parts, normal.tokens[h]? = some u ∧ u.parts = some parts ∧ i ∈ parts
  /-- No token is an argument of two directives. -/
  disjoint : ∀ {h h' i : Id} {u u' : Token} {parts parts' : List Id},
    normal.tokens[h]? = some u → normal.tokens[h']? = some u' → u.parts = some parts →
      u'.parts = some parts' → i ∈ parts → i ∈ parts' → h = h'

/-! ## Bodies and arguments, token by token -/

section Tokens

variable (ht : d.tokens[i]? = some t)
  {rest : List Id}
include ht

theorem bodyAfter_stop (h : (t.isNewline || t.head?.isSome) = true) :
    d.bodyAfter afterComma (i :: rest) = none := by
  simp only [bodyAfter, takeWhile_cons, tests_eq ht, h]
  cases afterComma <;> rfl

section

variable (h : (t.isNewline || t.head?.isSome) = false)
include h

/-- A token that does not end the arguments, and is neither a comma nor the body, is passed over. -/
theorem bodyAfter_pass (hcomma : t.isOperator "," = false)
    (hgroup : (decide (t.kind = .container) && !afterComma) = false) :
    d.bodyAfter afterComma (i :: rest) = d.bodyAfter afterComma rest := by
  cases afterComma with
  | true => simp [bodyAfter, tests_eq ht, h, hcomma]
  | false =>
    rw [Bool.not_false, Bool.and_true] at hgroup
    simp [bodyAfter, tests_eq ht, h, hgroup]

theorem bodyAfter_comma (hcomma : t.isOperator "," = true) :
    d.bodyAfter afterComma (i :: rest) = d.bodyAfter false rest := by
  have hgroup : decide (t.kind = .container) = false := by
    simp only [Token.isOperator, Bool.and_eq_true, decide_eq_true_eq] at hcomma
    simp [hcomma.1]
  cases afterComma <;> simp [bodyAfter, tests_eq ht, h, hcomma, hgroup]

theorem bodyAfter_group
    (hgroup : t.kind = .container) : d.bodyAfter false (i :: rest) = some i := by
  simp [bodyAfter, tests_eq ht, h, hgroup]

end

theorem partsAfter_newline (h : t.isNewline = true) : d.partsAfter body (i :: rest) = [] := by
  simp [partsAfter, tests_eq ht, h]

theorem partsAfter_last (hline : t.isNewline = false)
    (h : body = some i ∨ t.head?.isSome = true) : d.partsAfter body (i :: rest) = [i] := by
  have hlast : (decide (body = some i) || t.head?.isSome) = true := by simpa using h
  simp [partsAfter, tests_eq ht, hline, findIdx_cons, hlast]

theorem partsAfter_pass (hline : t.isNewline = false) (hhead : t.head?.isSome = false)
    (hbody : body ≠ some i) : d.partsAfter body (i :: rest) = i :: d.partsAfter body rest := by
  simp [partsAfter, tests_eq ht, hline, findIdx_cons, hhead, hbody]

end Tokens

theorem mem_of_bodyAfter (h : d.bodyAfter afterComma after = some i) : i ∈ after := by
  have hmem := mem_of_find?_eq_some h
  cases afterComma with
  | true => exact (takeWhile_sublist _).subset ((dropWhile_sublist _).subset hmem)
  | false => exact (takeWhile_sublist _).subset hmem

/-- Of the tokens at `after`, as many are arguments as `extent` says, up to the given body. -/
structure Counts (d : Document) (after : List Id) (body : Option Id) (extent : Nat × Bool) :
    Prop where
  parts : after.take extent.1 = d.partsAfter body after
  body : (if extent.2 then (after.take extent.1).getLast? else none) = body

theorem Counts.getLast?_eq {extent : Nat × Bool} (h : d.Counts after body extent) {b : Id}
    (hb : body = some b) : (d.partsAfter body after).getLast? = some b := by
  have hbody := h.body
  rw [hb] at hbody
  split at hbody
  · rw [← h.parts, hbody]
  · cases hbody

theorem Counts.cons {n : Nat} {last : Bool} (h : d.Counts after body (n, last))
    (hlast : last = true → 0 < n ∧ after ≠ []) (ht : d.tokens[i]? = some t)
    (hline : t.isNewline = false) (hhead : t.head?.isSome = false) (hbody : body ≠ some i) :
    d.Counts (i :: after) body (n + 1, last) where
  parts := by rw [take_succ_cons, partsAfter_pass ht hline hhead hbody, ← h.parts]
  body := by
    rw [← h.body]
    cases last with
    | false => rfl
    | true =>
      obtain ⟨hn, hafter⟩ := hlast rfl
      have hne : after.take n ≠ [] := by simp [hafter, hn.ne']
      rw [if_pos rfl, if_pos rfl, take_succ_cons]
      exact getLast?_cons_of_ne_nil hne

/-- **The arguments that the pass counts are those that the tokens show.** -/
theorem counts_extent (hdistinct : (ids cs).Nodup)
    (hlooks : ∀ c ∈ cs, d.Looks c)
    (afterComma : Bool) :
    d.Counts (ids cs) (d.bodyAfter afterComma (ids cs)) (Row.extent (!afterComma) (pieces cs)) := by
  induction cs generalizing afterComma with
  | nil => cases afterComma <;> exact ⟨rfl, rfl⟩
  | cons c cs ih =>
    obtain ⟨⟨t, ht, hshows⟩, hrest⟩ := forall_mem_cons.mp hlooks
    rw [ids_cons, nodup_cons] at hdistinct
    rw [ids_cons, Cell.pieces_cons, Row.extent, ← hshows.isNewline, ← hshows.head?_eq,
      ← hshows.isOperator, ← hshows.kind]
    split
    · next hline =>
      rw [bodyAfter_stop ht (by rw [hline]; rfl)]
      exact ⟨(partsAfter_newline ht hline).symm, rfl⟩
    next hline =>
    rw [Bool.not_eq_true] at hline
    split
    · next hhead =>
      rw [bodyAfter_stop ht (by rw [hhead, Bool.or_true])]
      exact ⟨(partsAfter_last ht hline (.inr hhead)).symm, rfl⟩
    next hhead =>
    rw [Bool.not_eq_true] at hhead
    have hgoes : (t.isNewline || t.head?.isSome) = false := by rw [hline, hhead]; rfl
    -- The arguments after the token are those of a directive that may have seen a comma.
    have hpass (b : Bool) : d.Counts (c.id :: ids cs) (d.bodyAfter b (ids cs))
        ((Row.extent (!b) (pieces cs)).1 + 1, (Row.extent (!b) (pieces cs)).2) := by
      refine (ih hdistinct.2 hrest b).cons (fun hlast => ⟨Row.extent_pos hlast, ?_⟩) ht hline hhead
        fun hc => hdistinct.1 (mem_of_bodyAfter hc)
      rintro hnil
      rw [map_eq_nil_iff.mp hnil] at hlast
      cases hlast
    split
    · next hcomma =>
      rw [bodyAfter_comma ht hgoes hcomma]
      exact hpass false
    next hcomma =>
    split
    · next hgroup =>
      simp only [Bool.and_eq_true, decide_eq_true_eq, Bool.not_eq_true'] at hgroup
      obtain ⟨hkind, rfl⟩ := hgroup
      rw [bodyAfter_group ht hgoes hkind]
      exact ⟨(partsAfter_last ht hline (.inl rfl)).symm, rfl⟩
    · next hgroup =>
      rw [bodyAfter_pass ht hgoes (Bool.eq_false_iff.mpr hcomma) (Bool.eq_false_iff.mpr hgroup)]
      exact hpass afterComma

end Document

/-! ## Looks -/

namespace Token

variable {t' : Token} {q : Piece}

theorem Shows.alike (h : t.Shows p inside) (hq : Row.Alike p q) : t.Shows q inside :=
  ⟨h.kind.trans hq.kind.symm, by rw [h.text, hq.token_eq], h.opening.trans hq.opening.symm,
    h.closing.trans hq.closing.symm, by rw [h.children, hq.kind]⟩

theorem Shows.unmarked_eq (h : t.Shows p inside) (h' : t'.Shows p inside)
    (hposition : t'.position = t.position)
    (hlinks : t'.parent = t.parent ∧ t'.prev = t.prev ∧ t'.next = t.next) :
    t'.unmarked = t.unmarked := by
  obtain ⟨hparent, hprev, hnext⟩ := hlinks
  rw [unmarked, unmarked, h.kind, h'.kind, h.text, h'.text, h.opening, h'.opening, h.closing,
    h'.closing, h.children, h'.children, hposition, hparent, hprev, hnext]

theorem unmarked_eq_self (h : t.owner = none ∧ t.parts = none ∧ t.body = none) :
    t.unmarked = t := by
  obtain ⟨howner, hparts, hbody⟩ := h
  cases t
  simp_all [unmarked]

end Token

namespace Document

theorem frame_settledToken (d : Document) (t : Token) :
    (d.settledToken t).position = t.position ∧
      ((d.settledToken t).parent = t.parent ∧ (d.settledToken t).prev = t.prev ∧
        (d.settledToken t).next = t.next) ∧
      (d.settledToken t).owner = t.owner ∧ (d.settledToken t).parts = t.parts ∧
        (d.settledToken t).body = t.body := by
  unfold settledToken
  split
  · exact ⟨rfl, ⟨rfl, rfl, rfl⟩, rfl, rfl, rfl⟩
  · split
    · exact ⟨rfl, ⟨rfl, rfl, rfl⟩, rfl, rfl, rfl⟩
    · split <;> exact ⟨rfl, ⟨rfl, rfl, rfl⟩, rfl, rfl, rfl⟩

theorem shows_settledToken {before after : Option Piece} (h : t.Shows p inside)
    (hbefore : t.prev.any (d.tests (·.isOperator "!")) = before.any (·.isOperator "!"))
    (hafter : t.next.any (d.tests (·.isOperator "=")) = after.any (·.isOperator "=")) :
    (d.settledToken t).Shows (Row.settledBetween before after p) inside := by
  unfold settledToken Row.settledBetween
  rw [h.isOperator, h.isOperator, hbefore, hafter]
  split
  · next hmark =>
    have hkind := Piece.kind_of_isOperator hmark
    refine ⟨h.kind, ?_, h.opening, h.closing, h.children⟩
    simp [Piece.token, hkind]
  · split
    · exact ⟨rfl, rfl, rfl, rfl, rfl⟩
    · rw [Row.parenthesized, ← h.kind]
      split
      · next hkind =>
        exact ⟨rfl, by rw [h.text, Piece.token, Piece.token, ← h.kind], by rw [h.opening],
          by rw [h.closing], by rw [h.children, ← h.kind]⟩
      · exact h

end Document

namespace NormalRow

variable {us xs ys : List Cell} {c : Cell}

theorem any_neighbours (h : NormalRow d normal parent (xs ++ c :: ys) us)
    (hlinked : t.Linked parent (ids xs).reverse (ids ys)) (text : Text) :
    t.prev.any (d.tests (·.isOperator text)) =
        (pieces xs).getLast?.any (·.isOperator text) ∧
      t.next.any (d.tests (·.isOperator text)) = (pieces ys).head?.any (·.isOperator text) := by
  have hlooks {e : Cell} (he : e ∈ xs ++ c :: ys) :
      d.tests (·.isOperator text) e.id = e.piece.isOperator text := by
    obtain ⟨u, hu, hshows⟩ := h.read.row.looks e he
    rw [Document.tests_eq hu, hshows.isOperator]
  rw [hlinked.prev, hlinked.next]
  constructor
  · rw [head?_reverse, ids, pieces, getLast?_map, getLast?_map]
    cases hlast : xs.getLast? with
    | none => rfl
    | some e => exact hlooks (mem_append_left _ (mem_of_getLast? hlast))
  · cases ys with
    | nil => rfl
    | cons e ys => exact hlooks (by simp)

/-- **Apart from marks a token is settled, and nothing else.** -/
theorem exists_unmarked_eq (h : NormalRow d normal parent (xs ++ c :: ys) us)
    (hevolves : d.Evolves false normal) (ht : d.tokens[c.id]? = some t) :
    ∃ t', normal.tokens[c.id]? = some t' ∧ t'.unmarked = d.settledToken t := by
  obtain ⟨u, t', q, hu, ht', hfits, hfits', hlooks, -⟩ := h.exists_tokens
  cases ht.symm.trans hu
  obtain ⟨hposition, hlinks, hmarks⟩ := d.frame_settledToken t
  have hshows := Document.shows_settledToken hfits.looks (h.any_neighbours hfits.linked _).1
    (h.any_neighbours hfits.linked _).2
  obtain ⟨howner, hparts, hbody⟩ := h.unmarked_piece
  have hnone : t.owner = none ∧ t.parts = none ∧ t.body = none := by
    have hmarked := hfits.marks rfl
    rw [hmarked.owner, hmarked.parts, hmarked.body, howner, hparts, hbody]
    exact ⟨rfl, rfl, rfl⟩
  refine ⟨t', ht', ?_⟩
  rw [(hshows.alike hlooks).unmarked_eq hfits'.looks]
  · exact Token.unmarked_eq_self (by rw [hmarks.1, hmarks.2.1, hmarks.2.2]; exact hnone)
  · obtain ⟨v, hv, hevolved⟩ := hevolves.tokens ht
    cases ht'.symm.trans hv
    rw [hposition, hevolved.position]
  · rw [hlinks.1, hlinks.2.1, hlinks.2.2]
    obtain ⟨hparent, hprev, hnext⟩ := hfits.linked
    obtain ⟨hparent', hprev', hnext'⟩ := hfits'.linked
    exact ⟨hparent'.trans hparent.symm, hprev'.trans hprev.symm, hnext'.trans hnext.symm⟩

/-! ## Marks -/

theorem head?_settledBetween (before after : Option Piece) (p : Piece) :
    (Row.settledBetween before after p).head? = p.head? := by
  by_cases hkind : p.kind = .identifier
  · rw [Row.settledBetween, Piece.isOperator_of_kind_ne (by simp [hkind]),
      Piece.isOperator_of_kind_ne (by simp [hkind]), if_neg (by decide),
      if_neg (by simp [Bool.false_and]), Row.parenthesized, if_neg (by simp [hkind])]
  · have hsettled : (Row.settledBetween before after p).kind ≠ .identifier := by
      unfold Row.settledBetween Row.parenthesized
      split
      · exact hkind
      · split
        · simp
        · split <;> exact hkind
    rw [Piece.head?, Piece.head?, if_neg hkind, if_neg hsettled]

/-- The arguments of a token that was read; only a directive has any. -/
theorem marks_of_head? (h : NormalRow d normal parent (xs ++ c :: ys) us)
    (ht : normal.tokens[c.id]? = some t) :
    t.head? = c.piece.head? ∧ (c.piece.head? = none → t.parts = none ∧ t.body = none) ∧
      ∀ head, c.piece.head? = some head →
        t.parts = some ((ids ys).take (Row.extent (!head.bodyAfterComma) (pieces ys)).1) ∧
        t.body = d.bodyAfter head.bodyAfterComma (ids ys) ∧
        d.Counts (ids ys) t.body (Row.extent (!head.bodyAfterComma) (pieces ys)) := by
  obtain ⟨-, t', q, -, ht', -, hfits, hlooks, -, hparts, hbody⟩ := h.exists_tokens
  cases ht.symm.trans ht'
  have hmarked := hfits.marks rfl
  refine ⟨?_, fun hhead => ?_, fun head hhead => ?_⟩
  · rw [hfits.looks.head?_eq, hlooks.head?_eq, head?_settledBetween]
  · obtain ⟨-, hnoParts, hnoBody⟩ := h.unmarked_piece
    rw [Row.headed_of_head? hhead] at hparts hbody
    rw [hmarked.parts, hmarked.body, hparts, hbody, hnoParts, hnoBody]
    exact ⟨rfl, rfl⟩
  · have hdistinct : (ids ys).Nodup := by
      have hrow := h.read.distinct.sublist (Cell.ids_sublist_places _)
      rw [ids_append, ids_cons] at hrow
      exact (nodup_cons.mp (nodup_append.mp hrow).2.1).2
    have hcounts := Document.counts_extent hdistinct
      (fun e he => h.read.row.looks e (by simp [he])) head.bodyAfterComma
    simp only [Row.headed, hhead] at hparts hbody
    have hbodyEq : t.body = d.bodyAfter head.bodyAfterComma (ids ys) := by
      rw [hmarked.body, hparts, hbody, Option.getD_some, hcounts.body]
    exact ⟨by rw [hmarked.parts, hparts]; rfl, hbodyEq, hbodyEq ▸ hcounts⟩

theorem getElem?_reverse_ids (as : List Cell) (b : Cell) (bs : List Cell) :
    (ids (as ++ b :: bs)).reverse[bs.length]? = some b.id := by
  rw [ids_append, ids_cons, reverse_append, reverse_cons,
    getElem?_append_left (by simp), getElem?_append_right (by simp)]
  simp

/-- The owner of a token is a directive before it, and the token is one of its arguments. -/
theorem exists_parts_of_owner (h : NormalRow d normal parent (xs ++ c :: ys) us)
    (ht : normal.tokens[c.id]? = some t) (howner : t.owner = some i) :
    ∃ u parts, normal.tokens[i]? = some u ∧ u.parts = some parts ∧ c.id ∈ parts := by
  obtain ⟨-, t', q, -, ht', -, hfits, -, hq, -⟩ := h.exists_tokens
  cases ht.symm.trans ht'
  rw [(hfits.marks rfl).owner, hq] at howner
  obtain ⟨k, hk, hplace⟩ := Option.bind_eq_some_iff.mp howner
  obtain ⟨as, p, bs, head, hxs, rfl, hhead, hlt⟩ :=
    (Row.owner_owned_iff h.unmarked_piece.owner (pieces ys)).mp hk
  obtain ⟨as, zs, rfl, rfl, hzs⟩ := map_eq_append_iff.mp hxs
  obtain ⟨b, bs, rfl, rfl, rfl⟩ := map_eq_cons_iff.mp hzs
  rw [length_map, getElem?_reverse_ids] at hplace
  cases hplace
  have hrow : NormalRow d normal parent (as ++ b :: (bs ++ c :: ys)) us := by simpa using h
  obtain ⟨-, u, -, -, hu, -⟩ := hrow.exists_tokens
  obtain ⟨hparts, -⟩ := (hrow.marks_of_head? hu).2.2 head hhead
  refine ⟨u, _, hu, hparts, mem_of_getElem? (i := bs.length) ?_⟩
  rw [length_map] at hlt
  rw [getElem?_take_of_lt (by rw [pieces_append]; exact hlt)]
  simp

/-- An argument of a directive is owned by it. -/
theorem owner_of_mem_parts {zs : List Cell} {b : Cell}
    (h : NormalRow d normal parent (xs ++ b :: zs) us)
    (hu : normal.tokens[b.id]? = some u) (hparts : u.parts = some parts)
    (hi : i ∈ parts) (ht : normal.tokens[i]? = some t) : t.owner = some b.id := by
  obtain ⟨-, hnone, hsome⟩ := h.marks_of_head? hu
  cases hhead : b.piece.head? with
  | none =>
    rw [(hnone hhead).1] at hparts
    cases hparts
  | some head =>
    cases (hsome head hhead).1.symm.trans hparts
    obtain ⟨k, hk⟩ := getElem?_of_mem hi
    obtain ⟨hlt, -⟩ := List.getElem?_eq_some_iff.mp hk
    rw [length_take, Nat.lt_min] at hlt
    rw [getElem?_take_of_lt hlt.1, ids, getElem?_map] at hk
    obtain ⟨e, he, rfl⟩ := Option.map_eq_some_iff.mp hk
    obtain ⟨bs, ys, rfl, rfl⟩ := exists_split_of_getElem? he
    have hrow : NormalRow d normal parent ((xs ++ b :: bs) ++ e :: ys) us := by simpa using h
    obtain ⟨-, t', q, -, ht', -, hfits, -, hq, -⟩ := hrow.exists_tokens
    cases ht.symm.trans ht'
    have howner : q.owner = some bs.length := by
      rw [hq, Row.owner_owned_iff hrow.unmarked_piece.owner (pieces ys)]
      refine ⟨pieces xs, b.piece, pieces bs, head, pieces_append .., ?_, hhead, ?_⟩
      · simp [pieces]
      · have hextent := hlt.1
        rwa [pieces_append, Cell.pieces_cons] at hextent
    rw [(hfits.marks rfl).owner, howner, Option.bind_some, getElem?_reverse_ids]

end NormalRow

/-! ## Documents -/

section Documents

variable {f : Forest} (h : Normalized d f normal cs)
include h

theorem Normalized.exists_cell {before : List Id} (hscope : d.Scope parent (before ++ i :: after)) :
    ∃ xs c ys us, NormalRow d normal parent (xs ++ c :: ys) us ∧ ids xs = before ∧ c.id = i ∧
      ids ys = after := by
  obtain ⟨vs, us, hids, hrow⟩ := h.exists_rows hscope
  obtain ⟨xs, c, ys, rfl, hxs, hc, hys⟩ := Cell.exists_of_ids_eq hids
  exact ⟨xs, c, ys, us, hrow, hxs, hc, hys⟩

theorem Normalized.exists_cell_of_token (ht : normal.tokens[i]? = some t) :
    ∃ parent xs c ys us, NormalRow d normal parent (xs ++ c :: ys) us ∧ c.id = i := by
  obtain ⟨parent, before, after, hscope⟩ := h.exists_scope ht
  obtain ⟨xs, c, ys, us, hrow, -, hid, -⟩ := h.exists_cell hscope
  exact ⟨parent, xs, c, ys, us, hrow, hid⟩

theorem Normalized.owner_eq_some_iff (ht : normal.tokens[i]? = some t) (k : Id) :
    t.owner = some k ↔
      ∃ u parts, normal.tokens[k]? = some u ∧ u.parts = some parts ∧ i ∈ parts := by
  constructor
  · intro howner
    obtain ⟨parent, xs, c, ys, us, hrow, rfl⟩ := h.exists_cell_of_token ht
    exact hrow.exists_parts_of_owner ht howner
  · rintro ⟨u, parts, hu, hparts, hi⟩
    obtain ⟨parent, xs, b, zs, us, hrow, rfl⟩ := h.exists_cell_of_token hu
    exact hrow.owner_of_mem_parts hu hparts hi ht

theorem Normalized.exists_token_of_mem_parts {k : Id} (hu : normal.tokens[k]? = some u)
    (hparts : u.parts = some parts) (hi : i ∈ parts) : ∃ t, normal.tokens[i]? = some t := by
  obtain ⟨parent, xs, b, zs, us, hrow, rfl⟩ := h.exists_cell_of_token hu
  obtain ⟨-, u', q, -, hu', -, hfits, -⟩ := hrow.exists_tokens
  cases hu.symm.trans hu'
  rw [(hfits.marks rfl).parts] at hparts
  obtain ⟨n, -, rfl⟩ := Option.map_eq_some_iff.mp hparts
  have hmem : i ∈ ids us := by
    rw [hrow.ids_eq, ids_append, ids_cons]
    simp [mem_of_mem_take hi]
  exact ⟨_, Array.getElem?_eq_getElem (hrow.standing.lt_size i (Cell.ids_subset_places us hmem))⟩

theorem Normalized.arranges : d.Arranges normal where
  frame := ⟨h.size_eq, by rw [h.root, h.normalRow.ids_eq, h.readRoot], h.newline_eq,
    (Edit.evolves_normalize h.edit).silent rfl⟩
  tokens := by
    intro i t ht
    have hi : i < normal.tokens.size := by
      rw [h.size_eq]
      exact Document.lt_size_of_getElem? ht
    obtain ⟨parent, xs, c, ys, us, hrow, rfl⟩ :=
      h.exists_cell_of_token (Array.getElem?_eq_getElem hi)
    exact hrow.exists_unmarked_eq (Edit.evolves_normalize h.edit) ht
  heads := by
    intro i t ht
    obtain ⟨parent, xs, c, ys, us, hrow, rfl⟩ := h.exists_cell_of_token ht
    obtain ⟨hhead, hnone, hsome⟩ := hrow.marks_of_head? ht
    have hiff : t.head?.isSome ↔ t.kind = .identifier ∧ (Head.ofWord? t.upper).isSome := by
      rw [Token.head?]
      split <;> simp_all
    rw [← hiff, hhead]
    cases hp : c.piece.head? with
    | none => simp [hnone hp]
    | some head => simp [(hsome head hp).1]
  parts := by
    intro parent before after i t head hscope ht hhead
    obtain ⟨xs, c, ys, us, hrow, rfl, rfl, rfl⟩ := h.exists_cell hscope
    obtain ⟨hsame, -, hsome⟩ := hrow.marks_of_head? ht
    obtain ⟨hparts, hbody, hcounts⟩ := hsome head (hsame.symm.trans hhead)
    exact ⟨hbody, by rw [hparts, hcounts.parts], fun b hb => hcounts.getLast?_eq hb⟩
  owners := fun ht k => h.owner_eq_some_iff ht k
  disjoint := by
    intro k k' i u u' parts parts' hu hu' hparts hparts' hi hi'
    obtain ⟨t, ht⟩ := h.exists_token_of_mem_parts hu hparts hi
    have howner := (h.owner_eq_some_iff ht k).mpr ⟨u, parts, hu, hparts, hi⟩
    have howner' := (h.owner_eq_some_iff ht k').mpr ⟨u', parts', hu', hparts', hi'⟩
    exact Option.some.inj (howner.symm.trans howner')

end Documents

/-- **The arguments of directives are assigned exactly.** Every document that was read has a normal
form, in which each directive has the arguments after it on its line, up to its body or to the next
directive, and each argument knows its directive. All else is settled token by token. -/
theorem normalize_arranges {source : Text} {radix : Int} {d : Document}
    (h : read source radix = .ok d) :
    ∃ normal, d.edit Edit.normalize = .ok normal ∧ d.Arranges normal := by
  obtain ⟨f, normal, cs, hnormal⟩ := exists_normalized h
  exact ⟨normal, hnormal.edit, hnormal.arranges⟩

/-- A group before the comma is no body of a condition, and a directive ends the arguments of the
one before it. -/
theorem normalize_arranges_condition :
    ∃ d, read "IFN A!=B<C>,<IF1 D<E> F>\nDEFINE X!Y IF2 ,Z\n" 8 = .ok d ∧
      d.bodyAfter true (d.root.drop 1) = some 9 ∧
      ∃ normal, d.edit Edit.normalize = .ok normal ∧ d.Arranges normal := by
  obtain ⟨d, hd, hbody⟩ := exists_eq_ok_of_any
    (x := read "IFN A!=B<C>,<IF1 D<E> F>\nDEFINE X!Y IF2 ,Z\n" 8)
    (p := fun d => decide (d.bodyAfter true (d.root.drop 1) = some 9)) (by decide +kernel)
  exact ⟨d, hd, of_decide_eq_true hbody, normalize_arranges hd⟩

end Macro10
