import Macro10.Proofs.Foretold
import Macro10.Proofs.Row.Blocks

/-!
# Blocks in the target

A directive with a body opens a block in the target, and the body closes it (`converted_blocks`). It
is not so where a word on the line has taken the directive or its body before: then the directive is
not opened, and nothing ends its body, or the body is blanked out by a message.
-/

namespace Macro10

open List
open Cell (ids item labelled piece_labelled value_item)

variable {us cs : List Cell} {i : Nat} {k : Item} {c : Cell} {parent : Option Id}
  {normal : Document} {t : Token}

variable {d : Document}

namespace Document

/-- The token at `i` has been made, with the given kind and text. -/
def MadeAt (d : Document) (i : Id) (kind : Kind) (text : Text) : Prop :=
  ∃ t, d.tokens[i]? = some t ∧ t.kind = kind ∧ t.text = some text ∧ t.position = none

/-- The token at `i` opens the block of a directive. -/
def Opens (d : Document) (head : Head) (i : Id) : Prop :=
  ∃ t, d.tokens[i]? = some t ∧ t.kind = .identifier ∧ t.text = some head.opener

/-- The token at `c` is a group without brackets on lines of its own: its first child and the one
before the children `ending` are made, and end a line each. -/
structure SetApart (d : Document) (newline : Text) (c : Id) (ending : List Id) : Prop where
  reached : ∃ parent ids, d.Scope parent ids ∧ c ∈ ids
  group : ∃ t first inner last, d.tokens[c]? = some t ∧ t.kind = .container ∧
    t.opening = [] ∧ t.closing = [] ∧ t.children = some (first :: (inner ++ last :: ending)) ∧
    d.MadeAt first .whitespace newline ∧ d.MadeAt last .whitespace newline

/-- The token at `c` closes the block of a directive: the last of its children is made, to end the
block. -/
def Closes (d : Document) (newline : Text) (head : Head) (c : Id) : Prop :=
  ∃ keyword, d.SetApart newline c [keyword] ∧ d.MadeAt keyword .identifier (Row.closingLine head)

/-- The word `t` takes the token at `i`, with the tokens `between` on its line. -/
inductive Takes (d : Document) (t : Token) (between : List Id) (i : Id) : Prop
  | immediate (hkey : Keyword.immediates.elem t.upper = true)
  | message (hkey : t.upper = Keyword.message)
  /-- A condition takes its expression up to a comma. -/
  | condition {head : Head} (hhead : Head.ofWord? t.upper = some head)
      (hafter : head.bodyAfterComma = true)
      (free : ∀ j ∈ between, ∃ u, d.tokens[j]? = some u ∧ u.isOperator "," = false)
  /-- A directive on the pass takes its arguments. -/
  | pass {head : Head} {parts : List Id} (hhead : Head.ofWord? t.upper = some head)
      (hpass : head.isPass = true) (hparts : t.parts = some parts) (hi : i ∈ parts)

/-- A word before the token at `i` has taken it: the word has another text in `d'`, and the token at
`i` has the text that it had, or is blanked out. -/
def Overtaken (d d' : Document) (i : Id) : Prop :=
  (∃ parent before k between after t t',
    d.Scope parent (before ++ k :: (between ++ i :: after)) ∧ d.tokens[k]? = some t ∧
      t.kind = .identifier ∧ (∀ j ∈ between, ∃ u, d.tokens[j]? = some u ∧ u.isNewline = false) ∧
      d.Takes t between i ∧ d'.tokens[k]? = some t' ∧ t'.kind = .identifier ∧ t'.text ≠ t.text) ∧
  ∃ t t', d.tokens[i]? = some t ∧ d'.tokens[i]? = some t' ∧
    (t'.kind = .whitespace ∨ t'.kind = .identifier ∧ t'.text = t.text)

end Document

/-! ## Rows of labelled cells -/

namespace Cell

/-- The walk finds directives and bodies in order where the cells have them in order. -/
theorem marked_labelled (h : Row.Marked (items us)) : Row.Marked (items (us.map labelled)) where
  fenced := h.fenced.congr (forall₂_labelled us) (fun hS => hS.1)
    (fun hS hhead => hS.2.1.trans hhead) fun hS hkind => hS.2.2.trans hkind
  heads := by
    intro y hy hbody
    obtain ⟨x, hx, hmarks, hhead, -⟩ := Row.exists_mem_of_forall₂ (forall₂_labelled us) hy
    rw [hhead]
    exact h.heads x hx ((Row.marks_eq_iff.mp hmarks).2.2.symm.trans hbody)

end Cell

/-- The token at `m` shows an item of the row between those at `j` and `i`. -/
def Document.ShowsBetween (d : Document) (xs : List Item) (j i : Nat) (m : Id) : Prop :=
  ∃ u x children l, d.tokens[m]? = some u ∧ Token.Shows u (Nest.value x) children ∧ j < l ∧ l < i ∧
    xs[l]? = some x

theorem Document.Standing.exists_between (hus : normal.Standing true parent us) {j : Nat}
    {ck : Cell}
    (hck : us[j]? = some ck) (hc : us[i]? = some c) (hlt : j < i) :
    ∃ xs vs ws, ids us = xs ++ ck.id :: (vs ++ c.id :: ws) ∧
      ∀ m ∈ vs, normal.ShowsBetween (Cell.items us) j i m := by
  obtain ⟨xs, rest, rfl, rfl⟩ := exists_split_of_getElem? hck
  have hafter (m : Nat) : (xs ++ ck :: rest)[xs.length + 1 + m]? = rest[m]? := by
    rw [getElem?_append_right (by omega)]
    have hindex : xs.length + 1 + m - xs.length = m + 1 := by omega
    rw [hindex, getElem?_cons_succ]
  have hrest : rest[i - xs.length - 1]? = some c := by
    rw [← hafter, ← hc]
    congr 1
    omega
  obtain ⟨vs, ws, rfl, hlength⟩ := exists_split_of_getElem? hrest
  refine ⟨ids xs, ids vs, ids ws, by simp, fun m hm => ?_⟩
  obtain ⟨e, he, rfl⟩ := mem_map.mp hm
  obtain ⟨u, hu, hshows⟩ := hus.row.looks e (by simp [he])
  obtain ⟨n, hn⟩ := getElem?_of_mem he
  have hnlt := (List.getElem?_eq_some_iff.mp hn).1
  refine ⟨u, e.item, _, xs.length + 1 + n, hu, value_item e ▸ hshows, by omega, by omega,
    Cell.getElem?_items ?_⟩
  rw [hafter, getElem?_append_left hnlt, hn]

namespace Retargeted

variable {y : Item} {head : Head} {j : Nat}

variable {target : Document} {out : List Cell} (h : Retargeted normal cs target out)
include h

/-! ## Blocks that are closed -/

theorem madeAt (hus : Nest.Within us out) (hc : c ∈ us) {kind : Kind} {text : Text}
    (hpiece : c.piece = .made kind text) (hkind : kind ≠ .container) :
    target.MadeAt c.id kind text := by
  obtain ⟨-, t, -, ht, hshows⟩ := h.exists_token hus hc
  obtain ⟨-, hlabel⟩ := h.label_eq hus hc
  rw [hpiece] at hshows hlabel
  refine ⟨t, ht, hshows.kind, hshows.text_eq hkind, h.evolves.made ?_ ht⟩
  by_contra hlt
  rw [if_pos (not_le.mp hlt)] at hlabel
  cases hlabel

/-- A body in a row is a group on lines of its own in the target, up to the keyword for its end. -/
theorem setApart_of_found {y : Item} {c : Id} {closing : Option Text}
    (hfound : Cell.Found out (Row.descend normal.newline y)) (hlabel : y.value.label = some c)
    (hkind : y.value.kind = .container) (hopening : y.value.opening = [])
    (hclosing : y.value.closing = []) (hrole : y.value.role = .body closing) :
    ∃ ending, target.SetApart normal.newline c ending ∧
      List.Forall₂ (fun i word => target.MadeAt i .identifier word) ending closing.toList := by
  obtain ⟨us, hus, v, hv, hitem⟩ := hfound
  obtain ⟨inner, hrow⟩ : ∃ inner, Row.descend normal.newline y =
      .node y.value (Item.made .whitespace normal.newline :: (inner ++
        Item.made .whitespace normal.newline :: (closing.map (Item.made .identifier)).toList)) := by
    refine ⟨Row.retarget normal.newline y.value.opening y.inside, ?_⟩
    rw [Row.descend, if_pos hkind, Row.refill, hrole]
    rfl
  have hpiece : v.piece = y.value := by
    rw [Cell.piece_eq_of_item (hitem.trans hrow), Nest.value]
  have hid : v.id = c := h.id_eq_of_label hus hv (by rw [hpiece, hlabel])
  -- The children are the cells inside.
  have hinside : v.inside.map item = Item.made .whitespace normal.newline :: (inner ++
      Item.made .whitespace normal.newline :: (closing.map (Item.made .identifier)).toList) := by
    have heq := congrArg Nest.inside (hitem.trans hrow)
    rwa [Cell.inside_item] at heq
  obtain ⟨first, rest, hcells, hfirst, hrest⟩ := map_eq_cons_iff.mp hinside
  obtain ⟨mid, ends, rfl, -, hends⟩ := map_eq_append_iff.mp hrest
  obtain ⟨last, ends, rfl, hlast, hends⟩ := map_eq_cons_iff.mp hends
  have hwithin : Nest.Within v.inside out := (Nest.Within.inside hv .refl).trans hus
  obtain ⟨parent, t, hscope, ht, hshows⟩ := h.exists_token hus hv
  rw [hpiece] at hshows
  have hchildren := hshows.children
  rw [if_pos hkind, hcells] at hchildren
  rw [hid] at ht
  refine ⟨ids ends, ⟨⟨parent, ids us, hscope, hid ▸ mem_map_of_mem hv⟩, t, first.id, ids mid,
    last.id, ht, hshows.kind.trans hkind, hshows.opening.trans hopening,
    hshows.closing.trans hclosing, by simpa using hchildren, ?_, ?_⟩, ?_⟩
  · exact h.madeAt hwithin (by simp [hcells]) (Cell.piece_eq_of_item hfirst) (by decide)
  · exact h.madeAt hwithin (by simp [hcells]) (Cell.piece_eq_of_item hlast) (by decide)
  · cases closing with
    | none =>
      obtain rfl := map_eq_nil_iff.mp hends
      exact .nil
    | some word =>
      obtain ⟨keyword, ends, rfl, hkeyword, hends⟩ := map_eq_cons_iff.mp hends
      obtain rfl := map_eq_nil_iff.mp hends
      refine .cons ?_ .nil
      exact h.madeAt hwithin (by simp [hcells]) (Cell.piece_eq_of_item hkeyword) (by decide)

/-! ## Directives that are taken -/

omit h in
/-- What a word does in a row can be read off its token. -/
theorem takes_of_seizes (hus : normal.Standing true parent us)
    {ck : Cell} {vs : List Id} (hck : us[j]? = some ck) (hc : us[i]? = some c) (hlt : j < i)
    (hbetween : ∀ m ∈ vs, normal.ShowsBetween (Cell.items us) j i m)
    (hseizes : Row.Seizes (Cell.items us) j i ck.item)
    (ht : normal.tokens[ck.id]? = some t) (hshows : t.Shows ck.piece (ids ck.inside)) :
    normal.Takes t vs c.id := by
  have hupper : t.upper = ck.item.value.upper := by rw [hshows.upper, value_item]
  cases hseizes with
  | immediate hkey => exact .immediate (hupper ▸ hkey)
  | message hkey => exact .message (hupper.trans hkey)
  | condition hhead hafter free =>
    refine .condition (hupper ▸ Piece.ofWord?_of_head? hhead) hafter fun m hm => ?_
    obtain ⟨u, x, children, l, hu, hlooks, hjl, hli, hl⟩ := hbetween m hm
    exact ⟨u, hu, (hlooks.isOperator _).trans (free hjl hli hl)⟩
  | pass hhead hpass hle =>
    rw [value_item] at hle
    obtain ⟨u, parts, hu, -, huparts, hmem⟩ := hus.mem_parts hck hc hlt hle
    cases hu.symm.trans ht
    exact .pass (hupper ▸ Piece.ofWord?_of_head? hhead) hpass huparts hmem

section

variable {opening : Text} (hvisited : Visited normal cs out us opening) (hc : us[i]? = some c)
include hvisited hc

/-- A word that overtakes a directive in a row has taken it in the document. -/
theorem overtaken_of_overtakes (hword : c.piece.kind = .identifier)
    (hover : Row.Overtakes (Cell.items us) j i k)
    (hacted : Row.Acted k y) (hy : Cell.Found out y) {z : Item} (hz : Cell.Found out z)
    (hlabel : z.value.label = some c.id)
    (hsame : z.value.kind = .whitespace ∨
      z.value.kind = .identifier ∧ z.value.text = c.piece.text) :
    normal.Overtaken target c.id := by
  obtain ⟨parent, hus, hscope⟩ := hvisited.standing
  obtain ⟨ck, hck, rfl⟩ := Cell.exists_of_getElem?_items hover.word
  obtain ⟨xs, vs, ws, hsplit, hbetween⟩ := hus.exists_between hck hc hover.lt
  have hmem := mem_of_getElem? hck
  have hkind : ck.piece.kind = .identifier := value_item ck ▸ hover.kind
  obtain ⟨t, ht, hshows⟩ := hus.row.looks ck hmem
  constructor
  · obtain ⟨-, t', children, ht', hshows'⟩ := h.exists_token_of_label hy
      (by rw [hacted.label, value_item]; exact hvisited.labels ck hmem)
    refine ⟨parent, xs, ck.id, vs, ws, t, t', hsplit ▸ hscope, ht, hshows.kind.trans hkind,
      fun m hm => ?_, takes_of_seizes hus hck hc hover.lt hbetween hover.seizes ht hshows, ht',
      hshows'.kind.trans hacted.kind, ?_⟩
    · obtain ⟨u, x, children, l, hu, hlooks, hjl, hli, hl⟩ := hbetween m hm
      exact ⟨u, hu, hlooks.isNewline.trans (hover.line hjl hli hl)⟩
    · rw [hshows'.text_eq (by simp [hacted.kind]), hshows.text_eq (by simp [hkind])]
      intro heq
      refine hacted.text ?_
      rw [value_item]
      exact Option.some.inj heq
  · obtain ⟨t, ht, hshows⟩ := hus.row.looks c (mem_of_getElem? hc)
    obtain ⟨-, t', children, ht', hshows'⟩ := h.exists_token_of_label hz hlabel
    refine ⟨t, t', ht, ht', ?_⟩
    rcases hsame with hspace | ⟨hident, htext⟩
    · exact .inl (hshows'.kind.trans hspace)
    · refine .inr ⟨hshows'.kind.trans hident, ?_⟩
      rw [hshows'.text_eq (by simp [hident]), hshows.text_eq (by simp [hword]), htext]

/-- A directive in a row that the walk comes to opens a block, or a word has taken it. -/
theorem opens_or_overtaken_of_visited (hfenced : Row.Fenced (Cell.items us))
    (hhead : c.piece.head? = some head) (hparts : c.piece.parts ≠ none) :
    target.Opens head c.id ∨ normal.Overtaken target c.id ∧
      ∃ t, target.tokens[c.id]? = some t ∧ Retarget.closingKeyword? t.upper = none := by
  have hword := Piece.kind_of_head? hhead
  have hlabel : c.item.value.label = some c.id := by
    rw [value_item]
    exact hvisited.labels c (mem_of_getElem? hc)
  have hpending : Row.Pending c.item := .directive (by rw [value_item]; exact hhead)
  rcases Row.opens_or_overtaken hvisited.tame hfenced opening [] (Cell.getElem?_items hc)
    (by rwa [value_item]) hpending with ⟨head', hhead', hself⟩ | ⟨hself, hover⟩
  · rw [value_item, hhead] at hhead'
    cases hhead'
    have hsame : (Item.setText head.opener c.item).value.kind = .identifier := by
      rw [Item.value_setText, Piece.kind_setText, value_item, hword]
    have hne : (Item.setText head.opener c.item).value.kind ≠ .container := by
      rw [hsame]
      decide
    obtain ⟨-, t, children, ht, hshows⟩ :=
      h.exists_token_of_label (hvisited.found_self hself hne) hlabel
    exact .inl ⟨t, ht, hshows.kind.trans hsame, hshows.text_eq hne⟩
  · obtain ⟨j, k, hovertakes, y, hy, hacted⟩ := hover (by rw [value_item]; exact hword)
    obtain ⟨z, hz, hzlabel, hclosing, hsame⟩ := hself c.id hlabel
    have hfound {kind : Kind} {w : Item} (hw : w ∈ Row.retargetRow opening [] (Cell.items us))
        (hkind : w.value.kind = kind) (hleaf : kind ≠ .container) : Cell.Found out w :=
      hvisited.found_self hw (hkind ▸ hleaf)
    have hzfound : Cell.Found out z := by
      rcases hsame with hspace | ⟨hident, -⟩
      · exact hfound hz hspace (by decide)
      · exact hfound hz hident (by decide)
    obtain ⟨-, t, children, ht, hshows⟩ := h.exists_token_of_label hzfound hzlabel
    refine .inr ⟨?_, t, ht, by rw [hshows.upper, hclosing]⟩
    exact h.overtaken_of_overtakes hvisited hc hword hovertakes hacted
      (hfound hy hacted.kind (by decide)) hzfound hzlabel
      (hsame.imp_right fun hword => ⟨hword.1, value_item c ▸ hword.2.2⟩)

omit hc in
/-- The body of a directive is a group on lines of its own, up to the keyword that ends the block of
the directive, as the directive is written in the target; or it is swallowed. -/
theorem setApart_or_swallowed {b : Cell} (hb : b ∈ us) (hkind : b.piece.kind = .container)
    (howner : target.bodyOwner? b.id = some c.id) (ht : target.tokens[c.id]? = some t) :
    (∃ ending, target.SetApart normal.newline b.id ending ∧
      List.Forall₂ (fun i word => target.MadeAt i .identifier word) ending
        (Retarget.closingKeyword? t.upper).toList) ∨
    normal.Swallowed target b.id := by
  refine (h.becomes_or_swallowed hvisited hb hkind).imp_left ?_
  rintro ⟨y, hy, hbecomes⟩
  have hylabel : y.value.label = some b.id := by
    rw [hbecomes.label, value_item]
    exact hvisited.labels b hb
  have hykind : y.value.kind = .container := by
    rcases hbecomes.kind with hsame | ⟨hne, -⟩
    · rw [hsame, value_item, hkind]
    · exact absurd hkind (value_item b ▸ hne)
  have hbodied := Row.bodied_retargetRow hvisited.tame
    (hvisited.within.row (h.standing.foretold h.evolves)) opening y hy hykind
  rw [hylabel, Option.bind_some, howner] at hbodied
  obtain ⟨hopening, hclosing, p, hp, hplabel, hrole⟩ := hbodied
  obtain ⟨z, hz, rfl⟩ := mem_map.mp hp
  have hzlabel : (Row.descend normal.newline z).value.label = some c.id := by
    rw [Row.value_descend]
    exact hplabel
  obtain ⟨-, t', children, ht', hshows⟩ := h.exists_token_of_label (hvisited.found z hz) hzlabel
  obtain rfl := Option.some.inj (ht'.symm.trans ht)
  have hupper : t'.upper = z.value.upper := by rw [hshows.upper, Row.value_descend]
  rw [hupper]
  exact h.setApart_of_found (hvisited.found y hy) hylabel hykind hopening hclosing hrole

/-- A directive with a body in a row that the walk comes to. -/
theorem block_of_visited (hmarked : Row.Marked (Cell.items us))
    (hhead : c.piece.head? = some head) (hbody : c.piece.body = true) :
    ∃ m b, c.piece.parts = some (m + 1) ∧ us[i + m + 1]? = some b ∧
      (target.Opens head c.id ∧
          (target.Closes normal.newline head b.id ∨ normal.Swallowed target b.id) ∨
        normal.Overtaken target c.id ∧
          (target.SetApart normal.newline b.id [] ∨ normal.Swallowed target b.id)) := by
  have hlabel : c.item.value.label = some c.id := by
    rw [value_item]
    exact hvisited.labels c (mem_of_getElem? hc)
  have hforetold := hvisited.within.row (h.standing.foretold h.evolves)
  obtain ⟨m, x, hparts, hx, hkind, howner⟩ := hforetold.head_of_body hmarked.fenced
    (Cell.getElem?_items hc) (by rwa [value_item]) hlabel
  obtain ⟨b, hb, rfl⟩ := Cell.exists_of_getElem?_items hx
  have hmem := mem_of_getElem? hb
  rw [value_item] at hparts hkind howner
  rw [hvisited.labels b hmem, Option.bind_some] at howner
  refine ⟨m, b, hparts, hb, ?_⟩
  rcases h.opens_or_overtaken_of_visited hvisited hc hmarked.fenced hhead (by simp [hparts]) with
    hopens | ⟨hovertaken, t, ht, hnone⟩
  · obtain ⟨t, ht, hkind', htext⟩ := hopens
    refine .inl ⟨⟨t, ht, hkind', htext⟩, ?_⟩
    refine (h.setApart_or_swallowed hvisited hmem hkind howner ht).imp_left ?_
    have hkeyword : Retarget.closingKeyword? t.upper = some (Row.closingLine head) := by
      rw [Token.upper, Token.words, htext]
      exact Row.closingKeyword?_opener head
    rw [hkeyword]
    rintro ⟨ending, hapart, hmade⟩
    obtain ⟨keyword, rfl⟩ := length_eq_one_iff.mp hmade.length_eq
    exact ⟨keyword, hapart, (forall₂_cons.mp hmade).1⟩
  · refine .inr ⟨hovertaken, ?_⟩
    refine (h.setApart_or_swallowed hvisited hmem hkind howner ht).imp_left ?_
    rw [hnone]
    rintro ⟨ending, hapart, hmade⟩
    obtain rfl := forall₂_nil_right_iff.mp hmade
    exact hapart

end

end Retargeted

/-! ## The document -/

theorem Normalized.marked {f : Forest}
    (h : Normalized d f normal cs) (hus : Nest.Within us cs) : Row.Marked (Cell.items us) := by
  have hrows := Row.throughout_marked_normal f.throughout_unmarked
  rw [← h.items] at hrows
  exact hus.row hrows.of_map

/-- A token with a body has the mark of one, and the body is the last of its arguments. -/
theorem Document.Standing.body_eq (h : Standing true d parent us) {b : Id} (hc : us[i]? = some c)
    (ht : d.tokens[c.id]? = some t) (hbody : t.body = some b) :
    c.piece.body = true ∧
      ∀ {m v}, c.piece.parts = some (m + 1) → us[i + m + 1]? = some v → v.id = b := by
  obtain ⟨xs, ys, rfl, rfl⟩ := exists_split_of_getElem? hc
  obtain ⟨u, hu, hfits⟩ := h.row.holds
  cases hu.symm.trans ht
  have hlast := (hfits.marks rfl).body
  rw [hbody] at hlast
  have hpiece : c.piece.body = true := by
    by_contra hne
    rw [if_neg hne] at hlast
    cases hlast
  refine ⟨hpiece, fun {m v} hparts hv => ?_⟩
  rw [Nat.add_assoc, getElem?_append_right (Nat.le_add_right _ _), Nat.add_sub_cancel_left,
    getElem?_cons_succ] at hv
  have hids : (ids ys)[m]? = some v.id := by
    rw [ids, getElem?_map, hv]
    rfl
  rw [if_pos hpiece, hparts, Option.getD_some, append_nil, getLast?_take,
    if_neg (Nat.succ_ne_zero m), Nat.add_sub_cancel, hids] at hlast
  exact (Option.some.inj hlast).symm

/-- **Every block that is opened is closed.** A token to which the normal form assigns a body is a
directive. In the target it opens a block, and its body closes it; or a word before the directive
has taken it, and it opens no block, and nothing ends its body; or the directive is in a group that
a message has swallowed. Either way its body may be swallowed by a message. -/
theorem converted_blocks {source : Text} {radix : Int} {d : Document}
    (h : read source radix = .ok d) :
    ∃ normal target, d.edit Edit.normalize = .ok normal ∧
      normal.edit Retarget.retarget = .ok target ∧ (∃ e : Terminator, normal.newline = e.text) ∧
      ∀ (i b : Id) (t : Token), normal.tokens[i]? = some t → t.body = some b →
        ∃ head, t.kind = .identifier ∧ Head.ofWord? t.upper = some head ∧
          (target.Opens head i ∧
              (target.Closes normal.newline head b ∨ normal.Swallowed target b) ∨
            normal.Overtaken target i ∧
              (target.SetApart normal.newline b [] ∨ normal.Swallowed target b) ∨
            ∃ j, normal.Swallowed target j ∧ normal.Encloses j i) := by
  obtain ⟨f, normal, cs, hnormal⟩ := exists_normalized h
  obtain ⟨target, out, htarget, hretargeted⟩ := hnormal.exists_retargeted
  refine ⟨normal, target, hnormal.edit, htarget, hnormal.newline, fun i b t ht hbody => ?_⟩
  have hplace : i ∈ Cell.places cs := by
    rw [hnormal.places]
    exact mem_range.mpr (Document.lt_size_of_getElem? ht)
  obtain ⟨v, hv, rfl⟩ := mem_map.mp hplace
  obtain ⟨us, hus, e, he, rfl⟩ := Nest.exists_within hv
  have hne := ne_nil_of_mem he
  obtain ⟨parent, hstanding, -⟩ := hnormal.standing.within (hnormal.root ▸ .root) hus hne
  have hmarked := Cell.marked_labelled (hnormal.marked hus)
  obtain ⟨c, hc, hid⟩ : ∃ c ∈ us.map labelled, c.id = e.value.1 :=
    ⟨labelled e, mem_map_of_mem he, Cell.id_labelled e⟩
  rw [← hid] at ht ⊢
  obtain ⟨i, hi⟩ := getElem?_of_mem hc
  obtain ⟨hpiece, hlast⟩ := hstanding.labelled.body_eq hi ht hbody
  obtain ⟨head, hhead⟩ := hmarked.heads c.item (mem_map_of_mem hc) (by rwa [value_item])
  rw [value_item] at hhead
  obtain ⟨t', ht', hshows⟩ := hstanding.labelled.row.looks c hc
  cases ht'.symm.trans ht
  refine ⟨head, hshows.kind.trans (Piece.kind_of_head? hhead), ?_, ?_⟩
  · rw [hshows.upper]
    exact Piece.ofWord?_of_head? hhead
  rcases hretargeted.found_or_swallowed hus hne with ⟨opening, hvisited⟩ | hswallowed
  · obtain ⟨m, v, hparts, hv, hblock⟩ :=
      hretargeted.block_of_visited hvisited hi hmarked hhead hpiece
    obtain rfl := hlast hparts hv
    rcases hblock with hopened | hovertaken
    · exact .inl hopened
    · exact .inr (.inl hovertaken)
  · refine .inr (.inr (hswallowed _ ?_))
    rw [hid]
    exact Cell.ids_subset_places us (mem_map_of_mem he)

/-- A body inside a body, a directive in a message, a directive that one on the pass has among its
arguments, and a directive in an operand. -/
theorem converted_blocks_nested :
    ∃ d normal target, read (Text.ofString
        "IFN A,<DEFINE B,<C>\n>\nPRINTX IFE D,<E>\nIF1 F IFN G,<H>\nLDAI IFE I,<J>\n") 8 = .ok d ∧
      d.edit Edit.normalize = .ok normal ∧ normal.edit Retarget.retarget = .ok target ∧
      (∃ t ∈ normal.tokens, t.body.isSome = true) ∧
      ∀ (i b : Id) (t : Token), normal.tokens[i]? = some t → t.body = some b →
        ∃ head, t.kind = .identifier ∧ Head.ofWord? t.upper = some head ∧
          (target.Opens head i ∧
              (target.Closes normal.newline head b ∨ normal.Swallowed target b) ∨
            normal.Overtaken target i ∧
              (target.SetApart normal.newline b [] ∨ normal.Swallowed target b) ∨
            ∃ j, normal.Swallowed target j ∧ normal.Encloses j i) := by
  obtain ⟨d, hd, hany⟩ := exists_eq_ok_of_any
    (x := read (Text.ofString
      "IFN A,<DEFINE B,<C>\n>\nPRINTX IFE D,<E>\nIF1 F IFN G,<H>\nLDAI IFE I,<J>\n") 8)
    (p := fun d => (d.edit Edit.normalize).toOption.any fun normal =>
      normal.tokens.any fun t => t.body.isSome) (by decide +kernel)
  obtain ⟨normal, target, hnormal, htarget, -, hblocks⟩ := converted_blocks hd
  rw [hnormal] at hany
  obtain ⟨t, ht, hbody⟩ := Array.any_eq_true'.mp hany
  exact ⟨d, normal, target, hd, hnormal, htarget, ⟨t, ht, hbody⟩, hblocks⟩

/-- A directive on the pass has another directive among its arguments: the other opens no block, and
its body is put on lines of its own, but nothing ends it. -/
theorem converted_block_overtaken :
    ∃ d normal target t t' u last, read "IF1 DEFINE G<H>\n" 8 = .ok d ∧
      d.edit Edit.normalize = .ok normal ∧ normal.edit Retarget.retarget = .ok target ∧
      normal.tokens[2]? = some t ∧ t.upper = Head.keyword .define ∧ t.body = some 5 ∧
      target.tokens[2]? = some t' ∧ t'.text ≠ some (Head.opener .define) ∧
      target.tokens[5]? = some u ∧ u.kind = .container ∧ u.children = some [8, 6, 9] ∧
      target.tokens[9]? = some last ∧ last.kind = .whitespace := by
  obtain ⟨d, hd, hany⟩ := exists_eq_ok_of_any (x := read "IF1 DEFINE G<H>\n" 8)
    (p := fun d => (d.edit Edit.normalize).toOption.any fun normal =>
      (normal.edit Retarget.retarget).toOption.any fun target =>
        (normal.tokens[2]?.any fun t => t.upper = Head.keyword .define && t.body = some 5) &&
          (target.tokens[2]?.any fun t => t.text ≠ some (Head.opener .define)) &&
            (target.tokens[5]?.any fun t => t.kind = .container && t.children = some [8, 6, 9]) &&
              target.tokens[9]?.any fun t => t.kind = .whitespace) (by decide +kernel)
  obtain ⟨normal, hnormal, hany⟩ := exists_eq_ok_of_any hany
  obtain ⟨target, htarget, hany⟩ := exists_eq_ok_of_any hany
  simp only [Bool.and_eq_true, Option.any_eq_true, decide_eq_true_eq] at hany
  obtain ⟨⟨⟨⟨t, ht, hword, hbody⟩, t', ht', htext⟩, u, hu, hkind, hchildren⟩, last, hlast,
    hspace⟩ := hany
  exact ⟨d, normal, target, t, t', u, last, hd, hnormal, htarget, ht, hword, hbody, ht', htext, hu,
    hkind, hchildren, hlast, hspace⟩

end Macro10
