import Macro10.Proofs.Retargeted
import Macro10.Proofs.Row.Remarks

/-!
# Comments in the target

The comments of the target are comments of the source, with their texts and in their order. A
comment is missing if it is an argument of a directive on the pass, or in a group that a message has
swallowed (`converted_comments`).
-/

namespace Macro10

open List

variable {d normal : Document} {parent : Option Id} {cs us : List Cell} {p : Piece} {i : Id}
  {v : Id × Text} {c : Cell}

namespace Document

/-- The comment at the place, with its text. -/
def commentAt? (d : Document) (i : Id) : Option (Id × Text) :=
  d.tokens[i]?.bind fun t => if t.kind = .comment then t.text.map (i, ·) else none

/-- The comments that a walk meets, with their places. -/
def comments (d : Document) (parts : List Part) : List (Id × Text) :=
  (parts.filterMap Part.token?).filterMap d.commentAt?

/-- The token at `i` is an argument of a directive on the pass, and the directive has become a
condition in `d'`. -/
def Struck (d d' : Document) (i : Id) : Prop :=
  ∃ (k : Id) (t t' : Token) (head : Head) (parts : List Id),
    d.tokens[k]? = some t ∧ t.kind = .identifier ∧ Head.ofWord? t.upper = some head ∧
      head.isPass = true ∧ t.parts = some parts ∧ i ∈ parts ∧
      d'.tokens[k]? = some t' ∧ t'.kind = .identifier ∧ t'.text = some Retarget.conditional

variable {marked : Bool}

theorem commentAt?_eq {t : Token} {children : List Id}
    (ht : d.tokens[i]? = some t) (hshows : t.Shows p children) (hkind : p.kind = .comment) :
    d.commentAt? i = some (i, p.text) := by
  rw [commentAt?, ht, Option.bind_some, if_pos (hshows.kind.trans hkind), hshows.text, Piece.token,
    if_neg (by simp [hkind])]
  rfl

theorem Standing.commentAt?_eq_some (h : Standing marked d parent cs)
    (hi : i ∈ Cell.places cs) (hv : d.commentAt? i = some v) :
    v.1 = i ∧ ∃ p, (i, p) ∈ Nest.listing cs ∧ p.kind = .comment ∧ p.text = v.2 := by
  obtain ⟨u, hu, rfl⟩ := mem_map.mp hi
  obtain ⟨t, children, ht, hshows⟩ := h.exists_shows u hu
  by_cases hkind : u.2.kind = .comment
  · rw [commentAt?_eq ht hshows hkind] at hv
    cases hv
    exact ⟨rfl, u.2, hu, hkind, rfl⟩
  · rw [commentAt?, ht, Option.bind_some, if_neg (by rwa [hshows.kind])] at hv
    cases hv

end Document

/-! ## Comments stay comments -/

/-- The rules make no comments, and they do not change any. -/
theorem Row.inherited_comment (newline : Text) (ps : List Piece) :
    Inherited newline fun p => p.kind = .comment →
      ∃ q ∈ ps, q.kind = .comment ∧ q.text = p.text ∧ q.label = p.label where
  turned := by
    intro x y hx hy hkind
    cases hy with
    | blanked => cases hkind
    | spaced h | respelled h | operator h | word h | immediate h =>
      have hkind' : x.value.kind = .comment := hkind
      rw [h] at hkind'
      cases hkind'
    | entered before =>
      obtain ⟨hsame, htext, hlabel⟩ : (enter before x).value.kind = x.value.kind ∧
          (enter before x).value.text = x.value.text ∧
            (enter before x).value.label = x.value.label := by
        unfold enter entered
        cases roleAfter before x.value <;> exact ⟨rfl, rfl, rfl⟩
      obtain ⟨q, hq, hqkind, hqtext, hqlabel⟩ := hx (hsame.symm.trans hkind)
      exact ⟨q, hq, hqkind, hqtext.trans htext.symm, hqlabel.trans hlabel.symm⟩
    | braced =>
      have hsame : braced x = x := by
        unfold braced at hkind ⊢
        split at hkind
        · next hgroup =>
          simp only [Bool.and_eq_true, decide_eq_true_eq] at hgroup
          cases hgroup.1.1.symm.trans hkind
        · next hgroup => rw [if_neg hgroup]
      rw [hsame] at hkind ⊢
      exact hx hkind
  made := by
    intro kind text hmade hkind
    exact absurd hkind ((by decide : ∀ m ∈ madePieces, m.1 ≠ .comment) _ hmade)
  message := nofun
  newline := nofun
  closing := fun _ _ => nofun

namespace Retargeted

variable {target : Document} {out : List Cell} (h : Retargeted normal cs target out)
include h

theorem exists_comment (hp : (i, p) ∈ Nest.listing out) (hkind : p.kind = .comment) :
    i < normal.tokens.size ∧
      ∃ q, (i, q) ∈ Nest.listing cs ∧ q.kind = .comment ∧ q.text = p.text := by
  have hmem : p ∈ Nest.listing (Row.retarget normal.newline []
      (Cell.items (cs.map Cell.labelled))) := by
    rw [← h.items, Cell.listing_items]
    exact mem_map_of_mem hp
  obtain ⟨q, hq, hqkind, htext, hlabel⟩ := (Row.inherited_comment normal.newline
    (Nest.listing (Cell.items (cs.map Cell.labelled)))).retarget
      (fun q hq hcomment => ⟨q, hq, hcomment, rfl, rfl⟩) [] p hmem hkind
  rw [Cell.label_of_traced h.traced h.standing.lt_size hp] at hlabel
  rw [Cell.listing_items, Cell.listing_labelled, List.map_map] at hq
  obtain ⟨v, hv, rfl⟩ := mem_map.mp hq
  by_cases hlt : i < normal.tokens.size
  · rw [if_pos hlt] at hlabel
    obtain rfl : v.1 = i := Option.some.inj hlabel
    exact ⟨hlt, v.2, hv, hqkind, htext⟩
  · rw [if_neg hlt] at hlabel
    cases hlabel

section

variable {opening : Text} (hvisited : Visited normal cs out us opening) {i : Nat}
include hvisited

/-- What a directive strikes in a row is struck in the document. -/
theorem struck_of_strikes {j : Nat} {k k' : Item}
    (hstrikes : Row.Strikes (Cell.items us) j i k) (hc : us[i]? = some c)
    (haged : Row.Aged k k') (hword : k'.value.kind = .identifier)
    (hfound : Cell.Found out (Item.setText Retarget.conditional k')) :
    normal.Struck target c.id := by
  obtain ⟨parent, hus, -⟩ := hvisited.standing
  obtain ⟨ck, hck, rfl⟩ := Cell.exists_of_getElem?_items hstrikes.word
  obtain ⟨head, hhead, hpass⟩ := hstrikes.pass
  rw [Cell.value_item] at hhead
  obtain ⟨t, parts, ht, hshows, htparts, hmem⟩ :=
    hus.mem_parts hck hc hstrikes.lt (Cell.value_item ck ▸ hstrikes.le)
  have hlabel : k'.value.label = some ck.id := by
    rw [haged.label, Cell.value_item]
    exact hvisited.labels ck (mem_of_getElem? hck)
  obtain ⟨-, t', children, ht', hshows'⟩ := h.exists_token_of_label hfound hlabel
  refine ⟨ck.id, t, t', head, parts, ht, hshows.kind.trans (Piece.kind_of_head? hhead), ?_, hpass,
    htparts, hmem, ht', hshows'.kind.trans hword, hshows'.text_eq ?_⟩
  · rw [hshows.upper]
    exact Piece.ofWord?_of_head? hhead
  · rw [Item.value_setText, Piece.kind_setText, hword]
    decide

/-- A comment in a row that the walk comes to is a comment in the target, or it is struck. -/
theorem comment_or_struck (hc : c ∈ us) (hkind : c.piece.kind = .comment) :
    c.id ∈ Cell.places out ∧ target.commentAt? c.id = some (c.id, c.piece.text) ∨
      normal.Struck target c.id := by
  obtain ⟨i, hi⟩ := getElem?_of_mem hc
  rcases Row.remains_retargetRow hvisited.tame opening [] (Cell.getElem?_items hi)
    (by rwa [Cell.value_item]) with hmem | ⟨j, k, k', hstrikes, haged, hword, hmem⟩
  · -- The comment is in the row as it was.
    obtain ⟨hplace, t, children, ht, hshows⟩ := h.exists_token_of_label
      (hvisited.found_self hmem (by simp [hkind])) (i := c.id) (by simp [hvisited.labels c hc])
    rw [Cell.value_item] at hshows
    exact .inl ⟨hplace, Document.commentAt?_eq ht hshows hkind⟩
  · refine .inr (h.struck_of_strikes hvisited hstrikes hi haged hword (hvisited.found_self hmem ?_))
    rw [Item.value_setText, Piece.kind_setText, hword]
    decide

end

/-- The comments of the target are comments of the normal form, in their order. -/
theorem comments_sublist : ((Cell.places out).filterMap target.commentAt?).Sublist
    ((Cell.places cs).filterMap normal.commentAt?) := by
  -- A comment is no white space, so it is met where it was met before.
  have hsolid : ∀ i ∈ Cell.places out, ∀ v, target.commentAt? i = some v →
      (i < normal.tokens.size && target.isSolid i) = true ∧ normal.commentAt? i = some v := by
    intro i hi v hv
    obtain ⟨hplace, p, hp, hkind, htext⟩ := h.outStanding.commentAt?_eq_some hi hv
    obtain ⟨hlt, q, hq, hqkind, hqtext⟩ := h.exists_comment hp hkind
    obtain ⟨t, children, ht, hshows⟩ := h.standing.exists_shows _ hq
    obtain ⟨t', ht', hkind'⟩ := h.outStanding.exists_kind _ hp
    constructor
    · simp [Document.isSolid, hlt, ht', hkind', hkind]
    · rw [Document.commentAt?_eq ht hshows hqkind, hqtext, htext, ← hplace]
  have hfilter : (Cell.places out).filterMap target.commentAt? =
      ((Cell.places out).filter fun i => i < normal.tokens.size && target.isSolid i).filterMap
        target.commentAt? := by
    rw [filterMap_filter]
    refine filterMap_congr fun i hi => ?_
    cases hv : target.commentAt? i with
    | none => simp
    | some v => rw [if_pos (hsolid i hi v hv).1]
  have hsublist := Document.sublist_of_conveyed h.standing h.outStanding h.traced h.conveyed
  rw [hfilter]
  refine List.Sublist.trans ?_ (hsublist.filterMap normal.commentAt?)
  have hmem : ∀ i ∈ (Cell.places out).filter fun i => i < normal.tokens.size && target.isSolid i,
      ∀ v, target.commentAt? i = some v → normal.commentAt? i = some v := fun i hi v hv =>
    (hsolid i (mem_filter.mp hi).1 v hv).2
  generalize (Cell.places out).filter _ = ids at hmem
  induction ids with
  | nil => exact .slnil
  | cons i ids ih =>
    obtain ⟨hi, hids⟩ := forall_mem_cons.mp hmem
    cases hv : target.commentAt? i with
    | none =>
      rw [filterMap_cons_none hv]
      exact (ih hids).trans ((sublist_cons_self i ids).filterMap _)
    | some v =>
      rw [filterMap_cons_some hv, filterMap_cons_some (hi v hv)]
      exact (ih hids).cons_cons v

end Retargeted

/-! ## Comments of the source -/

theorem Normalized.commentAt?_eq {f : Forest} (h : Normalized d f normal cs)
    (hi : i ∈ Cell.places cs) : d.commentAt? i = normal.commentAt? i := by
  obtain ⟨v, hv, rfl⟩ := mem_map.mp hi
  obtain ⟨p, hp, hsettles⟩ := h.exists_read hv
  obtain ⟨t, children, ht, hshows⟩ := h.read.exists_shows _ hp
  obtain ⟨t', children', ht', hshows'⟩ := h.standing.exists_shows _ hv
  by_cases hkind : p.kind = .comment
  · have hne : p.kind ≠ .operator := by simp [hkind]
    rw [Document.commentAt?_eq ht hshows hkind, Document.commentAt?_eq ht' hshows'
      ((hsettles.kind_eq hne).trans hkind), hsettles.text_eq hne]
  · have hkind' : v.2.kind ≠ .comment := fun hcomment =>
      hkind (hsettles.of_kind_eq hcomment (by decide))
    rw [Document.commentAt?, Document.commentAt?, ht, ht', Option.bind_some, Option.bind_some,
      if_neg (by rwa [hshows.kind]), if_neg (by rwa [hshows'.kind])]

theorem Document.fst_of_commentAt? (h : d.commentAt? i = some v) : v.1 = i := by
  obtain ⟨t, -, ht⟩ := Option.bind_eq_some_iff.mp h
  split at ht
  · obtain ⟨text, -, rfl⟩ := Option.map_eq_some_iff.mp ht
    rfl
  · cases ht

/-- **Comments survive,** unless they are struck or swallowed. The comments that a walk through the
target meets are among those of the source, with the same texts and in the same order. A comment of
the source is met again, or it is an argument of a directive on the pass, or it is in a group that a
message has swallowed. Where there is none of these, the comments are all there. -/
theorem converted_comments {source : Text} {radix : Int} {d : Document}
    (h : read source radix = .ok d) :
    ∃ normal target before after, d.edit Edit.normalize = .ok normal ∧
      normal.edit Retarget.retarget = .ok target ∧ d.Walk d.root before ∧
      target.Walk target.root after ∧
      (target.comments after).Sublist (d.comments before) ∧
      (∀ v ∈ d.comments before, v ∈ target.comments after ∨ normal.Struck target v.1 ∨
        ∃ j, normal.Swallowed target j ∧ normal.Encloses j v.1) ∧
      ((∀ v ∈ d.comments before, ¬normal.Struck target v.1 ∧
        ∀ j, normal.Swallowed target j → ¬normal.Encloses j v.1) →
          target.comments after = d.comments before) := by
  obtain ⟨f, normal, cs, hnormal⟩ := exists_normalized h
  obtain ⟨target, out, htarget, hretargeted⟩ := hnormal.exists_retargeted
  have hbefore : d.comments (Cell.parts (f.cells 0)) =
      (Cell.places cs).filterMap normal.commentAt? := by
    rw [Document.comments, Cell.filterMap_token?_parts, hnormal.places_cells]
    exact filterMap_congr fun i hi => hnormal.commentAt?_eq hi
  have hafter : target.comments (Cell.parts out) =
      (Cell.places out).filterMap target.commentAt? := by
    rw [Document.comments, Cell.filterMap_token?_parts]
  have hsublist : (target.comments (Cell.parts out)).Sublist
      (d.comments (Cell.parts (f.cells 0))) := by
    rw [hbefore, hafter]
    exact hretargeted.comments_sublist
  have hcases : ∀ v ∈ d.comments (Cell.parts (f.cells 0)),
      v ∈ target.comments (Cell.parts out) ∨ normal.Struck target v.1 ∨
        ∃ j, normal.Swallowed target j ∧ normal.Encloses j v.1 := by
    intro v hv
    rw [hbefore] at hv
    obtain ⟨i, hi, hcomment⟩ := mem_filterMap.mp hv
    obtain ⟨rfl, p, hp, hkind, htext⟩ := hnormal.standing.commentAt?_eq_some hi hcomment
    obtain ⟨us, hus, c, hc, hvalue⟩ := Nest.exists_within hp
    obtain rfl : p = Cell.piece c := congrArg Prod.snd hvalue.symm
    have hid : Cell.id c = v.1 := congrArg Prod.fst hvalue
    rcases hretargeted.found_or_swallowed hus (ne_nil_of_mem hc) with
      ⟨opening, hvisited⟩ | hswallowed
    · rcases hretargeted.comment_or_struck hvisited (mem_map_of_mem hc) (by simpa using hkind)
        with ⟨hplace, hat⟩ | hstruck
      · refine .inl ?_
        rw [hafter]
        refine mem_filterMap.mpr ⟨_, hplace, ?_⟩
        rw [hat, Cell.id_labelled, hid, Cell.piece_labelled, htext]
      · rw [Cell.id_labelled, hid] at hstruck
        exact .inr (.inl hstruck)
    · refine .inr (.inr (hswallowed v.1 ?_))
      rw [← hid]
      exact Cell.ids_subset_places us (mem_map_of_mem hc)
  refine ⟨normal, target, Cell.parts (f.cells 0), Cell.parts out, hnormal.edit, htarget,
    hnormal.readRoot ▸ hnormal.read.walk, hretargeted.outRoot ▸ hretargeted.outStanding.walk,
    hsublist, hcases, fun hfree => ?_⟩
  have hnodup : (d.comments (Cell.parts (f.cells 0))).Nodup := by
    rw [hbefore]
    refine hnormal.standing.distinct.filterMap fun i j v hi hj => ?_
    exact (Document.fst_of_commentAt? hi).symm.trans (Document.fst_of_commentAt? hj)
  refine hsublist.eq_of_length_le (hnodup.length_le_of_subset ?_)
  intro v hv
  obtain ⟨hstruck, hswallowed⟩ := hfree v hv
  rcases hcases v hv with hmem | hlost | ⟨j, hj, hencloses⟩
  · exact hmem
  · exact absurd hlost hstruck
  · exact absurd hencloses (hswallowed j hj)

/-- Comments after a body, inside a body, after a directive on the pass, and inside a message. -/
theorem converted_comments_body :
    ∃ d, read "IFN A,<B ;c\n> ;d\nIF1 ;e\nPRINTX <F ;g\n>\n" 8 = .ok d ∧
      ∃ normal target before after, d.edit Edit.normalize = .ok normal ∧
        normal.edit Retarget.retarget = .ok target ∧ d.Walk d.root before ∧
        target.Walk target.root after ∧
        (target.comments after).Sublist (d.comments before) ∧
        (∀ v ∈ d.comments before, v ∈ target.comments after ∨ normal.Struck target v.1 ∨
          ∃ j, normal.Swallowed target j ∧ normal.Encloses j v.1) ∧
        ((∀ v ∈ d.comments before, ¬normal.Struck target v.1 ∧
          ∀ j, normal.Swallowed target j → ¬normal.Encloses j v.1) →
            target.comments after = d.comments before) :=
  exists_eq_ok_and (by decide +kernel) converted_comments

/-- A directive on the pass without a body blanks out the comment after it. -/
theorem converted_comment_lost :
    ∃ d target, read "IF1 ;x\n" 8 = .ok d ∧
      (∃ t ∈ d.tokens, t.kind = .comment ∧ t.text = some (Text.ofString ";x")) ∧
      d.converted = .ok target ∧ ∀ t ∈ target.tokens, t.kind ≠ .comment := by
  obtain ⟨d, hd, hall⟩ := exists_eq_ok_of_any (x := read "IF1 ;x\n" 8)
    (p := fun d =>
      d.tokens.any (fun t => t.kind = .comment && t.text = some (Text.ofString ";x")) &&
      d.converted.toOption.any fun target => target.tokens.all fun t => t.kind ≠ .comment)
    (by decide +kernel)
  rw [Bool.and_eq_true] at hall
  obtain ⟨hany, htarget⟩ := hall
  obtain ⟨t, ht, hcomment⟩ := Array.any_eq_true'.mp hany
  rw [Bool.and_eq_true, decide_eq_true_eq, decide_eq_true_eq] at hcomment
  obtain ⟨target, hconverted, hkinds⟩ := exists_eq_ok_of_any htarget
  exact ⟨d, target, hd, ⟨t, ht, hcomment⟩, hconverted, fun t ht =>
    of_decide_eq_true (Array.all_eq_true'.mp hkinds t ht)⟩

end Macro10
