import Macro10.Proofs.Document.Walk
import Macro10.Proofs.Document.WellFormed
import Macro10.Proofs.Settled
import Mathlib.Data.List.Nodup

/-!
# Conservation of code

Retargeting never loses, doubles or reorders code (`retarget_conserves`): afterwards a walk through
the document meets each of the old tokens once, but for what was in groups on the line of a message.
The rows say this of labels (`Proofs/Row/Conveyed`), which here are the places of the tokens.
-/

namespace Macro10

open List

namespace Document

open Cell (ids places)

/-- A walk through the group at `j` meets the token at `i`. -/
def Encloses (d : Document) (j i : Id) : Prop :=
  ∃ t children parts, d.tokens[j]? = some t ∧ t.children = some children ∧
    d.Walk children parts ∧ Part.token i ∈ parts

/-- The token at `j` is on the line of a message: the word for one stands before it among its
siblings, and no line ends in between. -/
def OnMessageLine (d : Document) (j : Id) : Prop :=
  ∃ parent before k between after t,
    d.Scope parent (before ++ k :: (between ++ j :: after)) ∧ d.tokens[k]? = some t ∧
      t.kind = .identifier ∧ t.upper = Keyword.message ∧
      ∀ i ∈ between, ∃ u, d.tokens[i]? = some u ∧ u.isNewline = false

/-- The group at `j` of `d` is on the line of a message, and is blanked out in `d'`. -/
structure Swallowed (d d' : Document) (j : Id) : Prop where
  group : ∃ t, d.tokens[j]? = some t ∧ t.kind = .container
  message : d.OnMessageLine j
  blank : ∃ t, d'.tokens[j]? = some t ∧ t.kind = .whitespace

/-- There is a token at `i`, and it is not white space. -/
def isSolid (d : Document) (i : Id) : Bool := d.tokens[i]?.any fun t => t.kind ≠ .whitespace

variable {d d' : Document} {parent : Option Id} {cs out : List Cell}

/-! ## Messages -/

theorem Standing.exists_cell_of_inMessage (h : Standing true d parent cs)
    (hscope : d.Scope parent (ids cs)) {w : Item}
    (hw : Row.InMessage (Cell.items (cs.map Cell.labelled)) w) :
    ∃ c, w = c.labelled.item ∧ d.OnMessageLine c.id ∧ d.Nested true c ∧ d.Looks c := by
  generalize hxs : Cell.items (cs.map Cell.labelled) = xs at hw
  rw [Cell.items, List.map_map] at hxs
  induction hw generalizing parent cs with
  | here hk hline =>
    obtain ⟨us, rest₁, rfl, -, h₁⟩ := map_eq_append_iff.mp hxs
    obtain ⟨k, rest₂, rfl, rfl, h₂⟩ := map_eq_cons_iff.mp h₁
    obtain ⟨vs, rest₃, rfl, rfl, h₃⟩ := map_eq_append_iff.mp h₂
    obtain ⟨c, ws, rfl, rfl, -⟩ := map_eq_cons_iff.mp h₃
    obtain ⟨t, ht, hshows⟩ := h.row.looks k (by simp)
    rw [Row.isMessage_iff, Function.comp_apply, Cell.value_item, Cell.piece_labelled] at hk
    refine ⟨c, rfl, ⟨parent, ids us, k.id, ids vs, ids ws, t, ?_, ht,
      hshows.kind.trans hk.1, hshows.upper.trans hk.2, ?_⟩, h.nested c (by simp),
      h.row.looks c (by simp)⟩
    · simpa using hscope
    · intro i hi
      obtain ⟨v, hv, rfl⟩ := mem_map.mp hi
      obtain ⟨u, hu, hlooks⟩ := h.row.looks v (by simp [hv])
      refine ⟨u, hu, hlooks.isNewline.trans ?_⟩
      have hend := hline _ (mem_map_of_mem hv)
      rw [Function.comp_apply, Cell.value_item, Cell.piece_labelled] at hend
      exact hend
  | @inside xs y w hy hw ih =>
    rw [← hxs] at hy
    obtain ⟨c, hc, rfl⟩ := mem_map.mp hy
    have hinside : (c.labelled.item).inside = c.inside.map (Cell.item ∘ Cell.labelled) := by
      simp [Cell.items]
    have hkind : c.piece.kind = .container := by
      by_contra hne
      refine hw.ne_nil ?_
      rw [Function.comp_apply, hinside, (h.nested c hc).leaf hne]
      rfl
    obtain ⟨t, ht, hshows⟩ := h.row.looks c hc
    have hchildren := hshows.children
    rw [if_pos hkind] at hchildren
    obtain ⟨xs, ys, rfl⟩ := append_of_mem hc
    exact ih h.inside (.children hscope (mem_map_of_mem hc) ht hchildren) hinside.symm

/-! ## What a walk meets -/

theorem Nested.encloses {marked : Bool} {c : Cell} (h : d.Nested marked c)
    (hlooks : d.Looks c)
    (hkind : c.piece.kind = .container) {i : Id} (hi : i ∈ places c.inside) :
    d.Encloses c.id i := by
  obtain ⟨t, ht, hshows⟩ := hlooks
  have hchildren := hshows.children
  rw [if_pos hkind] at hchildren
  have hwalk : d.Walk (ids c.inside) (Cell.parts c.inside) :=
    walk_cells fun x hx _ _ hrest => (h.all x hx).walk (h.row.looks x hx) hrest
  refine ⟨t, _, _, ht, hchildren, hwalk, ?_⟩
  rw [← Cell.filterMap_token?_parts] at hi
  obtain ⟨part, hpart, htoken⟩ := mem_filterMap.mp hi
  cases part with
  | token j =>
    cases htoken
    exact hpart
  | closing j => cases htoken

section Conveyed

variable {marked : Bool} (hcs : Standing true d none cs) (hroot : d.root = ids cs)
  (hout : Standing marked d' none out)
  (htraced : Cell.Traced d.tokens.size (cs.map Cell.labelled) out)
  (hconveyed : Row.Conveyed (Cell.items (cs.map Cell.labelled)) (Cell.items out))
include hcs hout htraced

include hroot in
/-- A group that is lost has been swallowed by a message. -/
theorem exists_swallowed {w : Item}
    (hlost : Row.Lost (Cell.items (cs.map Cell.labelled)) (Cell.items out) w) :
    ∃ j, w.value.label = some j ∧ d.Swallowed d' j ∧ ∀ i ∈ Row.labels w.inside, d.Encloses j i := by
  have hscope : d.Scope none (ids cs) := hroot ▸ .root
  obtain ⟨c, rfl, hmessage, hnested, hlooks⟩ := hcs.exists_cell_of_inMessage hscope hlost.message
  have hkind : c.piece.kind = .container := by simpa using hlost.kind
  refine ⟨c.id, by simp, ⟨?_, hmessage, ?_⟩, fun i hi => hnested.encloses hlooks hkind ?_⟩
  · obtain ⟨t, ht, hshows⟩ := hlooks
    exact ⟨t, ht, hshows.kind.trans hkind⟩
  · -- The label of the white space that the group has become is the place of the group.
    obtain ⟨p, hp, hlabel, hspace⟩ := hlost.blank c.id (by simp)
    rw [Cell.listing_items] at hp
    obtain ⟨v, hv, rfl⟩ := mem_map.mp hp
    obtain ⟨t, ht, htkind⟩ := hout.exists_kind v hv
    rw [Cell.label_of_traced htraced hcs.lt_size hv] at hlabel
    split at hlabel
    · rw [← Option.some.inj hlabel]
      exact ⟨t, ht, htkind.trans hspace⟩
    · cases hlabel
  · rw [Cell.inside_item, Cell.inside_labelled, Cell.labels_items_labelled] at hi
    exact hi

include hconveyed

/-- What is not white space is met in the order in which it was met before. -/
theorem sublist_of_conveyed :
    ((places out).filter fun i => i < d.tokens.size && d'.isSolid i).Sublist (places cs) := by
  have hsolid : ∀ v ∈ Nest.listing out, d'.isSolid v.1 = !v.2.isSpacing := by
    intro v hv
    obtain ⟨t, ht, hkind⟩ := hout.exists_kind v hv
    simp [isSolid, ht, hkind, Piece.isSpacing]
  have horder := hconveyed.order
  rwa [Cell.solidLabels_items_of_traced htraced hcs.lt_size hsolid,
    Cell.labels_items_labelled] at horder

include hroot in
/-- Each token is met once, or not at all if it was in a group that a message has swallowed. -/
theorem count_of_conveyed {i : Id} (hi : i ∈ places cs) :
    (places out).count i = 1 ∨
      (places out).count i = 0 ∧ ∃ j, d.Swallowed d' j ∧ d.Encloses j i := by
  obtain ⟨lost, hlost, hperm⟩ := hconveyed.whole
  rw [Cell.labels_items_of_traced htraced hcs.lt_size, Cell.labels_items_labelled] at hperm
  by_cases hmem : i ∈ places out
  · exact .inl (count_eq_one_of_mem hout.distinct hmem)
  · refine .inr ⟨count_eq_zero.mpr hmem, ?_⟩
    rcases mem_append.mp (hperm.mem_iff.mpr hi) with hkept | hgone
    · exact absurd (mem_filter.mp hkept).1 hmem
    · obtain ⟨w, hw, hin⟩ := mem_flatMap.mp hgone
      obtain ⟨j, -, hswallowed, henclosed⟩ := exists_swallowed hcs hroot hout htraced (hlost w hw)
      exact ⟨j, hswallowed, henclosed i hin⟩

end Conveyed

end Document

theorem Retargeted.conveyed {normal target : Document} {cs out : List Cell}
    (h : Retargeted normal cs target out) :
    Row.Conveyed (Cell.items (cs.map Cell.labelled)) (Cell.items out) := by
  rw [h.items]
  exact Row.conveyed_retarget h.tame _ _

/-- **Retargeting never loses, doubles or reorders code.** The tokens of the normal form stay at
their places and keep their positions; others are appended. A walk through the target meets each of
them once, except for those in a group that a message has swallowed, and what is not white space in
the order in which a walk through the normal form meets it. -/
theorem retarget_conserves {source : Text} {radix : Int} {d : Document}
    (h : read source radix = .ok d) :
    ∃ normal target, d.edit Edit.normalize = .ok normal ∧
      normal.edit Retarget.retarget = .ok target ∧
      (∀ (i : Id) (t : Token), normal.tokens[i]? = some t →
        ∃ t', target.tokens[i]? = some t' ∧ t'.position = t.position) ∧
      ∃ before after, normal.Walk normal.root before ∧ target.Walk target.root after ∧
        (∀ i < normal.tokens.size, (after.filterMap Part.token?).count i = 1 ∨
          (after.filterMap Part.token?).count i = 0 ∧
            ∃ j, normal.Swallowed target j ∧ normal.Encloses j i) ∧
        ((after.filterMap Part.token?).filter fun i =>
          i < normal.tokens.size && target.isSolid i).Sublist (before.filterMap Part.token?) := by
  obtain ⟨f, normal, cs, hnormal⟩ := exists_normalized h
  obtain ⟨target, out, htarget, hout⟩ := hnormal.exists_retargeted
  refine ⟨normal, target, hnormal.edit, htarget, fun i t ht => ?_, Cell.parts cs, Cell.parts out,
    ?_, ?_, fun i hi => ?_, ?_⟩
  · obtain ⟨t', ht', hevolves⟩ := hout.evolves.tokens ht
    exact ⟨t', ht', hevolves.position⟩
  · rw [hnormal.root]
    exact hnormal.standing.walk
  · rw [hout.outRoot]
    exact hout.outStanding.walk
  · rw [Cell.filterMap_token?_parts]
    refine Document.count_of_conveyed hnormal.standing hnormal.root hout.outStanding hout.traced
      hout.conveyed ?_
    rw [hnormal.places]
    exact mem_range.mpr hi
  · rw [Cell.filterMap_token?_parts, Cell.filterMap_token?_parts]
    exact Document.sublist_of_conveyed hnormal.standing hout.outStanding hout.traced hout.conveyed

/-- A directive with a body, a message that swallows a group with a group in it, and an immediate
instruction whose operand is a group. -/
theorem retarget_conserves_message :
    ∃ d, read "IFN A,<B>\nPRINTX C<D<E>> ;F\nLDAI <G>" 8 = .ok d ∧
      ∃ normal target, d.edit Edit.normalize = .ok normal ∧
        normal.edit Retarget.retarget = .ok target ∧
        (∀ (i : Id) (t : Token), normal.tokens[i]? = some t →
          ∃ t', target.tokens[i]? = some t' ∧ t'.position = t.position) ∧
        ∃ before after, normal.Walk normal.root before ∧ target.Walk target.root after ∧
          (∀ i < normal.tokens.size, (after.filterMap Part.token?).count i = 1 ∨
            (after.filterMap Part.token?).count i = 0 ∧
              ∃ j, normal.Swallowed target j ∧ normal.Encloses j i) ∧
          ((after.filterMap Part.token?).filter fun i =>
            i < normal.tokens.size && target.isSolid i).Sublist (before.filterMap Part.token?) :=
  exists_eq_ok_and (by decide +kernel) retarget_conserves

end Macro10
