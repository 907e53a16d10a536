import Macro10.Proofs.Row.Carry
import Mathlib.Data.List.Count

/-!
# Nothing is lost, doubled or moved

If the items of a row have labels, then each label is there once after the walk, except for those
inside groups that a message has swallowed, and the labels of what is not white space are in the
order in which they were (`Conveyed`).
-/

namespace Macro10.Row

open List

variable {xs ys zs taken shown : List Item} {w x y : Item}

open Nest (listing listing_cons values_eq)

/-! ## Labels -/

/-- The labels of a row and of what is inside it, in order. -/
def labels (xs : List Item) : List Nat := (listing xs).filterMap Piece.label

/-- The labels of what is not white space. -/
def solidLabels (xs : List Item) : List Nat :=
  ((listing xs).filter fun p => !p.isSpacing).filterMap Piece.label

section

variable (x : Item) (xs ys : List Item)

@[simp] theorem labels_nil : labels [] = [] := rfl
@[simp] theorem solidLabels_nil : solidLabels [] = [] := rfl
@[simp] theorem labels_append : labels (xs ++ ys) = labels xs ++ labels ys := by simp [labels]

@[simp]
theorem solidLabels_append : solidLabels (xs ++ ys) = solidLabels xs ++ solidLabels ys := by
  simp [solidLabels]

@[simp]
theorem labels_cons : labels (x :: xs) = x.value.label.toList ++ labels x.inside ++ labels xs := by
  simp only [labels, listing_cons, values_eq, filterMap_append]
  cases hlabel : x.value.label <;> simp [hlabel, listing]

@[simp]
theorem solidLabels_cons : solidLabels (x :: xs) =
    (if x.value.isSpacing then [] else x.value.label.toList) ++ solidLabels x.inside ++
      solidLabels xs := by
  simp only [solidLabels, listing_cons, values_eq, filter_append, filterMap_append]
  cases hspace : x.value.isSpacing <;> cases hlabel : x.value.label <;>
    simp [hspace, hlabel, listing]

end

theorem labels_of_inside (h : ∀ x ∈ xs, x.inside = []) :
    labels xs = xs.filterMap (·.value.label) := by
  induction xs with
  | nil => rfl
  | cons x xs ih =>
    obtain ⟨hx, hxs⟩ := forall_mem_cons.mp h
    rw [labels_cons, hx, ih hxs]
    cases hlabel : x.value.label <;> simp [hlabel]

theorem labels_of_made (h : ∀ x ∈ xs, Made x) : labels xs = [] ∧ solidLabels xs = [] := by
  induction xs with
  | nil => exact ⟨rfl, rfl⟩
  | cons x xs ih =>
    obtain ⟨hx, hxs⟩ := forall_mem_cons.mp h
    obtain ⟨hlabels, hsolid⟩ := ih hxs
    simp [hx.label, hx.inside, hlabels, hsolid]

/-- The labels of a row are those of its items and those inside its groups. -/
theorem perm_labels (h : Leafy xs) :
    (xs.filterMap (·.value.label) ++
      (xs.filter (·.value.kind = .container)).flatMap fun x => labels x.inside).Perm
        (labels xs) := by
  induction xs with
  | nil => exact .refl _
  | cons x xs ih =>
    obtain ⟨hx, hxs⟩ := leafy_cons.mp h
    have hrest := perm_iff_count.mp (ih hxs)
    refine perm_iff_count.mpr fun l => ?_
    have hcount := hrest l
    have hlabel : (x :: xs).filterMap (·.value.label) =
        x.value.label.toList ++ xs.filterMap (·.value.label) := by
      cases hlabel : x.value.label <;> simp [hlabel]
    rw [hlabel, labels_cons]
    by_cases hkind : x.value.kind = .container
    · simp only [filter_cons, hkind, decide_true, if_true, flatMap_cons,
        count_append] at hcount ⊢
      omega
    · simp only [filter_cons, hkind, decide_false, Bool.false_eq_true, if_false, hx hkind,
        labels_nil, count_append, count_nil] at hcount ⊢
      omega

/-! ## Rows that have been carried over -/

/-- The item `w` stands on the line of a message, in the row or in a row inside it. -/
inductive InMessage : List Item → Item → Prop
  | here {us vs ws : List Item} {k w : Item} (hk : isMessage k = true)
      (hline : ∀ v ∈ vs, v.value.isNewline = false) : InMessage (us ++ k :: (vs ++ w :: ws)) w
  | inside {xs : List Item} {y w : Item} (hy : y ∈ xs) (h : InMessage y.inside w) : InMessage xs w

/-- The group `w` of `xs` is on the line of a message, and has become white space in `ys`. -/
structure Lost (xs ys : List Item) (w : Item) : Prop where
  message : InMessage xs w
  kind : w.value.kind = .container
  blank : ∀ l, w.value.label = some l → ∃ p ∈ listing ys, p.label = some l ∧ p.kind = .whitespace

/-- The items of `xs` are those of `ys`, in the same order, but for white space, for new items, and
for what was in groups that are lost. -/
structure Conveyed (xs ys : List Item) : Prop where
  order : (solidLabels ys).Sublist (labels xs)
  whole : ∃ lost : List Item, (∀ w ∈ lost, Lost xs ys w) ∧
    (labels ys ++ lost.flatMap fun w => labels w.inside).Perm (labels xs)

theorem InMessage.append (h : InMessage xs w) (us : List Item) : InMessage (us ++ xs) w := by
  cases h with
  | here hk hline =>
    rw [← append_assoc]
    exact .here hk hline
  | inside hy h => exact .inside (mem_append_right us hy) h

theorem InMessage.of_within {us : List Item} (h : InMessage us w) (hus : Nest.Within us xs) :
    InMessage xs w := by
  induction hus with
  | refl => exact h
  | inside hy _ ih => exact .inside hy ih

theorem InMessage.ne_nil (h : InMessage xs w) : xs ≠ [] := by
  cases h with
  | here => simp
  | inside hy => exact ne_nil_of_mem hy

namespace Lost

/-- What is lost from a row is lost from the rows around it. -/
theorem imp (h : Lost xs ys w) {us : List Item} (hmessage : InMessage us w)
    (hzs : listing ys ⊆ listing zs) : Lost us zs w where
  message := hmessage
  kind := h.kind
  blank := by
    intro l hl
    obtain ⟨p, hp, hlabel, hkind⟩ := h.blank l hl
    exact ⟨p, hzs hp, hlabel, hkind⟩

theorem append (h : Lost xs ys w) (us : List Item) (hzs : listing ys ⊆ listing zs) :
    Lost (us ++ xs) zs w := h.imp (h.message.append us) hzs

theorem within (h : Lost x.inside y.inside w) (xs ys : List Item) : Lost (x :: xs) (y :: ys) w := by
  refine h.imp (.inside mem_cons_self h.message) fun p hp => ?_
  rw [listing_cons, values_eq]
  exact mem_append_left _ (mem_cons_of_mem _ hp)

end Lost

namespace Swallows

variable (h : Swallows taken shown)
include h

theorem perm_labels : (labels shown ++ (taken.filter (·.value.kind = .container)).flatMap
    fun w => labels w.inside).Perm (labels taken) := by
  rw [labels_of_inside fun y hy => (h.blank y hy).elim Made.inside And.right]
  exact (h.perm.append_right _).trans (Row.perm_labels h.leafy)

theorem solidLabels_eq : solidLabels shown = [] := by
  refine filterMap_eq_nil_iff.mpr fun p hp => ?_
  obtain ⟨hmem, hsolid⟩ := mem_filter.mp hp
  obtain ⟨y, hy, hpy⟩ := mem_flatMap.mp hmem
  have hinside : y.inside = [] := (h.blank y hy).elim Made.inside And.right
  rw [values_eq, hinside] at hpy
  obtain rfl := mem_singleton.mp hpy
  rcases h.blank y hy with hmade | ⟨hspace, -⟩
  · exact hmade.label
  · simp [Piece.isSpacing, hspace] at hsolid

theorem exists_blank (hw : w ∈ taken) {l : Nat} (hl : w.value.label = some l) :
    ∃ y ∈ shown, y.value.label = some l ∧ y.value.kind = .whitespace := by
  have hmem : l ∈ shown.filterMap (·.value.label) :=
    h.perm.mem_iff.mpr (mem_filterMap.mpr ⟨w, hw, hl⟩)
  obtain ⟨y, hy, hlabel⟩ := mem_filterMap.mp hmem
  refine ⟨y, hy, hlabel, ?_⟩
  rcases h.blank y hy with hmade | ⟨hspace, -⟩
  · rw [hmade.label] at hlabel
    cases hlabel
  · exact hspace

theorem lost (hword : isMessage x = true) (hw : w ∈ taken)
    (hkind : w.value.kind = .container) (hsub : listing shown ⊆ listing ys) :
    Lost (x :: (taken ++ xs)) ys w where
  message := by
    obtain ⟨vs, ws, rfl⟩ := append_of_mem hw
    rw [append_assoc]
    show InMessage ([] ++ x :: (vs ++ w :: (ws ++ xs))) w
    exact .here hword fun v hv => h.line v (mem_append_left _ hv)
  kind := hkind
  blank := by
    intro l hl
    obtain ⟨y, hy, hlabel, hspace⟩ := h.exists_blank hw hl
    exact ⟨y.value, hsub (mem_flatMap.mpr ⟨y, hy, y.value_mem_values⟩), hlabel, hspace⟩

end Swallows

namespace Conveyed

theorem nil : Conveyed [] [] := ⟨.refl _, [], forall_mem_nil _, .refl _⟩

theorem congr (h : Conveyed xs ys) (hlabels : labels zs = labels ys)
    (hsolid : solidLabels zs = solidLabels ys) (hsub : listing ys ⊆ listing zs) :
    Conveyed xs zs := by
  obtain ⟨horder, lost, hlost, hperm⟩ := h
  exact ⟨hsolid ▸ horder, lost, fun w hw => (hlost w hw).append [] hsub, hlabels ▸ hperm⟩

theorem made (hy : Made y) (h : Conveyed xs ys) : Conveyed xs (y :: ys) := by
  refine h.congr (by simp [hy.label, hy.inside]) (by simp [hy.label, hy.inside]) ?_
  rw [listing_cons]
  exact subset_append_right _ _

theorem append_mades {vs : List Item} (h : Conveyed xs ys) (hvs : ∀ v ∈ vs, Made v) :
    Conveyed xs (ys ++ vs) := by
  obtain ⟨hlabels, hsolid⟩ := labels_of_made hvs
  refine h.congr (by simp [hlabels]) (by simp [hsolid]) ?_
  rw [Nest.listing_append]
  exact subset_append_left _ _

/-- An item in front, and items `taken` after it that have become `shown`. -/
theorem cons_append {swallowed : List Item} (hx : Becomes Conveyed x y) (h : Conveyed xs ys)
    (hswallowed : ∀ w ∈ swallowed, Lost (x :: (taken ++ xs)) (y :: (shown ++ ys)) w)
    (hsolid : solidLabels shown = [])
    (hshown : (labels shown ++ swallowed.flatMap fun w => labels w.inside).Perm (labels taken)) :
    Conveyed (x :: (taken ++ xs)) (y :: (shown ++ ys)) := by
  obtain ⟨lost, hlost, hperm⟩ := hx.inside.whole
  obtain ⟨lost', hlost', hperm'⟩ := h.whole
  have hsub : listing ys ⊆ listing (y :: (shown ++ ys)) := by
    rw [listing_cons, Nest.listing_append]
    exact fun p hp => mem_append_right _ (mem_append_right _ hp)
  refine ⟨?_, lost ++ swallowed ++ lost', ?_, perm_iff_count.mpr fun l => ?_⟩
  · rw [solidLabels_cons, solidLabels_append, hsolid, labels_cons, labels_append]
    refine (List.Sublist.append ?_ hx.inside.order).append (.append (nil_sublist _) h.order)
    split
    · exact nil_sublist _
    · rw [hx.label]
  · refine forall_mem_append.mpr ⟨forall_mem_append.mpr ⟨fun w hw => ?_, hswallowed⟩,
      fun w hw => (hlost' w hw).append (x :: taken) hsub⟩
    exact (hlost w hw).within _ _
  · have hcount := perm_iff_count.mp hperm l
    have hcount' := perm_iff_count.mp hperm' l
    have htaken := perm_iff_count.mp hshown l
    simp only [labels_cons, labels_append, hx.label, flatMap_append, count_append]
      at hcount hcount' htaken ⊢
    omega

theorem item (hx : Becomes Conveyed x y) (h : Conveyed xs ys) : Conveyed (x :: xs) (y :: ys) := by
  show Conveyed (x :: ([] ++ xs)) (y :: ([] ++ ys))
  exact cons_append hx h (forall_mem_nil _) solidLabels_nil (.refl _)

/-- The groups on the line of a message are lost, and nothing else. -/
theorem message (hword : isMessage x = true) (hx : Becomes Conveyed x y)
    (hshown : Swallows taken shown) (h : Conveyed xs ys) :
    Conveyed (x :: (taken ++ xs)) (y :: (shown ++ ys)) := by
  refine cons_append hx h (fun w hw => ?_) hshown.solidLabels_eq hshown.perm_labels
  obtain ⟨hw, hkind⟩ := mem_filter.mp hw
  refine hshown.lost hword hw (of_decide_eq_true hkind) ?_
  rw [listing_cons, Nest.listing_append]
  exact fun p hp => mem_append_right _ (mem_append_left _ hp)

theorem of_carried (h : Carried Conveyed xs ys) : Conveyed xs ys := by
  induction h with
  | nil => exact .nil
  | made hy _ ih => exact .made hy ih
  | item hx _ ih => exact .item hx ih
  | message hword hx hshown _ ih => exact .message hword hx hshown ih

end Conveyed

/-! ## Rows inside -/

/-- A group is filled with what it held, carried over, and perhaps with line terminators and a
keyword. -/
theorem Conveyed.refill (h : Conveyed xs ys) (newline : Text) (p : Piece) :
    Conveyed xs (refill newline p ys).inside := by
  unfold Row.refill
  split
  · exact h
  · next closing _ =>
    have hline : Made (Item.made .whitespace newline) := made_made (by decide) _
    refine .made hline (h.append_mades (forall_mem_cons.mpr ⟨hline, fun v hv => ?_⟩))
    cases closing with
    | none => cases hv
    | some closing =>
      obtain rfl := mem_singleton.mp hv
      exact made_made (by decide) _

section Descend

variable {newline : Text}

theorem becomes_descend (h : Becomes Eq x y) (hleaf : x.value.kind ≠ .container → x.inside = [])
    (hinside : ∀ opening, Conveyed x.inside (retarget newline opening x.inside)) :
    Becomes Conveyed x (descend newline y) where
  label := by rw [value_descend, h.label]
  kind := by rw [value_descend]; exact h.kind
  inside := by
    by_cases hy : y.value.kind = .container
    · rw [descend, if_pos hy, ← h.inside]
      exact (hinside _).refill newline y.value
    · rw [descend_of_kind_ne hy, ← h.inside]
      have hx : x.value.kind ≠ .container := by
        rcases h.kind with hkind | ⟨hx, -⟩
        · rwa [← hkind]
        · exact hx
      rw [hleaf hx]
      exact .nil

theorem Carried.descend (h : Carried Eq xs ys) (hleafy : Leafy xs)
    (hinside : ∀ x ∈ xs, ∀ opening, Conveyed x.inside (retarget newline opening x.inside)) :
    Carried Conveyed xs (ys.map (descend newline)) := by
  induction h with
  | nil => exact .nil
  | made hy _ ih =>
    rw [map_cons, descend_of_kind_ne hy.kind]
    exact .made hy (ih hleafy hinside)
  | item hx _ ih =>
    obtain ⟨hleaf, hleafy⟩ := leafy_cons.mp hleafy
    obtain ⟨hfirst, hrest⟩ := forall_mem_cons.mp hinside
    exact .item (becomes_descend hx hleaf hfirst) (ih hleafy hrest)
  | message hword hx hshown _ ih =>
    obtain ⟨hleaf, hleafy⟩ := leafy_cons.mp hleafy
    obtain ⟨hfirst, hrest⟩ := forall_mem_cons.mp hinside
    rw [map_cons, map_append, map_descend_of_kind_ne hshown.kind_ne]
    exact .message hword (becomes_descend hx hleaf hfirst) hshown
      (ih (leafy_append.mp hleafy).2 fun x hx => hrest x (mem_append_right _ hx))

end Descend

/-- **Retargeting a row loses, doubles and moves nothing**, but for what a message swallows. -/
theorem conveyed_retarget (h : Nest.Throughout Tame xs) (newline opening : Text) :
    Conveyed xs (retarget newline opening xs) := by
  induction h generalizing opening with
  | intro row _ ih =>
    rw [retarget_eq]
    exact .of_carried ((carried_retargetRow row opening []).descend row.leafy fun x hx => ih x hx)

end Macro10.Row
