import Macro10.Proofs.Retarget.Scope

/-!
# Groups and documents

A group is retargeted with all that is inside it. If it is the body of a directive it loses its
brackets and gets lines of its own; whether it is, the directive behind it knows.
-/

namespace Macro10.Retarget

open List
open Cell (ids items pieces places)
open Edit Document

variable {c : Cell} {cs : List Cell}

variable {t : Token}

variable {d d' : Document} {parent : Option Id} {s : Spot} {ahead : List Cell} {x : Cell}
  {fuel : Nat}

/-! ## The owner of a body -/

/-- The directive `c` has the group `x` for its body if `x` is the last of its arguments. -/
theorem body_eq_some_iff {us vs : List Cell}
    (hrow : d.Placed true parent [] ((us ++ c :: vs).reverse ++ x :: ahead) [])
    (hids : (ids (us ++ c :: vs) ++ ids (x :: ahead)).Nodup) (ht : d.tokens[c.id]? = some t) :
    t.body = some x.id ↔ c.piece.body = true ∧ c.piece.parts = some (us.length + 1) := by
  rw [reverse_append, reverse_cons, append_assoc, append_assoc, singleton_append] at hrow
  obtain ⟨u, hu, hfits⟩ := hrow.holds
  cases ht.symm.trans hu
  have hmarks := hfits.marks rfl
  have hplaces : ids (us.reverse ++ x :: ahead) ++ [] =
      (ids us).reverse ++ x.id :: ids ahead := by simp
  rw [hplaces] at hmarks
  have hnodup : ((ids us).reverse ++ x.id :: ids ahead).Nodup := by
    rw [Cell.ids_append, append_assoc] at hids
    have hshort := hids.sublist ((sublist_append_right (ids (c :: vs))
      (ids (x :: ahead))).append_left (ids us))
    exact ((reverse_perm _).append_right _).nodup_iff.mpr hshort
  have hhere : ((ids us).reverse ++ x.id :: ids ahead)[us.length]? = some x.id := by
    simp
  rw [hmarks.body]
  generalize (ids us).reverse ++ x.id :: ids ahead = places at hmarks hnodup hhere
  cases c.piece.body with
  | false => simp
  | true =>
    cases hparts : c.piece.parts with
    | none => simp
    | some n =>
      have hle := hmarks.parts_le n hparts
      cases n with
      | zero => simp
      | succ n =>
        have hn : n < places.length := hle
        have hlast : (places.take (n + 1)).getLast? = places[n]? := by
          simp [getLast?_take, hn]
        simp only [if_true, Option.getD_some, hlast, true_and, ← hhere, getElem?_inj hn hnodup]
        simp

theorem yields_bodyOwner? (h : Walking d s (x :: ahead))
    (ht : d.tokens[x.id]? = some t) :
    Yields (bodyOwner? x.id t) d fun owner d' => d' = d ∧
      (owner = none ∧ Row.roleAfter s.pieces x.piece = .inline ∨
        ∃ c ∈ s.before, owner = some c.id ∧
          Row.roleAfter s.pieces x.piece = .body (closingKeyword? c.piece.upper)) := by
  obtain ⟨u, hu, hfits⟩ := h.holds
  cases ht.symm.trans hu
  have hmarks := hfits.marks rfl
  unfold bodyOwner? Row.roleAfter
  rw [hmarks.owner]
  cases howner : x.piece.owner with
  | none => exact yields_pure ⟨rfl, .inl ⟨rfl, rfl⟩⟩
  | some k =>
    obtain ⟨parent, opening, before⟩ := s
    have hk : k < before.length := by simpa using hmarks.owner_lt k howner
    obtain ⟨us, c, vs, rfl, rfl⟩ : ∃ us c vs, before = us ++ c :: vs ∧ us.length = k :=
      ⟨before.take k, before[k], before.drop (k + 1), by simp, by simp [hk.le]⟩
    have hid : (some us.length).bind ((ids (us ++ c :: vs))[·]?) = some c.id := by
      simp [ids]
    have hpiece : (pieces (us ++ c :: vs))[us.length]? = some c.piece := by
      simp [pieces]
    obtain ⟨w, hw, -⟩ := h.looks c (by simp)
    rw [hid]
    refine yields_token_bind hw (yields_pure ⟨rfl, ?_⟩)
    simp only [hpiece, body_eq_some_iff h.row h.nodup_ids hw, Bool.and_eq_true, decide_eq_true_eq]
    split
    · exact .inr ⟨c, by simp, rfl, rfl⟩
    · exact .inl ⟨rfl, rfl⟩

/-! ## The row inside a group -/

/-- The row `inside` has been retargeted and stands as `out`. -/
structure Scoped (d d' : Document) (parent : Option Id) (inside out : List Cell) : Prop where
  standing : Standing false d' parent out
  kept : Kept (· ∈ places inside) d d'
  traced : Cell.Traced d.tokens.size inside out
  houses : Houses d d' out

theorem yields_retargetScope {group : Id → Edit Unit} {opening : Text} {inside : List Cell}
    (hgroup : GroupRule fuel group) (h : Walking d ⟨parent, opening, []⟩ inside)
    (hfuel : Cell.Within fuel inside) :
    Yields (retargetScope group (ids inside) parent) d fun new d' => ∃ out,
      Scoped d d' parent inside out ∧ new = ids out ∧
      items out = Row.retarget d.newline opening (items inside) := by
  refine (yields_retargetList hgroup h hfuel).bind ?_
  rintro _ d₁ ⟨front, out, hprogress, rfl, hitems⟩
  refine (yields_link hprogress.shown).bind ?_
  rintro _ d₂ ⟨hstanding, hkept, hsize⟩
  have hkept₁ := hprogress.kept
  rw [append_nil] at hkept₁
  refine yields_pure ⟨out, ⟨hstanding, hkept₁.trans hkept fun i hi hmem => ?_, hprogress.traced,
    hprogress.houses.trans (.of_size_eq hsize _) fun _ hi => hi⟩, rfl, ?_⟩
  · exact (hprogress.fresh i (Cell.ids_subset_places out hmem)).resolve_right (not_le.mpr hi)
  · rw [hitems, Row.retarget_eq]
    rfl

/-! ## Groups -/

/-- The cell of a group with other brackets, another role and other cells inside. -/
def refilled (opening closing : Text) (role : Role) (x : Cell) (cs : List Cell) : Cell :=
  .node (x.id, { x.piece with opening, closing, role }) cs

theorem holds_refilled {opening' closing' : Text} {role : Role}
    (hkind : x.piece.kind = .container) (ht : d.tokens[x.id]? = some t) (hd : d'.tokens[x.id]? =
      some { t with opening := opening', closing := closing', children := some (ids cs) })
    (before after : List Id) (h : d.Holds true parent before x after) :
    d'.Holds true parent before (refilled opening' closing' role x cs) after := by
  obtain ⟨u, hu, hfits⟩ := h
  cases ht.symm.trans hu
  exact ⟨_, hd, hfits.of_shows ⟨hfits.looks.kind, hfits.looks.text, rfl, rfl, (if_pos hkind).symm⟩
    rfl rfl⟩

theorem item_refilled (opening closing : Text) (role : Role) (cs : List Cell) :
    (refilled opening closing role x cs).item =
      .node { x.piece with opening, closing, role } (items cs) := by
  simp [refilled, Cell.item, items, Nest.map]

theorem yields_inline (hgroup : GroupRule fuel (retargetGroup fuel))
    (h : Walking d s (x :: ahead)) (hkind : x.piece.kind = .container)
    (hfuel : Cell.Within fuel x.inside) (ht : d.tokens[x.id]? = some t)
    (hrole : Row.roleAfter s.pieces x.piece = .inline) :
    Yields (do
      let children ← retargetScope (retargetGroup fuel) (t.children.getD []) (some x.id)
      update x.id fun t => { t with children := some children }) d fun _ d' => ∃ x',
      Progress d d' s [x] ahead [x'] ahead [x'] ∧
      x'.item = Row.descend d.newline (Row.enter s.pieces x.item) := by
  obtain ⟨u, hu, hfits⟩ := h.holds
  cases ht.symm.trans hu
  have hlooks := hfits.looks
  have hinside := h.inside
  have hnot : x.id ∉ places x.inside := by
    simpa using hinside.outside x.id rfl
  rw [hlooks.children, if_pos hkind, Option.getD_some]
  refine (yields_retargetScope hgroup hinside hfuel).bind ?_
  rintro _ d₁ ⟨out, hscoped, rfl, hitems⟩
  have ht₁ := hscoped.kept.getElem? ht hnot
  have hout : x.id ∉ places out := fun hmem => (hscoped.traced.fresh x.id hmem).elim hnot
    (not_le.mpr (lt_size_of_getElem? ht))
  refine yields_update (lt_size_of_getElem? ht₁)
    ⟨refilled x.piece.opening x.piece.closing .inline x out,
      .of_group h rfl hkind ?_ ?_ ?_ ?_ ?_, ?_⟩
  · have hwide : ∀ i ∈ places x.inside, i ∈ places [x] := by simp +contextual
    exact (hscoped.kept.mono fun i _ => hwide i).trans (.change d₁ x.id _ rfl)
      fun i _ hi => by simp [hi]
  · refine holds_refilled hkind ht ?_
    rw [getElem?_change_self ht₁, ← hlooks.opening, ← hlooks.closing]
  · exact hscoped.standing.kept (.change d₁ x.id _ rfl) fun i hi heq => hout (heq ▸ hi)
  · exact hscoped.traced
  · exact hscoped.houses.trans (.of_size_eq (size_change ..) _) fun _ hi => hi
  · rw [item_refilled, hitems, Row.descend_enter (by simpa using hkind)]
    simp [Row.entered, hrole, Row.refill]

theorem yields_closingTokens (ht : d.tokens[c.id]? = some t)
    (hlooks : t.Shows c.piece (ids c.inside)) (hshown : Shown d cs) :
    Yields (closingTokens c.id) d fun new d' => ∃ closing, new = ids closing ∧
      items closing = ((closingKeyword? c.piece.upper).map (Item.made .identifier)).toList ∧
      Shown d' (cs ++ closing) ∧ Kept (fun _ => False) d d' ∧
      Cell.Traced d.tokens.size [] closing ∧ Houses d d' closing := by
  refine yields_token_bind ht ?_
  rw [hlooks.upper]
  cases closingKeyword? c.piece.upper with
  | none => exact yields_pure ⟨[], rfl, rfl, by simpa using hshown, .refl _ d,
      .of_subset (nil_subset _), .of_size_eq rfl _⟩
  | some word =>
    refine yields_synthesize_bind (yields_pure
      ⟨[Cell.made d.tokens.size .identifier word], rfl, by simp, ?_, .extend _ d _, ?_,
        .insert [] (.of_size_eq rfl []) .identifier word⟩)
    · have hshown' : Shown d (cs ++ []) := by simpa using hshown
      exact hshown'.insert cs .identifier (by decide) word
    · exact Cell.Traced.insert [] (.of_subset (nil_subset _)) (le_rfl) .identifier word

/-- A body is written on lines of its own, and after it the keyword that closes it. -/
theorem yields_bodyLines {u : Token} {out : List Cell} (newline : Text) (hshown : Shown d out)
    (ht : d.tokens[c.id]? = some t) (hlooks : t.Shows c.piece (ids c.inside))
    (hu : d.tokens[x.id]? = some u) (hout : x.id ∉ places out) :
    Yields (do
      let first ← synthesize .whitespace newline
      let last ← synthesize .whitespace newline
      let closing ← closingTokens c.id
      let lines := first :: ids out ++ last :: closing
      update x.id fun t => { t with children := some lines }
      link lines (some x.id)) d fun _ d' => ∃ lines,
      Standing false d' (some x.id) lines ∧ Kept (fun i => i = x.id ∨ i ∈ places out) d d' ∧
      d'.tokens[x.id]? = some { u with children := some (ids lines) } ∧
      Cell.Traced d.tokens.size out lines ∧ Houses d d' lines ∧
      (∀ i ∈ places out, i ∈ places lines) ∧
      items lines = Item.made .whitespace newline :: items out ++
        Item.made .whitespace newline ::
          ((closingKeyword? c.piece.upper).map (Item.made .identifier)).toList := by
  refine yields_synthesize_bind (yields_synthesize_bind ?_)
  -- The two ends of lines stand before and after what is inside.
  have hfirst := hshown.insert [] .whitespace (by decide) newline
  rw [nil_append, ← append_nil (_ :: out)] at hfirst
  have hlast := hfirst.insert _ .whitespace (by decide) newline
  have hkept₂ := (Kept.extend (fun _ => False) d (Edit.made .whitespace newline)).trans
    (.extend (fun _ => False) _ (Edit.made .whitespace newline)) fun _ _ hi => hi
  refine (yields_closingTokens (hkept₂.getElem? ht id) hlooks hlast).bind ?_
  rintro _ d₃ ⟨closing, rfl, hclosing, hshown₃, hkept₃, htraced₃, hhouses₃⟩
  rw [append_assoc, singleton_append] at hshown₃
  have hkept : Kept (fun _ => False) d d₃ := hkept₂.trans hkept₃ fun _ _ hi => hi
  generalize hlines : Cell.made d.tokens.size .whitespace newline :: out ++
    Cell.made (d.extend (Edit.made .whitespace newline)).tokens.size .whitespace newline ::
      closing = lines at hshown₃
  have hids : d.tokens.size :: ids out ++
      (d.extend (Edit.made .whitespace newline)).tokens.size :: ids closing =
      ids lines := by
    rw [← hlines]
    simp [Cell.made]
  have htraced : Cell.Traced d.tokens.size out lines := by
    rw [← hlines]
    have hends : Cell.Traced d.tokens.size out
        (Cell.made d.tokens.size .whitespace newline :: out) :=
      .insert [] (.of_subset (List.Subset.refl _)) (le_rfl) .whitespace newline
    have hclosed := hends.append (htraced₃.mono hkept₂.size fun _ hv => hv)
    rw [append_nil] at hclosed
    exact hclosed.insert _ (by simp) .whitespace newline
  have hhouses : Houses d d₃ lines := by
    rw [← hlines]
    have hends : Houses d (d.extend (Edit.made .whitespace newline))
        (Cell.made d.tokens.size .whitespace newline :: out ++ []) := by
      rw [append_nil]
      exact .insert [] (.of_size_eq rfl out) .whitespace newline
    refine (hends.insert _ .whitespace newline).trans (hhouses₃.mono ?_) ?_
    · simp +contextual
    · intro i hi
      rw [append_cons, Cell.places_append]
      exact mem_append_left _ hi
  have hfresh := htraced.fresh
  rw [hids]
  have hx : x.id ∉ places lines := fun hmem => (hfresh _ hmem).elim hout
    (not_le.mpr (lt_size_of_getElem? hu))
  have hu₃ := hkept.getElem? hu id
  refine yields_update_bind (lt_size_of_getElem? hu₃) ?_
  have hkept₄ := Kept.change (P := (· = x.id)) d₃ x.id
    (fun t => { t with children := some (ids lines) }) rfl
  refine (yields_link (hshown₃.kept hkept₄ fun i hi heq => hx (heq ▸ hi))).mono ?_
  rintro _ d₅ ⟨hstanding, hkept₅, hsize₅⟩
  refine ⟨lines, hstanding, ?_, ?_, htraced, ?_, ?_, ?_⟩
  · refine ((hkept.mono fun _ _ hi => hi.elim).trans hkept₄ fun _ _ hi => .inl hi).trans hkept₅ ?_
    intro i hi hmem
    exact .inr ((hfresh i (Cell.ids_subset_places lines hmem)).resolve_right (not_le.mpr hi))
  · exact hkept₅.getElem? (getElem?_change_self hu₃ _) fun hmem =>
      hx (Cell.ids_subset_places lines hmem)
  · exact hhouses.trans (.of_size_eq (hsize₅.trans (size_change ..)) _) fun _ hi => hi
  · rw [← hlines]
    simp +contextual
  · rw [← hlines]
    simp [hclosing]

theorem yields_body (hgroup : GroupRule fuel (retargetGroup fuel))
    (h : Walking d s (x :: ahead)) (hkind : x.piece.kind = .container)
    (hfuel : Cell.Within fuel x.inside) (ht : d.tokens[x.id]? = some t) (hc : c ∈ s.before)
    (hrole : Row.roleAfter s.pieces x.piece = .body (closingKeyword? c.piece.upper)) :
    Yields (do
      update x.id fun t => { t with opening := [], closing := [] }
      let children ← retargetScope (retargetGroup fuel) (t.children.getD []) (some x.id)
      let newline := (← get).newline
      let first ← synthesize .whitespace newline
      let last ← synthesize .whitespace newline
      let closing ← closingTokens c.id
      let lines := first :: children ++ last :: closing
      update x.id fun t => { t with children := some lines }
      link lines (some x.id)) d fun _ d' => ∃ x',
      Progress d d' s [x] ahead [x'] ahead [x'] ∧
      x'.item = Row.descend d.newline (Row.enter s.pieces x.item) := by
  obtain ⟨u, hu, hfits⟩ := h.holds
  cases ht.symm.trans hu
  have hlooks := hfits.looks
  refine yields_update_bind (lt_size_of_getElem? ht) ?_
  have hedit : Walking (d.change x.id fun t => { t with opening := [], closing := [] }) s
      ([] ++ Cell.setPiece { x.piece with opening := [], closing := [] } x :: ahead) :=
    h.edit (Cell.rewrite_brackets x [] [])
  have hnot : x.id ∉ places x.inside := by
    simpa using h.inside.outside x.id rfl
  rw [hlooks.children, if_pos hkind, Option.getD_some]
  refine (yields_retargetScope hgroup hedit.inside hfuel).bind ?_
  rintro _ d₂ ⟨out, hscoped, rfl, hitems⟩
  refine Yields.bind (R := fun d d' => d = d₂ ∧ d' = d₂) ⟨d₂, d₂, rfl, rfl, rfl⟩ ?_
  rintro _ _ ⟨rfl, rfl⟩
  rename_i d₂
  have hkept : Kept (· ∈ places [x]) d d₂ := by
    refine (Kept.change d x.id _ (by simp)).trans hscoped.kept fun i _ hi => ?_
    simpa using .inr hi
  have hu := hscoped.kept.getElem?
    (getElem?_change_self ht fun t => { t with opening := [], closing := [] }) hnot
  have hout : x.id ∉ places out := fun hmem => (hscoped.traced.fresh x.id hmem).elim hnot
    (not_le.mpr (by simpa using lt_size_of_getElem? ht))
  -- The directive stands behind the group, so its keyword is still there.
  obtain ⟨w, hw, hcLooks⟩ := h.looks c (by simp [hc])
  have hbehind : c.id ∉ places [x] := by
    intro hmem
    have hdistinct := h.distinct
    rw [← singleton_append, Cell.places_append, nodup_append] at hdistinct
    exact hdistinct.2.2 c.id (mem_map_of_mem hc) c.id (mem_append_left _ hmem) rfl
  refine (yields_bodyLines _ hscoped.standing.shown (hkept.getElem? hw hbehind) hcLooks hu
    hout).mono ?_
  rintro _ d' ⟨lines, hstanding, hkept', htoken, htraced, hhouses, hout', hlines⟩
  have htraced₂ : Cell.Traced d.tokens.size x.inside out := by
    simpa using hscoped.traced
  have hnewline : d₂.newline = d.newline := hkept.newline
  refine ⟨refilled [] [] (.body (closingKeyword? c.piece.upper)) x lines,
    .of_group h rfl hkind ?_ (holds_refilled hkind ht htoken) hstanding ?_ ?_, ?_⟩
  · refine hkept.trans hkept' fun i hi hmem => ?_
    simp only [Cell.places_cons, Cell.places_nil, append_nil, mem_cons]
    exact hmem.imp_right fun hmem => (htraced₂.fresh i hmem).resolve_right (not_le.mpr hi)
  · exact htraced₂.trans htraced hkept.size
  · have hhouses₂ : Houses d d₂ out := by
      simpa [Houses] using hscoped.houses
    exact hhouses₂.trans hhouses hout'
  · rw [item_refilled, hlines, hitems, hnewline, Row.descend_enter (by simpa using hkind)]
    simp [Row.entered, hrole, Row.refill, Document.change]

theorem groupRule_retargetGroup (fuel : Nat) : GroupRule fuel (retargetGroup fuel) := by
  induction fuel with
  | zero => exact fun _ _ hfuel => absurd hfuel (Nat.not_lt_zero _)
  | succ fuel ih =>
    intro d s ahead x h hkind hfuel
    obtain ⟨t, ht, hfits⟩ := h.holds
    have hwithin : Cell.Within fuel x.inside := fun c hc =>
      (Cell.length_places_inside_lt hc).trans_le (Nat.le_of_lt_succ hfuel)
    refine yields_token_bind ht ((yields_bodyOwner? h ht).bind ?_)
    rintro owner _ ⟨rfl, ⟨rfl, hrole⟩ | ⟨c, hc, rfl, hrole⟩⟩
    · exact yields_inline ih h hkind hwithin ht hrole
    · exact yields_body ih h hkind hwithin ht hc hrole

/-! ## The document -/

theorem yields_retarget (h : Walking d ⟨none, [], []⟩ cs) (hroot : d.root = ids cs) :
    Yields retarget d fun _ d' => ∃ out, Standing false d' none out ∧ d'.root = ids out ∧
      d'.newline = d.newline ∧
      items out = Row.retarget d.newline [] (items cs) ∧
      Cell.Traced d.tokens.size cs out ∧ Houses d d' out := by
  refine Yields.bind (R := fun a d' => a = d ∧ d' = d) ⟨d, d, rfl, rfl, rfl⟩ ?_
  rintro _ _ ⟨rfl, rfl⟩
  rename_i d
  have hfuel : Cell.Within d.walkLimit cs := by
    intro c hc
    have hlt := Cell.length_places_inside_lt hc
    have hle := h.length_places_le
    unfold Document.walkLimit
    omega
  rw [hroot]
  refine (yields_retargetScope (groupRule_retargetGroup _) h hfuel).bind ?_
  rintro _ d₁ ⟨out, hscoped, rfl, hitems⟩
  refine ⟨(), { d₁ with root := ids out }, rfl, out, ?_, rfl, hscoped.kept.newline, hitems,
    hscoped.traced, hscoped.houses⟩
  exact ⟨hscoped.standing.row.congr fun _ _ => rfl,
    fun c hc => (hscoped.standing.nested c hc).congr fun _ _ => rfl, hscoped.standing.distinct⟩

end Macro10.Retarget
