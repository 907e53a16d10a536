import Macro10.Proofs.Document.Cursor

/-!
# Linking a row

After `link` the given tokens are siblings in the given order; nothing else about them changes, and
no other token does. Cells that are done stand in the document
then.
-/

namespace Macro10

open List

variable {d : Document} {parent : Option Id} {cs : List Cell}

open Cell (ids places places_append places_cons)

namespace Document

variable {d' : Document}

theorem Standing.nest {c : Cell} (h : Standing false d (some c.id) c.inside)
    (hkind : c.piece.kind = .container) : d.Nested false c :=
  ⟨fun hne => absurd hkind hne, h.row, h.nested⟩

theorem Standing.shown (h : Standing false d parent cs) : Shown d cs :=
  ⟨h.row.looks, h.nested, h.distinct⟩

/-- A group has got a new row inside: the walk goes on after it. -/
theorem Progress.of_group {s : Spot} {ahead : List Cell} {x x' : Cell}
    (hwalk : Walking d s (x :: ahead)) (htag : x'.tag = x.tag)
    (hkind : x'.piece.kind = .container)
    (hkept : Kept (· ∈ places [x]) d d')
    (hholds : ∀ before after, d.Holds true s.parent before x after →
      d'.Holds true s.parent before x' after)
    (hinside : Standing false d' (some x.id) x'.inside)
    (htraced : Cell.Traced d.tokens.size x.inside x'.inside) (hhouses : Houses d d' x'.inside) :
    Progress d d' s [x] ahead [x'] ahead [x'] := by
  have hid := Cell.id_eq_of_tag htag
  have hdistinct := hwalk.distinct
  rw [← singleton_append, places_append] at hdistinct
  obtain ⟨-, hrest, hbefore⟩ := nodup_append.mp hdistinct
  obtain ⟨hx, -, hahead⟩ := nodup_append.mp hrest
  have hsame : ∀ i ∈ ids s.before ++ places ahead, d'.tokens[i]? = d.tokens[i]? := by
    intro i hi
    refine hkept.tokens i (hwalk.lt_size i ?_) fun hmem => ?_
    · simp only [places_cons, mem_append] at hi ⊢
      exact hi.imp_right .inr
    · rcases mem_append.mp hi with hi | hi
      · exact hbefore i hi i (mem_append_left _ hmem) rfl
      · exact hahead i hmem i hi rfl
  have hids : ids [x'] = ids [x] := by simp [hid]
  have hwalk' := hwalk.step
  refine ⟨⟨?_, fun c hc => (hwalk.nested c (by simp [hc])).congr fun i hi => hsame i ?_, ?_, ?_, ?_,
    hwalk.top⟩, hkept.mono fun i _ hi => ?_, hids, .refl ahead, ⟨?_, ?_, ?_⟩, ?_,
    hhouses.mono (by simp +contextual)⟩
  · have hrow := hwalk.row.replace hid (fun i hi => hsame i ?_) (hholds _ _)
    · simpa using hrow
    · rw [Cell.ids_reverse] at hi
      simp only [mem_append, mem_reverse] at hi ⊢
      exact hi.imp_right fun hi => Cell.ids_subset_places _ hi
  · exact mem_append_right _ (Cell.places_inside_subset hc hi)
  · simpa [hid] using hwalk'.distinct
  · simpa [hid] using hwalk'.outside
  · intro i hi
    obtain ⟨t, ht, hopen⟩ := hwalk.opened i hi
    refine ⟨t, hkept.getElem? ht fun hmem => hwalk.outside i hi ?_, hopen⟩
    rw [← singleton_append, places_append]
    exact mem_append_right _ (mem_append_left _ hmem)
  · rw [places_append]
    exact mem_append_left _ hi
  · intro c hc
    obtain rfl := mem_singleton.mp hc
    obtain ⟨t, ht, hfits⟩ := hholds _ _ hwalk.holds
    exact ⟨t, ht, hfits.looks⟩
  · intro c hc
    obtain rfl := mem_singleton.mp hc
    rw [← hid] at hinside
    exact hinside.nest hkind
  · have hlt : x.id < d.tokens.size := hwalk.lt_size x.id (by simp)
    have hnot : x.id ∉ places x.inside := by
      rw [places_cons, cons_append, nodup_cons, mem_append, not_or] at hx
      exact hx.1.1
    rw [places_cons, Cell.places_nil, append_nil, hid, nodup_cons]
    exact ⟨fun hmem => (htraced.fresh x.id hmem).elim hnot (Nat.not_le.mpr hlt), hinside.distinct⟩
  · intro v hv
    simp only [Cell.tags_cons, Cell.tags_nil, append_nil, htag, mem_cons] at hv ⊢
    rcases hv with hv | hv
    · exact .inl (.inl hv)
    · exact (htraced v hv).imp_left .inr

/-- Without marks, all that counts of the places before a row is the nearest. -/
theorem Placed.of_head? {before before' after : List Id} (hhead : before'.head? = before.head?)
    (h : d.Placed false parent before cs after) : d.Placed false parent before' cs after := by
  induction cs generalizing before before' with
  | nil => trivial
  | cons c cs ih =>
    obtain ⟨⟨t, ht, hfits⟩, hrest⟩ := h
    have hnext : (c.id :: before').head? = (c.id :: before).head? := rfl
    refine ⟨⟨t, ht, hfits.looks, ⟨hfits.linked.parent, hhead ▸ hfits.linked.prev,
      hfits.linked.next⟩, fun hm => by cases hm⟩, ih hnext hrest⟩

end Document

namespace Edit

open Document

theorem yields_linkAfter {previous : Option Id}
    (hlooks : ∀ c ∈ cs, d.Looks c)
    (hprevious : ∀ i, previous = some i → i ∉ ids cs ∧ ∃ t, d.tokens[i]? = some t)
    (hnodup : (ids cs).Nodup) :
    Yields (linkAfter parent previous (ids cs)) d fun _ d' =>
      d'.Placed false parent previous.toList cs [] ∧
      Kept (fun i => i ∈ ids cs ∨ previous = some i) d d' ∧
      d'.tokens.size = d.tokens.size ∧
      ∀ i t, previous = some i → d.tokens[i]? = some t →
        d'.tokens[i]? = some { t with next := (ids cs).head?.or t.next } := by
  induction cs generalizing d previous with
  | nil => exact yields_pure ⟨trivial, .refl _ d, rfl, fun i t _ ht => ht⟩
  | cons c cs ih =>
    obtain ⟨⟨t, ht, hshows⟩, hcs⟩ := forall_mem_cons.mp hlooks
    obtain ⟨hnot, hnodup⟩ := nodup_cons.mp hnodup
    refine yields_update_bind (lt_size_of_getElem? ht) ?_
    -- The state in which the rest is linked, and what it still knows of the tokens.
    have hrest : ∀ d₂, Kept (fun i => i = c.id ∨ previous = some i) d d₂ →
        d₂.tokens.size = d.tokens.size →
        d₂.tokens[c.id]? = some { t with parent, prev := previous, next := none } →
        (∀ i u, previous = some i → d.tokens[i]? = some u →
          d₂.tokens[i]? = some { u with next := some c.id }) →
        Yields (linkAfter parent (some c.id) (ids cs)) d₂ fun _ d' =>
          d'.Placed false parent previous.toList (c :: cs) [] ∧
          Kept (fun i => i ∈ ids (c :: cs) ∨ previous = some i) d d' ∧
          d'.tokens.size = d.tokens.size ∧
          ∀ i t, previous = some i → d.tokens[i]? = some t →
            d'.tokens[i]? = some { t with next := (ids (c :: cs)).head?.or t.next } := by
      intro d₂ hd₂ hsize hc hlast
      have hlater : ∀ i ∈ ids cs, ¬(i = c.id ∨ previous = some i) := by
        rintro i hi (rfl | hi')
        · exact hnot hi
        · exact (hprevious i hi').1 (by simp [hi])
      refine (ih ?_ ?_ hnodup).mono ?_
      · intro e he
        obtain ⟨u, hu, hshows⟩ := hcs e he
        exact ⟨u, hd₂.getElem? hu (hlater _ (mem_map_of_mem he)), hshows⟩
      · rintro i hi
        cases hi
        exact ⟨hnot, _, hc⟩
      · rintro _ d' ⟨hplaced, hd', hsize', hnext⟩
        have hc' := hnext c.id _ rfl hc
        refine ⟨⟨⟨_, hc', ⟨hshows.kind, hshows.text, hshows.opening, hshows.closing,
          hshows.children⟩, ⟨rfl, ?_, ?_⟩, fun hm => by cases hm⟩, ?_⟩, ?_, hsize'.trans hsize, ?_⟩
        · cases previous <;> rfl
        · cases cs <;> rfl
        · exact hplaced.of_head? (by simp)
        · refine (hd₂.mono fun i _ hi => ?_).trans hd' fun i _ hi => ?_
          · exact hi.imp_left fun hi => by simp [hi]
          · rcases hi with hi | hi
            · exact .inl (by simp [hi])
            · exact .inl (by simp [← Option.some.inj hi])
        · intro i u hi hu
          refine hd'.getElem? (hlast i u hi hu) ?_
          rintro (hi' | hi')
          · exact (hprevious i hi).1 (by simp [hi'])
          · exact (hprevious i hi).1 (by simp [← Option.some.inj hi'])
    cases previous with
    | none =>
      exact hrest _ (.change d c.id _ (.inl rfl)) (size_change ..) (getElem?_change_self ht _)
        fun i u hi => by cases hi
    | some last =>
      obtain ⟨hlast, u, hu⟩ := hprevious last rfl
      have hne : last ≠ c.id := fun he => hlast (by simp [he])
      have hu' := (getElem?_change_ne hne d fun t =>
        { t with parent, prev := some last, next := none }).trans hu
      refine yields_update_bind (lt_size_of_getElem? hu') (hrest _ ?_ (by simp) ?_ ?_)
      · exact (Kept.change d c.id _ (.inl rfl)).trans (.change _ last _ (.inr rfl))
          fun _ _ hi => hi
      · rw [getElem?_change_ne hne.symm, getElem?_change_self ht]
      · intro i v hi hv
        cases hi
        cases hu.symm.trans hv
        exact getElem?_change_self hu' _

/-- Cells that are done stand in a row after linking them. -/
theorem yields_link (h : Shown d cs) :
    Yields (link (ids cs) parent) d fun _ d' =>
      Standing false d' parent cs ∧ Kept (· ∈ ids cs) d d' ∧ d'.tokens.size = d.tokens.size := by
  refine (yields_linkAfter h.looks (fun i hi => by cases hi)
    (h.distinct.sublist (Cell.ids_sublist_places cs))).mono ?_
  rintro _ d' ⟨hplaced, hkept, hsize, -⟩
  have hkept' : Kept (· ∈ ids cs) d d' := hkept.mono fun i _ hi => hi.resolve_right (by simp)
  refine ⟨⟨hplaced, fun c hc => (h.nested c hc).congr fun i hi => ?_, h.distinct⟩, hkept', hsize⟩
  refine hkept'.tokens i (h.lt_size i (Cell.places_inside_subset hc hi)) fun hmem => ?_
  obtain ⟨e, he, rfl⟩ := mem_map.mp hmem
  exact Cell.id_notMem_places_inside h.distinct he hc hi

end Edit

end Macro10
