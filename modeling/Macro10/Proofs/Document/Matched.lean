import Macro10.Proofs.Document.Lockstep
import Macro10.Proofs.Document.Placement
import Macro10.Proofs.Row.Retold

/-!
# Cells of two runs

Two documents that are alike have their tokens at the same places. Where the rows that they hold are
paired, their cells have the same piece, numerals apart, or a word that is told in two ways stands
before them (`Row.Paired.matched`).
-/

namespace Macro10

open List

/-- The cell at `i` comes after a word that is told in two ways, with white space between them. -/
inductive Cell.Heralded (told : Nat → Prop) : List Cell → Id → Prop
  | here {before front after : List Cell} {k c : Cell} {l : Nat}
      (hkind : k.piece.kind = .identifier) (htext : k.piece.text = ".OUT")
      (hlabel : k.piece.label = some l) (htold : told l)
      (hfront : ∀ b ∈ front, b.piece.kind = .whitespace) :
      Heralded told (before ++ k :: (front ++ c :: after)) c.id
  | inside {cs : List Cell} {c : Cell} {i : Id} (hc : c ∈ cs) (h : Heralded told c.inside i) :
      Heralded told cs i

/-- The cells at `i` have the same piece, numerals apart, or a word announces that they differ. -/
def Cell.Matched (told : Nat → Prop) (cs cs' : List Cell) (i : Id) : Prop :=
  (∃ p p', (i, p) ∈ Nest.listing cs ∧ (i, p') ∈ Nest.listing cs' ∧
      (p.kind ≠ .number → p' = p)) ∨
    Cell.Heralded told cs i

section Matched

variable {told : Nat → Prop} {cs cs' us us' vs vs' : List Cell} {c c' : Cell} {i : Id}

theorem Cell.Heralded.append (h : Cell.Heralded told cs i) (us vs : List Cell) :
    Cell.Heralded told (us ++ cs ++ vs) i := by
  cases h with
  | @here before front after k c l hkind htext hlabel htold hfront =>
    have heq : us ++ (before ++ k :: (front ++ c :: after)) ++ vs =
        (us ++ before) ++ k :: (front ++ c :: (after ++ vs)) := by simp
    rw [heq]
    exact .here hkind htext hlabel htold hfront
  | inside hc h => exact .inside (mem_append_left _ (mem_append_right _ hc)) h

theorem Cell.Heralded.exists_within (h : Cell.Heralded told cs i) :
    ∃ (before front after : List Cell) (k c : Cell) (l : Nat),
      Nest.Within (before ++ k :: (front ++ c :: after)) cs ∧ c.id = i ∧
      k.piece.kind = .identifier ∧ k.piece.text = ".OUT" ∧
      k.piece.label = some l ∧ told l ∧ ∀ b ∈ front, b.piece.kind = .whitespace := by
  induction h with
  | here hkind htext hlabel htold hfront =>
    exact ⟨_, _, _, _, _, _, .refl, rfl, hkind, htext, hlabel, htold, hfront⟩
  | inside hc _ ih =>
    obtain ⟨before, front, after, k, c, l, hwithin, hrest⟩ := ih
    exact ⟨before, front, after, k, c, l, .inside hc hwithin, hrest⟩

theorem Cell.Matched.append (h : Cell.Matched told cs cs' i) (us us' vs vs' : List Cell) :
    Cell.Matched told (us ++ cs ++ vs) (us' ++ cs' ++ vs') i := by
  rcases h with ⟨p, p', hp, hp', heq⟩ | h
  · refine .inl ⟨p, p', ?_, ?_, heq⟩
    · simp [hp]
    · simp [hp']
  · exact .inr (h.append us vs)

theorem Cell.Matched.inside (h : Cell.Matched told c.inside c'.inside i) (hc : c ∈ cs)
    (hc' : c' ∈ cs') : Cell.Matched told cs cs' i := by
  rcases h with ⟨p, p', hp, hp', heq⟩ | h
  · refine .inl ⟨p, p', ?_, ?_, heq⟩
    · exact (Nest.Within.inside hc .refl).listing_subset hp
    · exact (Nest.Within.inside hc' .refl).listing_subset hp'
  · exact .inr (.inside hc h)

theorem Cell.Matched.self (hid : c'.id = c.id)
    (hvalue : c.piece.kind ≠ .number → c'.piece = c.piece) (cs cs' : List Cell) :
    Cell.Matched told (c :: cs) (c' :: cs') c.id := by
  refine .inl ⟨c.piece, c'.piece, ?_, ?_, hvalue⟩
  · exact mem_flatMap.mpr ⟨c, mem_cons_self, c.value_mem_values⟩
  · rw [← hid]
    exact mem_flatMap.mpr ⟨c', mem_cons_self, c'.value_mem_values⟩

theorem Row.Paired.length_eq {xs ys : List Item} (h : Row.Paired told xs ys) :
    ys.length = xs.length := by
  induction h with
  | nil => rfl
  | item _ _ _ _ ih => rw [length_cons, length_cons, ih]
  | message _ _ _ _ _ _ _ _ _ _ _ _ ihblanks ih =>
    simp only [length_cons, length_append, ihblanks, ih]

/-- **Paired rows match place by place.** -/
theorem Row.Paired.matched
    (h : Row.Paired told (Cell.items cs) (Cell.items cs'))
    (hids : cs'.map (Nest.map Prod.fst) = cs.map (Nest.map Prod.fst))
    (hi : i ∈ Cell.places cs) : Cell.Matched told cs cs' i := by
  have hplace : ∀ {c c' : Cell}, c'.map Prod.fst = c.map Prod.fst → c'.id = c.id := by
    intro c c' heq
    simpa [Cell.id] using congrArg Nest.value heq
  have hinner : ∀ {c c' : Cell}, c'.map Prod.fst = c.map Prod.fst →
      c'.inside.map (Nest.map Prod.fst) = c.inside.map (Nest.map Prod.fst) := by
    intro c c' heq
    simpa using congrArg Nest.inside heq
  generalize hxs : Cell.items cs = xs at h
  generalize hys : Cell.items cs' = ys at h
  induction h generalizing cs cs' with
  | nil =>
    obtain rfl : cs = [] := map_eq_nil_iff.mp hxs
    cases hi
  | @item x y xs ys hvalue _ _ ihinside ih =>
    obtain ⟨c, rest, rfl, rfl, rfl⟩ := map_eq_cons_iff.mp hxs
    obtain ⟨c', rest', rfl, rfl, rfl⟩ := map_eq_cons_iff.mp hys
    obtain ⟨hfirst, hrest⟩ := List.cons.inj hids
    rw [Cell.places_cons, cons_append] at hi
    rcases mem_cons.mp hi with rfl | hi
    · exact .self (hplace hfirst) (by simpa using hvalue) rest rest'
    rcases mem_append.mp hi with hi | hi
    · exact (ihinside (hinner hfirst) hi (Cell.inside_item c).symm
        (Cell.inside_item c').symm).inside mem_cons_self mem_cons_self
    · simpa using (ih hrest hi rfl rfl).append [c] [c'] [] []
  | @message k k' l front front' xs ys a b hkind htext hlabel htold hfront hvalue _ hblanks _
      ihinside ihblanks ih =>
    obtain ⟨c, rest, rfl, rfl, hrest⟩ := map_eq_cons_iff.mp hxs
    obtain ⟨c', rest', rfl, rfl, hrest'⟩ := map_eq_cons_iff.mp hys
    obtain ⟨blanks, more, rfl, rfl, hmore⟩ := map_eq_append_iff.mp hrest
    obtain ⟨blanks', more', rfl, rfl, hmore'⟩ := map_eq_append_iff.mp hrest'
    obtain ⟨m, later, rfl, hm, rfl⟩ := map_eq_cons_iff.mp hmore
    obtain ⟨m', later', rfl, hm', rfl⟩ := map_eq_cons_iff.mp hmore'
    obtain ⟨hfirst, hids⟩ := List.cons.inj hids
    have hlength : blanks'.length = blanks.length := by
      simpa using hblanks.length_eq
    rw [map_append, map_append] at hids
    obtain ⟨hfrontIds, hids⟩ := append_inj hids (by simpa using hlength)
    obtain ⟨-, hlater⟩ := List.cons.inj hids
    have hempty : m.inside = [] := by
      have hinside := congrArg Nest.inside hm
      rw [Cell.inside_item] at hinside
      exact map_eq_nil_iff.mp hinside
    simp only [Cell.places_cons, Cell.places_append, hempty, Cell.places_nil, cons_append,
      nil_append, mem_cons, mem_append] at hi
    rcases hi with rfl | hi | hi | rfl | hi
    · refine .self (hplace hfirst) (fun _ => ?_) _ _
      rwa [Cell.value_item, Cell.value_item] at hvalue
    · exact (ihinside (hinner hfirst) hi (Cell.inside_item c).symm
        (Cell.inside_item c').symm).inside mem_cons_self mem_cons_self
    · simpa using (ihblanks hfrontIds hi rfl rfl).append [c] [c'] (m :: later) (m' :: later')
    · rw [Cell.value_item] at hkind htext hlabel
      rw [← nil_append (c :: (blanks ++ m :: later))]
      refine .inr (.here hkind htext hlabel htold fun b hb => ?_)
      simpa using hfront b.item (mem_map_of_mem hb)
    · simpa using (ih hlater hi rfl rfl).append (c :: (blanks ++ [m])) (c' :: (blanks' ++ [m']))
        [] []

end Matched

/-- The places of cells are the same in documents that are alike. -/
theorem Document.Alike.map_fst_eq {P : Position → Prop} {d e : Document} (h : d.Alike P e)
    {marked : Bool} {parent : Option Id} {cs cs' : List Cell} (hcs : d.Standing marked parent cs)
    (hcs' : e.Standing marked parent cs') (hids : Cell.ids cs' = Cell.ids cs) :
    cs'.map (Nest.map Prod.fst) = cs.map (Nest.map Prod.fst) := by
  induction hn : (Nest.listing cs).length using Nat.strongRecOn generalizing parent cs cs' with
  | _ n ih =>
    refine ext_getElem (by simpa using congrArg List.length hids) fun i hi hi' => ?_
    rw [length_map] at hi hi'
    rw [getElem_map, getElem_map]
    have hid : cs'[i].id = cs[i].id := by
      have heq := congrArg (fun ids => ids[i]?) hids
      simpa [Cell.ids, hi, hi'] using heq
    have hc := getElem_mem hi'
    have hc' := getElem_mem hi
    generalize cs[i] = c at hid hc ⊢
    generalize cs'[i] = c' at hid hc' ⊢
    obtain ⟨t, ht, hshows⟩ := hcs.row.looks c hc
    obtain ⟨t', ht', hshows'⟩ := hcs'.row.looks c' hc'
    rw [hid] at ht'
    have halike := h.tokens ht ht'
    have hkind : c'.piece.kind = c.piece.kind := by
      rw [← hshows'.kind, halike.kind, hshows.kind]
    have hinside : c'.inside.map (Nest.map Prod.fst) = c.inside.map (Nest.map Prod.fst) := by
      by_cases hgroup : c.piece.kind = .container
      · have hchildren := hshows'.children
        rw [halike.children, hshows.children, hkind, if_pos hgroup, if_pos hgroup] at hchildren
        obtain ⟨xs, ys, rfl⟩ := append_of_mem hc
        obtain ⟨xs', ys', rfl⟩ := append_of_mem hc'
        have hle := Nest.length_values_le hc
        have hlt := Nest.length_listing_inside_lt c
        have hrow := hcs'.inside
        rw [hid] at hrow
        exact ih _ (by omega) hcs.inside hrow (Option.some.inj hchildren).symm rfl
      · rw [(hcs.nested c hc).leaf hgroup, (hcs'.nested c' hc').leaf (by rwa [hkind])]
    rw [← Nest.node_value_inside (c'.map _), ← Nest.node_value_inside (c.map _)]
    simp only [Nest.value_map, Nest.inside_map, hinside]
    exact congrArg (Nest.node · _) hid

end Macro10
