import Macro10.Proofs.Document.Placement

/-!
# A walk along a row

While a pass walks a list of siblings, some cells are behind it and some ahead (`Walking`). Both
still stand in the row, with the links and marks that the pass asks for. A pass changes cells ahead
of it one at a time (`Rewrite`), and leaves cells behind it that are done (`Shown`).
-/

namespace Macro10

open List

variable {c' : Cell} {cs ds ahead' out₂ : List Cell} {n : Nat} {f : Token → Token} {P : Id → Prop}
  {d'' : Document}

open Cell (ids ids_append ids_reverse mem_places places places_append places_cons)

variable {c : Cell}

/-! ## Changes of cells -/

namespace Cell

variable {cs' : List Cell}

/-- The cell stands at the same place with the same label, and nothing new is inside it. -/
def Pares (c c' : Cell) : Prop := c'.tag = c.tag ∧ (c'.inside = c.inside ∨ c'.inside = [])

/-- Each of the cells stands where it stood. -/
def Pared (cs cs' : List Cell) : Prop := List.Forall₂ Pares cs cs'

namespace Pared

variable {as bs : List Cell}

theorem refl (cs : List Cell) : Pared cs cs := forall₂_same.mpr fun _ _ => ⟨rfl, .inl rfl⟩

/-- What is left may be pared again. -/
theorem trans (h : Pared as bs) (h' : Pared bs cs) : Pared as cs := by
  refine forall₂_trans (fun a b c hc hc' => ⟨hc'.1.trans hc.1, ?_⟩) h h'
  rcases hc'.2 with hinside | hinside
  · rw [hinside]; exact hc.2
  · exact .inr hinside

theorem append (h : Pared as bs) (h' : Pared cs ds) : Pared (as ++ cs) (bs ++ ds) :=
  rel_append h h'

/-- A row in two parts is pared part by part. -/
theorem split (h : Pared (as ++ bs) cs) :
    ∃ as' bs', cs = as' ++ bs' ∧ Pared as as' ∧ Pared bs bs' := by
  have hfront := forall₂_take as.length h
  have hback := forall₂_drop as.length h
  rw [take_left] at hfront
  rw [drop_left] at hback
  exact ⟨_, _, (take_append_drop _ _).symm, hfront, hback⟩

/-- What was pared to two parts had two parts. -/
theorem unsplit (h : Pared cs (as ++ bs)) :
    ∃ as' bs', cs = as' ++ bs' ∧ Pared as' as ∧ Pared bs' bs :=
  ⟨_, _, (take_append_drop _ _).symm, forall₂_take_append _ _ _ h, forall₂_drop_append _ _ _ h⟩

theorem length_eq (h : Pared as bs) : bs.length = as.length := (List.Forall₂.length_eq h).symm

/-- Cells may be blanked out. -/
theorem blanked (cs : List Cell) : Pared cs (cs.map Cell.blanked) :=
  forall₂_map_right_iff.mpr (forall₂_same.mpr fun _ _ => ⟨rfl, .inr rfl⟩)

/-- The places of the cells are the same. -/
theorem ids_eq (h : Pared cs ds) : ids ds = ids cs := by
  induction h with
  | nil => rfl
  | cons hc _ ih => rw [ids_cons, ids_cons, id_eq_of_tag hc.1, ih]

/-- No place and no label is new. -/
theorem tags_sublist (h : Pared cs ds) : (tags ds).Sublist (tags cs) := by
  induction h with
  | nil => exact .slnil
  | cons hc _ ih =>
    rw [tags_cons, tags_cons, hc.1]
    refine (List.Sublist.cons_cons _ ?_).append ih
    rcases hc.2 with hinside | hinside <;> simp [hinside]

theorem places_sublist (h : Pared cs ds) : (places ds).Sublist (places cs) := by
  rw [← map_fst_tags, ← map_fst_tags]
  exact h.tags_sublist.map Prod.fst

end Pared

/-- Cells are pared one by one. -/
theorem pared_cons : Pared (c :: cs) (c' :: cs') ↔ Pares c c' ∧ Pared cs cs' := forall₂_cons

/-- Fewer than `n` tokens are inside each of the cells. -/
def Within (n : Nat) (cs : List Cell) : Prop := ∀ c ∈ cs, (places c.inside).length < n

/-- Cells are bounded one by one. -/
theorem within_cons :
    Within n (c :: cs) ↔ (places c.inside).length < n ∧ Within n cs := forall_mem_cons

/-- A bound stays one when cells are pared. -/
theorem Within.pared (h : Within n cs) (hcs : Pared cs cs') : Within n cs' := by
  induction hcs with
  | nil => exact h
  | cons hc _ ih =>
    obtain ⟨hfirst, hrest⟩ := within_cons.mp h
    refine within_cons.mpr ⟨?_, ih hrest⟩
    rcases hc.2 with hinside | hinside
    · rwa [hinside]
    · rw [hinside]
      exact Nat.lt_of_le_of_lt (Nat.zero_le _) hfirst

/-- The change `f` of a token makes the cell `c'` of the cell `c`. -/
structure Rewrite (f : Token → Token) (c c' : Cell) : Prop where
  tag : c'.tag = c.tag
  inside : c'.inside = c.inside ∧ c'.piece.kind = c.piece.kind ∨ c'.inside = []
  fits : ∀ {marked : Bool} {t : Token} {parent : Option Id} {before after : List Id},
    t.Fits marked parent before after c.piece (ids c.inside) →
      (f t).Fits marked parent before after c'.piece (ids c'.inside)

theorem Rewrite.id (h : Rewrite f c c') : c'.id = c.id :=
  id_eq_of_tag h.tag

/-- A change of one cell leaves the rest of the row alone. -/
theorem Rewrite.pared (h : Rewrite f c c') (xs ys : List Cell) :
    Pared (xs ++ c :: ys) (xs ++ c' :: ys) :=
  (Pared.refl xs).append (.cons ⟨h.tag, h.inside.imp And.left fun h => h⟩ (Pared.refl ys))

/-- A token is blanked out together with its cell. -/
theorem rewrite_blanked (c : Cell) : Rewrite Token.blanked c c.blanked where
  tag := rfl
  inside := .inr rfl
  fits h := h.of_shows ⟨rfl, rfl, rfl, rfl, rfl⟩ rfl rfl

/-- A token gets another text together with its cell. -/
theorem rewrite_setText (hc : c.piece.kind ≠ .container) (text : Text) :
    Rewrite (fun t => { t with text := some text }) c (c.setText text) where
  tag := rfl
  inside := .inl ⟨rfl, rfl⟩
  fits h := by
    have hlooks := h.looks
    refine h.of_shows ⟨hlooks.kind, ?_, hlooks.opening, hlooks.closing, hlooks.children⟩ rfl rfl
    simp [Piece.token, Piece.setText, hc]

/-- A group gets other brackets together with its cell. -/
theorem rewrite_brackets (c : Cell) (opening closing : Text) :
    Rewrite (fun t => { t with opening, closing }) c
      (setPiece { c.piece with opening, closing } c) where
  tag := rfl
  inside := .inl ⟨rfl, rfl⟩
  fits h := h.of_shows ⟨h.looks.kind, h.looks.text, rfl, rfl, h.looks.children⟩ rfl rfl

/-! ## Where cells come from -/

/-- The cells `ds` are among the cells `cs`, with their labels, or they are new: they stand from `n`
on, and have no labels. -/
def Traced (n : Nat) (cs ds : List Cell) : Prop :=
  ∀ v ∈ tags ds, v ∈ tags cs ∨ n ≤ v.1 ∧ v.2 = none

namespace Traced

variable {m : Nat}

variable {as bs : List Cell}

/-- The places of new cells are new. -/
theorem fresh (h : Traced n cs ds) : ∀ i ∈ places ds, i ∈ places cs ∨ n ≤ i := by
  intro i hi
  rw [← map_fst_tags] at hi ⊢
  obtain ⟨v, hv, rfl⟩ := mem_map.mp hi
  exact (h v hv).imp (mem_map_of_mem (f := Prod.fst)) And.left

theorem of_subset (h : tags ds ⊆ tags cs) : Traced n cs ds := fun _ hv => .inl (h hv)

/-- Parts may be traced apart. -/
theorem append (h : Traced n as bs) (h' : Traced n cs ds) : Traced n (as ++ cs) (bs ++ ds) := by
  intro v hv
  rw [tags_append] at hv ⊢
  rcases mem_append.mp hv with hv | hv
  · exact (h v hv).imp_left fun hv => mem_append_left _ hv
  · exact (h' v hv).imp_left fun hv => mem_append_right _ hv

/-- There may be more cells to come from. -/
theorem mono (h : Traced m cs ds) (hn : n ≤ m) (hcs : tags cs ⊆ tags bs) : Traced n bs ds :=
  fun v hv => (h v hv).imp (fun hv => hcs hv) (And.imp_left (Nat.le_trans hn))

theorem trans (h : Traced n as bs) (h' : Traced m bs cs) (hn : n ≤ m) : Traced n as cs := by
  intro v hv
  rcases h' v hv with hv | ⟨hle, hnone⟩
  · exact h v hv
  · exact .inr ⟨Nat.le_trans hn hle, hnone⟩

/-- A cell that is made has a new place. -/
theorem insert (bs : List Cell) (h : Traced n cs (bs ++ ds)) (hm : n ≤ m) (kind : Kind)
    (text : Text) : Traced n cs (bs ++ made m kind text :: ds) := by
  intro v hv
  rw [tags_append, tags_cons] at hv
  have hold : v ∈ tags (bs ++ ds) ∨ v = (m, none) := by
    rw [tags_append, mem_append]
    simp only [made, Nest.inside_node, tags_nil, mem_append, mem_cons,
      cons_append, nil_append] at hv
    tauto
  rcases hold with hold | rfl
  · exact h v hold
  · exact .inr ⟨hm, rfl⟩

end Traced

end Cell

namespace Document

/-- Where a walk along a row stands. The row is in the container `parent`, which opens with
`opening`, or is the top level; `before` are the cells behind, nearest first. -/
structure Spot where
  parent : Option Id
  opening : Text
  before : List Cell

namespace Spot

/-- The spot after the cells. -/
def past (s : Spot) (cs : List Cell) : Spot := { s with before := cs.reverse ++ s.before }

/-- The pieces behind the spot, nearest first. -/
abbrev pieces (s : Spot) : List Piece := Cell.pieces s.before

variable (s : Spot) (cs ds : List Cell)

@[simp]
theorem parent_past : (s.past cs).parent = s.parent := rfl

@[simp]
theorem opening_past : (s.past cs).opening = s.opening := rfl

@[simp]
theorem before_past : (s.past cs).before = cs.reverse ++ s.before := rfl

@[simp]
theorem pieces_past : (s.past cs).pieces = (Cell.pieces cs).reverse ++ s.pieces := by
  simp [pieces]

/-- To go past two parts one after another. -/
theorem past_past : (s.past cs).past ds = s.past (cs ++ ds) := by
  simp [past]

end Spot

variable {d d' : Document} {s : Spot} {ahead : List Cell}

/-! ## The walk -/

/-- A row is walked, and the cells `ahead` are to come. -/
structure Walking (d : Document) (s : Spot) (ahead : List Cell) : Prop where
  row : d.Placed true s.parent [] (s.before.reverse ++ ahead) []
  nested : ∀ c ∈ ahead, d.Nested true c
  distinct : (ids s.before ++ places ahead).Nodup
  outside : ∀ i, s.parent = some i → i ∉ ids s.before ++ places ahead
  opened : ∀ i, s.parent = some i → ∃ t, d.tokens[i]? = some t ∧ t.opening = s.opening
  top : s.parent = none → s.opening = []

namespace Walking

variable {ys xs : List Cell}

/-- The token of the next cell. -/
theorem holds (h : Walking d s (c :: ahead)) :
    d.Holds true s.parent (ids s.before) c (ids ahead) := by
  simpa using h.row.holds

/-- The token of a cell ahead. -/
theorem holds_ahead (xs : List Cell) (h : Walking d s (xs ++ c :: ys)) :
    d.Holds true s.parent (ids (xs.reverse ++ s.before)) c (ids ys) := by
  have hrow := h.row
  rw [← append_assoc] at hrow
  simpa using hrow.holds

section

variable (h : Walking d s ahead)
include h

/-- Every token looks as its cell says. -/
theorem looks : ∀ c ∈ s.before ++ ahead, d.Looks c :=
  fun c hc => h.row.looks c (by simpa using hc)

/-- All cells that are done are in the document. -/
theorem lt_size : ∀ i ∈ ids s.before ++ places ahead, i < d.tokens.size := by
  intro i hi
  have hrow : ∀ c ∈ s.before ++ ahead, c.id < d.tokens.size := by
    intro c hc
    obtain ⟨t, ht, -⟩ := h.looks c hc
    exact lt_size_of_getElem? ht
  rcases mem_append.mp hi with hi | hi
  · obtain ⟨c, hc, rfl⟩ := mem_map.mp hi
    exact hrow c (by simp [hc])
  · obtain ⟨c, hc, rfl | hi⟩ := (mem_places _).mp hi
    · exact hrow c (by simp [hc])
    · obtain ⟨t, ht⟩ := (h.nested c hc).exists_token i hi
      exact lt_size_of_getElem? ht

/-- All places ahead are distinct. -/
theorem nodup_places : (places ahead).Nodup :=
  (nodup_append.mp h.distinct).2.1

theorem nodup_ids : (ids s.before ++ ids ahead).Nodup :=
  h.distinct.sublist ((Cell.ids_sublist_places ahead).append_left _)

end

/-- The walk goes on past some cells. -/
theorem advance (h : Walking d s (xs ++ ahead)) :
    Walking d (s.past xs) ahead where
  row := by simpa using h.row
  nested := fun c hc => h.nested c (by simp [hc])
  distinct := by
    have hdistinct := h.distinct
    rw [places_append] at hdistinct
    have hshort := hdistinct.sublist (((Cell.ids_sublist_places xs).append
      (.refl (places ahead))).append_left (ids s.before))
    rw [← append_assoc] at hshort
    rw [Spot.before_past, ids_append, ids_reverse]
    exact ((((reverse_perm _).append_right _).trans perm_append_comm).append_right
      _).nodup_iff.mpr hshort
  outside := by
    intro i hi hmem
    apply h.outside i hi
    simp only [Spot.before_past, ids_append, ids_reverse, places_append, mem_append,
      mem_reverse] at hmem ⊢
    rcases hmem with (hmem | hmem) | hmem
    · exact .inr (.inl (Cell.ids_subset_places _ hmem))
    · exact .inl hmem
    · exact .inr (.inr hmem)
  opened := h.opened
  top := h.top

/-- The cursor goes past one cell. -/
theorem step (h : Walking d s (c :: ahead)) : Walking d (s.past [c]) ahead := by
  rw [← singleton_append] at h
  exact h.advance

/-- A walk inside a group starts where the group stands. -/
theorem inside {x : Cell} (h : Walking d s (x :: ahead)) :
    Walking d ⟨some x.id, x.piece.opening, []⟩ x.inside := by
  obtain ⟨t, ht, hfits⟩ := h.holds
  have hnested := h.nested x (by simp)
  have hnodup := h.nodup_places
  rw [places_cons, cons_append, nodup_cons, mem_append, not_or, nodup_append] at hnodup
  refine ⟨hnested.row, hnested.all, hnodup.2.1, ?_, ?_, fun hnone => by cases hnone⟩
  · rintro i hi
    cases hi
    exact hnodup.1.1
  · rintro i hi
    cases hi
    exact ⟨t, ht, hfits.looks.opening⟩

/-- The walk is not disturbed by changes elsewhere. -/
theorem kept (h : Walking d s ahead) (hd : Kept P d d')
    (hP : ∀ i, P i → i ∉ ids s.before ++ places ahead ∧ s.parent ≠ some i) :
    Walking d' s ahead := by
  have hsame : ∀ i ∈ ids s.before ++ places ahead, d'.tokens[i]? = d.tokens[i]? :=
    fun i hi => hd.tokens i (h.lt_size i hi) fun hPi => (hP i hPi).1 hi
  refine ⟨h.row.congr fun i hi => hsame i ?_, fun c hc => (h.nested c hc).congr fun i hi =>
    hsame i ?_, h.distinct, h.outside, fun i hi => ?_, h.top⟩
  · simp only [ids_append, ids_reverse, mem_append, mem_reverse] at hi ⊢
    exact hi.imp_right fun hi => Cell.ids_subset_places _ hi
  · exact mem_append_right _ (Cell.places_inside_subset hc hi)
  · obtain ⟨t, ht, hopen⟩ := h.opened i hi
    exact ⟨t, hd.getElem? ht fun hPi => (hP i hPi).2 hi, hopen⟩

/-- A new token leaves the walk as it is. -/
theorem extend (h : Walking d s ahead) (t : Token) : Walking (d.extend t) s ahead :=
  h.kept (P := fun _ => False) (.extend _ d t) fun _ hi => hi.elim

/-- A cell ahead is changed, and the walk has not moved. -/
theorem edit (hf : Cell.Rewrite f c c') (h : Walking d s (xs ++ c :: ys)) :
    Walking (d.change c.id f) s (xs ++ c' :: ys) := by
  have hsub : (ids s.before ++ places (xs ++ c' :: ys)).Sublist
      (ids s.before ++ places (xs ++ c :: ys)) :=
    (hf.pared xs ys).places_sublist.append_left _
  refine ⟨?_, ?_, h.distinct.sublist hsub, fun i hi hmem => h.outside i hi (hsub.subset hmem),
    ?_, h.top⟩
  · rw [← append_assoc]
    have hrow := h.row
    rw [← append_assoc] at hrow
    refine hrow.replace hf.id (fun i hi => getElem?_change_ne ?_ d f) ?_
    · rintro rfl
      have hids := h.nodup_ids
      simp only [ids_append, Cell.ids_cons, ids_reverse, mem_append,
        mem_reverse, nodup_append, nodup_cons, mem_cons] at hids hi
      rcases hi with (hi | hi) | hi
      · exact hids.2.2 _ hi _ (.inr (.inl rfl)) rfl
      · exact hids.2.1.2.2 _ hi _ (.inl rfl) rfl
      · exact hids.2.1.2.1.1 hi
    · rintro ⟨t, ht, hfits⟩
      exact ⟨f t, by rw [hf.id]; exact getElem?_change_self ht f, hf.fits hfits⟩
  · have hsame : ∀ x ∈ xs ++ c :: ys, Nested true (d.change c.id f) x := fun x hx =>
      (h.nested x hx).congr fun i hi => getElem?_change_ne
        (fun heq => Cell.id_notMem_places_inside h.nodup_places (by simp) hx (heq ▸ hi)) d f
    intro x hx
    rcases mem_append.mp hx with hx | hx
    · exact hsame x (by simp [hx])
    · rcases mem_cons.mp hx with rfl | hx
      · rcases hf.inside with ⟨hinside, hkind⟩ | hempty
        · refine (hsame c (by simp)).of_inside hf.id hinside fun hne => ?_
          rw [hinside]
          exact (h.nested c (by simp)).leaf (hkind ▸ hne)
        · exact .of_empty hempty
      · exact hsame x (by simp [hx])
  · intro i hi
    obtain ⟨t, ht, hopen⟩ := h.opened i hi
    refine ⟨t, ?_, hopen⟩
    rw [getElem?_change_ne _ d f, ht]
    rintro rfl
    exact h.outside c.id hi (by simp)

end Walking

/-- Cells ahead of the walk have been changed, and the walk has not moved. -/
structure Edited (d d' : Document) (s : Spot) (ahead ahead' : List Cell) : Prop where
  walking : Walking d' s ahead'
  kept : Kept (· ∈ ids ahead) d d'
  size : d'.tokens.size = d.tokens.size
  pared : Cell.Pared ahead ahead'

namespace Edited

theorem refl (h : Walking d s ahead) : Edited d d s ahead ahead := ⟨h, .refl _ d, rfl, .refl ahead⟩

/-- Edits may follow one another. -/
theorem trans {ahead'' : List Cell} (h : Edited d d' s ahead ahead')
    (h' : Edited d' d'' s ahead' ahead'') :
    Edited d d'' s ahead ahead'' :=
  ⟨h'.walking, h.kept.trans h'.kept fun _ _ hi => h.pared.ids_eq ▸ hi, h'.size.trans h.size,
    h.pared.trans h'.pared⟩

/-- A change of one cell. -/
theorem change {xs ys : List Cell} (hf : Cell.Rewrite f c c')
    (h : Walking d s (xs ++ c :: ys)) :
    Edited d (d.change c.id f) s (xs ++ c :: ys) (xs ++ c' :: ys) :=
  ⟨h.edit hf, .change d c.id f (by simp), size_change d c.id f, hf.pared xs ys⟩

/-- A diagnostic changes no cell. -/
theorem report (h : Walking d s ahead) (problem : Problem)
    (position : Option Position) (length : Int) (severity : Severity) :
    Edited d (Edit.reported d problem position length severity) s ahead
      ahead := by
  have hkept : Kept (· ∈ ids ahead) d (Edit.reported d problem position length severity) :=
    ⟨Nat.le_refl _, rfl, rfl, fun _ _ _ => rfl⟩
  exact ⟨⟨h.row.congr fun _ _ => rfl, fun c hc => (h.nested c hc).congr fun _ _ => rfl, h.distinct,
    h.outside, h.opened, h.top⟩, hkept, rfl, .refl ahead⟩

end Edited

/-! ## Cells that are done -/

/-- The tokens of the cells, and all tokens inside them, are in the document. -/
structure Shown (d : Document) (cs : List Cell) : Prop where
  looks : ∀ c ∈ cs, d.Looks c
  nested : ∀ c ∈ cs, d.Nested false c
  distinct : (places cs).Nodup

namespace Shown

theorem lt_size (h : Shown d cs) : ∀ i ∈ places cs, i < d.tokens.size := by
  intro i hi
  obtain ⟨c, hc, rfl | hi⟩ := (mem_places cs).mp hi
  · obtain ⟨t, ht, -⟩ := h.looks c hc
    exact lt_size_of_getElem? ht
  · obtain ⟨t, ht⟩ := (h.nested c hc).exists_token i hi
    exact lt_size_of_getElem? ht

/-- Changes elsewhere do not show. -/
theorem kept (h : Shown d cs) (hd : Kept P d d')
    (hP : ∀ i ∈ places cs, ¬P i) : Shown d' cs where
  looks := by
    intro c hc
    obtain ⟨t, ht, hlooks⟩ := h.looks c hc
    exact ⟨t, hd.getElem? ht (hP _ ((mem_places cs).mpr ⟨c, hc, .inl rfl⟩)), hlooks⟩
  nested := fun c hc => (h.nested c hc).congr fun i hi =>
    have hmem := (mem_places cs).mpr ⟨c, hc, .inr hi⟩
    hd.tokens i (h.lt_size i hmem) (hP i hmem)
  distinct := h.distinct

/-- Cells in two parts without a place in common. -/
theorem append (h : Shown d cs) (h' : Shown d ds)
    (hdisjoint : ∀ i ∈ places cs, i ∉ places ds) : Shown d (cs ++ ds) where
  looks := fun c hc => (mem_append.mp hc).elim (h.looks c) (h'.looks c)
  nested := fun c hc => (mem_append.mp hc).elim (h.nested c) (h'.nested c)
  distinct := by
    rw [places_append, nodup_append]
    exact ⟨h.distinct, h'.distinct, fun i hi j hj heq => hdisjoint i hi (heq ▸ hj)⟩

/-- Both parts of what is shown are shown. -/
theorem of_append (h : Shown d (cs ++ ds)) : Shown d cs ∧ Shown d ds := by
  have hdistinct := h.distinct
  rw [places_append, nodup_append] at hdistinct
  exact ⟨⟨fun c hc => h.looks c (by simp [hc]), fun c hc => h.nested c (by simp [hc]),
      hdistinct.1⟩,
    ⟨fun c hc => h.looks c (by simp [hc]), fun c hc => h.nested c (by simp [hc]), hdistinct.2.1⟩⟩

theorem perm (h : Shown d cs) (hperm : cs.Perm ds) : Shown d ds where
  looks := fun c hc => h.looks c (hperm.mem_iff.mpr hc)
  nested := fun c hc => h.nested c (hperm.mem_iff.mpr hc)
  distinct := (Cell.perm_places hperm).nodup_iff.mp h.distinct

/-- A new token is shown. -/
theorem made {kind : Kind} (hkind : kind ≠ .container) (d : Document) (text : Text) :
    Shown (d.extend (Edit.made kind text)) [Cell.made d.tokens.size kind text] where
  looks := by
    intro c hc
    obtain rfl := mem_singleton.mp hc
    refine ⟨_, getElem?_extend_self d _, rfl, ?_, rfl, rfl, rfl⟩
    simp [Edit.made, Cell.made, Piece.made, Piece.token, hkind]
  nested := by
    intro c hc
    obtain rfl := mem_singleton.mp hc
    exact .of_empty rfl
  distinct := by simp [Cell.made]

/-- A new token among others. -/
theorem insert (cs : List Cell) (kind : Kind) (hkind : kind ≠ .container)
    (text : Text) (h : Shown d (cs ++ ds)) :
    Shown (d.extend (Edit.made kind text)) (cs ++ Cell.made d.tokens.size kind text :: ds) := by
  have hnone : ∀ i ∈ places (cs ++ ds), i ≠ d.tokens.size := fun i hi =>
    Nat.ne_of_lt (h.lt_size i hi)
  have hkept : Kept (fun _ => False) d (d.extend (Edit.made kind text)) := .extend _ d _
  obtain ⟨hcs, hds⟩ := (h.kept hkept fun _ _ hi => hi).of_append
  refine hcs.append ((made hkind d text).append hds ?_) ?_
  · intro i hi hmem
    exact hnone i (by rw [places_append]; simp [hmem]) (by simpa [Cell.made] using hi)
  · intro i hi hmem
    have hdistinct := h.distinct
    rw [places_append, nodup_append] at hdistinct
    rw [places_cons] at hmem
    rcases mem_cons.mp hmem with rfl | hmem
    · exact hnone _ (by rw [places_append]; exact mem_append_left _ hi) rfl
    · exact hdistinct.2.2 i hi i (by simpa [Cell.made] using hmem) rfl

end Shown

/-! ## Parts of a walk -/

/-- All tokens that were made stand among the cells or inside them. -/
def Houses (d d' : Document) (cs : List Cell) : Prop :=
  ∀ i, d.tokens.size ≤ i → i < d'.tokens.size → i ∈ places cs

namespace Houses

/-- No token was made. -/
theorem of_size_eq (h : d'.tokens.size = d.tokens.size) (cs : List Cell) : Houses d d' cs :=
  fun _ hi hi' => absurd (h ▸ hi') (Nat.not_lt.mpr hi)

/-- The tokens that two steps make are all among the cells. -/
theorem trans (h : Houses d d' cs) (h' : Houses d' d'' ds)
    (hsub : ∀ i ∈ places cs, i ∈ places ds) : Houses d d'' ds := by
  intro i hi hi'
  by_cases hlt : i < d'.tokens.size
  · exact hsub i (h i hi hlt)
  · exact h' i (Nat.not_lt.mp hlt) hi'

theorem mono (h : Houses d d' cs) (hsub : ∀ i ∈ places cs, i ∈ places ds) :
    Houses d d' ds := h.trans (.of_size_eq rfl ds) hsub

/-- A token that is made may be put among the cells. -/
theorem insert (out₁ : List Cell) (h : Houses d d' (out₁ ++ out₂)) (kind : Kind) (text : Text) :
    Houses d (d'.extend (Edit.made kind text))
      (out₁ ++ Cell.made d'.tokens.size kind text :: out₂) := by
  intro i hi hi'
  rw [size_extend] at hi'
  simp only [places_append, places_cons, mem_append, mem_cons]
  rcases Nat.lt_or_eq_of_le (Nat.le_of_lt_succ hi') with hlt | rfl
  · have hmem := h i hi hlt
    rw [places_append, mem_append] at hmem
    exact hmem.imp_right .inr
  · exact .inr (.inl (.inl rfl))

end Houses

/-- A part of a walk has gone over the cells `eaten`, which stand behind it as `front`, and has
changed `rest` into `rest'`. The cells `out` are done and are to stand for `eaten`. -/
structure Progress (d d' : Document) (s : Spot) (eaten rest front rest' out : List Cell) :
    Prop where
  walking : Walking d' (s.past front) rest'
  kept : Kept (· ∈ places (eaten ++ rest)) d d'
  ids_front : ids front = ids eaten
  pared : Cell.Pared rest rest'
  shown : Shown d' out
  traced : Cell.Traced d.tokens.size eaten out
  houses : Houses d d' out

namespace Progress

variable {front₂ : List Cell}

variable {eaten rest front rest' out : List Cell}

theorem fresh (h : Progress d d' s eaten rest front rest' out) :
    ∀ i ∈ places out, i ∈ places eaten ∨ d.tokens.size ≤ i := h.traced.fresh

/-- Two parts of a walk make one. -/
theorem trans {eaten₂ eaten₂' rest₂ rest₂' rest₂'' : List Cell}
    (hwalk : Walking d s (eaten ++ (eaten₂ ++ rest₂)))
    (h : Progress d d' s eaten (eaten₂ ++ rest₂) front (eaten₂' ++ rest₂') out)
    (heaten : Cell.Pared eaten₂ eaten₂') (hrest : Cell.Pared rest₂ rest₂')
    (h' : Progress d' d'' (s.past front) eaten₂' rest₂' front₂ rest₂'' out₂) :
    Progress d d'' s (eaten ++ eaten₂) rest₂ (front ++ front₂) rest₂'' (out ++ out₂) := by
  have hnodup := hwalk.nodup_places
  rw [places_append, nodup_append] at hnodup
  have hlater : ∀ i ∈ places (eaten₂' ++ rest₂'), i ∈ places (eaten₂ ++ rest₂) :=
    fun i hi => (heaten.append hrest).places_sublist.subset hi
  have hold : ∀ i ∈ places (eaten₂ ++ rest₂), i < d.tokens.size := by
    intro i hi
    refine hwalk.lt_size i (mem_append_right _ ?_)
    rw [places_append]
    exact mem_append_right _ hi
  -- What the first part has done is out of reach of the second.
  have hout : ∀ i ∈ places out, i ∉ places (eaten₂ ++ rest₂) := by
    intro i hi hmem
    rcases h.fresh i hi with hi | hi
    · exact hnodup.2.2 i hi i hmem rfl
    · exact Nat.not_lt.mpr hi (hold i hmem)
  refine ⟨?_, ?_, ?_, hrest.trans h'.pared, ?_, ?_, ?_⟩
  · rw [← Spot.past_past]
    exact h'.walking
  · rw [append_assoc]
    refine h.kept.trans h'.kept fun i _ hi => ?_
    rw [places_append]
    exact mem_append_right _ (hlater i hi)
  · rw [ids_append, ids_append, h.ids_front, h'.ids_front, heaten.ids_eq]
  · refine (h.shown.kept h'.kept fun i hi hmem => hout i hi (hlater i hmem)).append h'.shown ?_
    intro i hi hmem
    rcases h'.fresh i hmem with hmem | hmem
    · exact hout i hi (hlater i (by rw [places_append]; simp [hmem]))
    · exact Nat.not_lt.mpr hmem (h.shown.lt_size i hi)
  · refine h.traced.append (h'.traced.mono h.kept.size heaten.tags_sublist.subset)
  · have hlater : Houses d' d'' (out ++ out₂) := h'.houses.mono (by simp +contextual)
    exact h.houses.trans hlater (by simp +contextual)

/-- Cells with nothing inside are done as they are. -/
theorem of_leaves {eaten' : List Cell}
    (h : Edited d d' s (eaten ++ rest) (eaten' ++ rest'))
    (heaten : Cell.Pared eaten eaten') (hrest : Cell.Pared rest rest')
    (hleaf : ∀ c ∈ eaten', c.inside = []) :
    Progress d d' s eaten rest eaten' rest' eaten' where
  walking := h.walking.advance
  kept := h.kept.mono fun _ _ hi => Cell.ids_subset_places _ hi
  ids_front := heaten.ids_eq
  pared := hrest
  shown := by
    refine ⟨fun c hc => ?_, fun c hc => .of_empty (hleaf c hc), ?_⟩
    · obtain ⟨xs, ys, rfl⟩ := append_of_mem hc
      have hwalk := h.walking
      rw [append_assoc] at hwalk
      obtain ⟨t, ht, hfits⟩ := hwalk.holds_ahead xs
      exact ⟨t, ht, hfits.looks⟩
    · have hnodup := h.walking.nodup_places
      rw [places_append, nodup_append] at hnodup
      exact hnodup.1
  traced := .of_subset heaten.tags_sublist.subset
  houses := .of_size_eq h.size _

theorem refl (h : Walking d s ahead) : Progress d d s [] ahead [] ahead [] :=
  .of_leaves (.refl h) .nil (.refl _) fun _ hc => by cases hc

/-- A change of cells ahead is a part of a walk that goes nowhere. -/
theorem of_edited (h : Edited d d' s ahead ahead') : Progress d d' s [] ahead [] ahead' [] :=
  .of_leaves h .nil h.pared fun _ hc => by cases hc

/-- A part of a walk, and all that comes after it. -/
theorem trans_last (hwalk : Walking d s (eaten ++ rest))
    (h : Progress d d' s eaten rest front rest' out)
    (h' : Progress d' d'' (s.past front) rest' [] front₂ [] out₂) :
    Progress d d'' s (eaten ++ rest) [] (front ++ front₂) [] (out ++ out₂) := by
  have hwalk' : Walking d s (eaten ++ (rest ++ [])) := by simpa using hwalk
  have h₁ : Progress d d' s eaten (rest ++ []) front (rest' ++ []) out := by
    simpa using h
  exact h₁.trans hwalk' h.pared .nil h'

/-- The cells that are done may change their order. -/
theorem perm {out' : List Cell} (hperm : out.Perm out')
    (h : Progress d d' s eaten rest front rest' out) :
    Progress d d' s eaten rest front rest' out' :=
  { h with
    shown := h.shown.perm hperm
    traced := fun v hv => h.traced v ((Cell.perm_tags hperm).mem_iff.mpr hv)
    houses := h.houses.mono fun _ hi => (Cell.perm_places hperm).mem_iff.mp hi }

/-- A new token among those that are done. -/
theorem insert (out₁ : List Cell) (kind : Kind) (hkind : kind ≠ .container) (text : Text)
    (h : Progress d d' s eaten rest front rest' (out₁ ++ out₂)) :
    Progress d (d'.extend (Edit.made kind text)) s eaten rest front rest'
      (out₁ ++ Cell.made d'.tokens.size kind text :: out₂) := by
  refine ⟨h.walking.extend _, h.kept.trans (.extend (fun _ => False) d' _) fun _ _ hi => hi.elim,
    h.ids_front, h.pared, h.shown.insert out₁ kind hkind text, ?_, ?_⟩
  · exact h.traced.insert out₁ h.kept.size kind text
  · exact h.houses.insert out₁ kind text

end Progress

end Document

end Macro10
