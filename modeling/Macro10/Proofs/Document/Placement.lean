import Macro10.Proofs.Document.Steps
import Macro10.Proofs.Piece
import Mathlib.Data.List.Perm.Subperm

/-!
# Items placed in a document

A *cell* is an item whose pieces have places. A document holds a row of cells if each cell's token
shows its piece, is linked to its neighbours, and has marks that name the places at the distances
which the piece gives: `Placed` for one list of siblings, `Nested` for all that is inside a cell. So
what a pass asks and changes can be read off the row.
-/

namespace Macro10

open List
open Nest (listing setValue values_eq)

variable {cs : List Cell}

/-! ## Cells -/

/-- An item whose pieces have places. -/
abbrev Cell := Nest (Id × Piece)

namespace Cell

/-- The place of the cell. -/
def id (c : Cell) : Id := c.value.1

/-- The piece of the cell. -/
def piece (c : Cell) : Piece := c.value.2

/-- The cell without the places. -/
def item (c : Cell) : Item := c.map Prod.snd

/-- The cell with another piece. -/
def setPiece (p : Piece) (c : Cell) : Cell := setValue (c.id, p) c

/-- The cell as empty white space. -/
def blanked (c : Cell) : Cell := .node (c.id, c.piece.blanked) []

/-- The cell with another text. -/
def setText (text : Text) (c : Cell) : Cell := setPiece (c.piece.setText text) c

/-- A cell that the program puts in at the place `i`. -/
def made (i : Id) (kind : Kind) (text : Text) : Cell := .node (i, .made kind text) []

/-- The places of cells, without what is inside them. -/
def ids (cs : List Cell) : List Id := cs.map id

/-- The pieces of cells, without what is inside them. -/
def pieces (cs : List Cell) : List Piece := cs.map piece

/-- The cells without the places. -/
def items (cs : List Cell) : List Item := cs.map item

/-- All places of cells, with those inside. -/
def places (cs : List Cell) : List Id := (listing cs).map Prod.fst

/-- The place of the cell with its label. -/
def tag (c : Cell) : Id × Option Nat := (c.id, c.piece.label)

/-- All places of cells with their labels. -/
def tags (cs : List Cell) : List (Id × Option Nat) :=
  (listing cs).map fun v => (v.1, v.2.label)

section

variable (c : Cell) (cs ds : List Cell)

@[simp] theorem id_node (v : Id × Piece) (cs : List Cell) : id (.node v cs) = v.1 := rfl
@[simp] theorem piece_node (v : Id × Piece) (cs : List Cell) : piece (.node v cs) = v.2 := rfl
@[simp] theorem id_setPiece (p : Piece) : (setPiece p c).id = c.id := rfl
@[simp] theorem piece_setPiece (p : Piece) : (setPiece p c).piece = p := rfl
@[simp] theorem inside_setPiece (p : Piece) : (setPiece p c).inside = c.inside := rfl
@[simp] theorem id_blanked : (blanked c).id = c.id := rfl
@[simp] theorem piece_blanked : (blanked c).piece = c.piece.blanked := rfl
@[simp] theorem inside_blanked : (blanked c).inside = [] := rfl
@[simp] theorem id_setText (text : Text) : (setText text c).id = c.id := rfl
@[simp] theorem piece_setText (text : Text) :
    (setText text c).piece = c.piece.setText text := rfl
@[simp] theorem inside_setText (text : Text) : (setText text c).inside = c.inside := rfl

@[simp] theorem ids_nil : ids [] = [] := rfl
@[simp] theorem ids_cons : ids (c :: cs) = c.id :: ids cs := rfl
@[simp] theorem ids_append : ids (cs ++ ds) = ids cs ++ ids ds := by simp [ids]
@[simp] theorem ids_reverse : ids cs.reverse = (ids cs).reverse := by simp [ids]
@[simp] theorem length_ids : (ids cs).length = cs.length := by simp [ids]
@[simp] theorem pieces_nil : pieces [] = [] := rfl
@[simp] theorem pieces_cons : pieces (c :: cs) = c.piece :: pieces cs := rfl
@[simp] theorem pieces_append : pieces (cs ++ ds) = pieces cs ++ pieces ds := by simp [pieces]
@[simp] theorem pieces_reverse : pieces cs.reverse = (pieces cs).reverse := by simp [pieces]
/-- What is dropped from the pieces is dropped from the cells. -/
theorem dropWhile_pieces (p : Piece → Bool) :
    (pieces cs).dropWhile p = pieces (cs.dropWhile fun c => p c.piece) := by
  simp [pieces, dropWhile_map, Function.comp_def]
theorem takeWhile_pieces (p : Piece → Bool) :
    (pieces cs).takeWhile p = pieces (cs.takeWhile fun c => p c.piece) := by
  simp [pieces, takeWhile_map, Function.comp_def]
@[simp] theorem items_nil : items [] = [] := rfl
@[simp] theorem items_cons : items (c :: cs) = c.item :: items cs := rfl
@[simp] theorem items_append : items (cs ++ ds) = items cs ++ items ds := by simp [items]
@[simp] theorem length_items : (items cs).length = cs.length := by simp [items]
/-- The first items are those of the first cells. -/
theorem take_items (n : Nat) : (items cs).take n = items (cs.take n) := by simp [items]
theorem drop_items (n : Nat) : (items cs).drop n = items (cs.drop n) := by simp [items]
@[simp] theorem places_nil : places [] = [] := rfl
@[simp] theorem places_append : places (cs ++ ds) = places cs ++ places ds := by simp [places]

@[simp]
theorem places_cons : places (c :: cs) = c.id :: places c.inside ++ places cs := by
  simp [places, values_eq, id, listing]

@[simp] theorem tags_nil : tags [] = [] := rfl
@[simp] theorem tags_append : tags (cs ++ ds) = tags cs ++ tags ds := by simp [tags]

@[simp]
theorem tags_cons : tags (c :: cs) = c.tag :: tags c.inside ++ tags cs := by
  simp [tags, values_eq, tag, id, piece, listing]

/-- The places are part of the tags. -/
theorem map_fst_tags : (tags cs).map Prod.fst = places cs := by
  simp [tags, places, Function.comp_def]

theorem id_eq_of_tag {c c' : Cell} (h : c'.tag = c.tag) : c'.id = c.id := (Prod.mk.inj h).1

@[simp] theorem value_item : c.item.value = c.piece := by simp [item, piece]
@[simp] theorem inside_item : c.item.inside = items c.inside := by simp [item, items]
theorem map_value_items : (items cs).map Nest.value = pieces cs := by simp [items, pieces]

/-- The places of the cells themselves come in the same order. -/
theorem ids_sublist_places : (ids cs).Sublist (places cs) := by
  induction cs with
  | nil => exact .slnil
  | cons c cs ih =>
    rw [ids_cons, places_cons]
    exact (ih.trans (sublist_append_right _ _)).cons_cons c.id

theorem ids_subset_places : ids cs ⊆ places cs := (ids_sublist_places cs).subset

/-- Where the list of places splits, the cells split. -/
theorem exists_of_ids_eq {cs : List Cell} {before after : List Id} {i : Id}
    (h : before ++ i :: after = ids cs) :
    ∃ xs c ys, cs = xs ++ c :: ys ∧ ids xs = before ∧ c.id = i ∧ ids ys = after := by
  obtain ⟨xs, zs, rfl, hxs, hzs⟩ := append_eq_map_iff.mp h
  obtain ⟨c, ys, rfl, hc, hys⟩ := map_eq_cons_iff.mp hzs
  exact ⟨xs, c, ys, rfl, hxs, hc, hys⟩

theorem perm_places {cs ds : List Cell} (h : cs.Perm ds) : (places cs).Perm (places ds) :=
  (h.flatMap_right _).map _

theorem perm_tags {cs ds : List Cell} (h : cs.Perm ds) : (tags cs).Perm (tags ds) :=
  (h.flatMap_right _).map _

/-- A place is that of a cell, or inside one. -/
theorem mem_places {i : Id} : i ∈ places cs ↔ ∃ c ∈ cs, i = Cell.id c ∨ i ∈ places c.inside := by
  induction cs with
  | nil => simp
  | cons c cs ih => simp [ih, or_assoc]

theorem places_inside_subset {c : Cell} {cs : List Cell} (h : c ∈ cs) :
    places c.inside ⊆ places cs := by
  intro i hi
  exact (mem_places cs).mpr ⟨c, h, .inr hi⟩

/-- There is less inside a cell than in its row. -/
theorem length_places_inside_lt {c : Cell} {cs : List Cell} (h : c ∈ cs) :
    (places c.inside).length < (places cs).length := by
  obtain ⟨xs, ys, rfl⟩ := append_of_mem h
  simp only [places_append, places_cons, length_append, length_cons]
  omega

/-- The place of one cell is not inside another. -/
theorem id_notMem_places_inside {c x : Cell} {cs : List Cell} (h : (places cs).Nodup)
    (hc : c ∈ cs) (hx : x ∈ cs) : c.id ∉ places x.inside := by
  induction cs with
  | nil => cases hc
  | cons e cs ih =>
    rw [places_cons, cons_append, nodup_cons, nodup_append] at h
    obtain ⟨hid, -, hrest, hdisjoint⟩ := h
    rw [mem_append, not_or] at hid
    rcases mem_cons.mp hc with rfl | hc' <;> rcases mem_cons.mp hx with rfl | hx'
    · exact hid.1
    · exact fun hi => hid.2 (places_inside_subset hx' hi)
    · exact fun hi => hdisjoint _ hi _ ((mem_places cs).mpr ⟨c, hc', .inl rfl⟩) rfl
    · exact ih hrest hc' hx'

/-- An item is a piece with what is inside. -/
theorem items_eq_zipWith :
    items cs = List.zipWith Nest.node (pieces cs) (cs.map fun c => items c.inside) := by
  induction cs with
  | nil => rfl
  | cons c cs ih =>
    rw [items_cons, pieces_cons, map_cons, zipWith_cons_cons, ← ih, ← value_item,
      ← inside_item, Nest.node_value_inside]

@[simp]
theorem setPiece_self : setPiece c.piece c = c := by
  cases c; rfl

@[simp]
theorem setText_self : setText c.piece.text c = c := by
  cases c; rfl

/-- To change a piece is to change the item. -/
theorem item_setPiece (p : Piece) : (setPiece p c).item = setValue p c.item := by
  cases c
  simp [item, setPiece, Nest.map, setValue]

@[simp]
theorem item_setText (text : Text) : (setText text c).item = Item.setText text c.item := by
  rw [setText, item_setPiece, Item.setText, value_item]

@[simp]
theorem item_blanked : (blanked c).item = Item.blanked c.item := by
  simp [blanked, item, Nest.map, Item.blanked, piece]

@[simp]
theorem item_made (i : Id) (kind : Kind) (text : Text) :
    (made i kind text).item = Item.made kind text := by
  simp [made, item, Nest.map, Item.made]

end

end Cell

/-! ## Tokens that show pieces -/

namespace Token

/-- The token looks like the piece, and its children are `inside`. -/
structure Shows (t : Token) (p : Piece) (inside : List Id) : Prop where
  kind : t.kind = p.kind
  text : t.text = p.token.text
  opening : t.opening = p.opening
  closing : t.closing = p.closing
  children : t.children = if p.kind = .container then some inside else none

/-- The token stands between the given ones; those before it are given nearest first. -/
structure Linked (t : Token) (parent : Option Id) (before after : List Id) : Prop where
  parent : t.parent = parent
  prev : t.prev = before.head?
  next : t.next = after.head?

/-- The token's marks name the places at the distances that the piece gives. -/
structure Marked (t : Token) (p : Piece) (before after : List Id) : Prop where
  owner : t.owner = p.owner.bind (before[·]?)
  owner_lt : ∀ k, p.owner = some k → k < before.length
  parts : t.parts = p.parts.map after.take
  parts_le : ∀ n, p.parts = some n → n ≤ after.length
  body : t.body = if p.body then (after.take (p.parts.getD 0)).getLast? else none

/-- The token shows the piece in its place; `marked` tells whether its marks count. -/
structure Fits (marked : Bool) (t : Token) (parent : Option Id) (before after : List Id)
    (p : Piece) (inside : List Id) : Prop where
  looks : t.Shows p inside
  linked : t.Linked parent before after
  marks : marked = true → t.Marked p before after

/-- What a token shows may change while its links and marks stay. -/
theorem Fits.of_shows {marked : Bool} {t u : Token} {parent : Option Id}
    {before after inside inside' : List Id} {p q : Piece}
    (h : t.Fits marked parent before after p inside) (hlooks : u.Shows q inside')
    (hlinks : (u.parent, u.prev, u.next, u.owner, u.parts, u.body) =
      (t.parent, t.prev, t.next, t.owner, t.parts, t.body))
    (hmarks : (q.owner, q.parts, q.body) = (p.owner, p.parts, p.body)) :
    u.Fits marked parent before after q inside' := by
  simp only [Prod.mk.injEq] at hlinks hmarks
  obtain ⟨hparent, hprev, hnext, howner, hparts, hbody⟩ := hlinks
  obtain ⟨hqowner, hqparts, hqbody⟩ := hmarks
  refine ⟨hlooks, ⟨hparent.trans h.linked.parent, hprev.trans h.linked.prev,
    hnext.trans h.linked.next⟩, fun hmarked => ?_⟩
  have hold := h.marks hmarked
  constructor
  · rw [howner, hqowner, hold.owner]
  · exact hqowner ▸ hold.owner_lt
  · rw [hparts, hqparts, hold.parts]
  · exact hqparts ▸ hold.parts_le
  · rw [hbody, hqbody, hqparts, hold.body]

end Token

/-! ## Rows in a document -/

namespace Document

variable {xs ys : List Cell} {c : Cell}

variable {marked : Bool} {d d' : Document} {parent : Option Id} {before after : List Id}

/-- The token of the cell `c` fits between the given places. -/
def Holds (marked : Bool) (d : Document) (parent : Option Id) (before : List Id) (c : Cell)
    (after : List Id) : Prop :=
  ∃ t, d.tokens[c.id]? = some t ∧ t.Fits marked parent before after c.piece (Cell.ids c.inside)

/-- The token of the cell `c` shows its piece, over its row. -/
abbrev Looks (d : Document) (c : Cell) : Prop :=
  ∃ t, d.tokens[c.id]? = some t ∧ t.Shows c.piece (Cell.ids c.inside)

/-- The document holds the cells as siblings, after and before the given places. -/
def Placed (marked : Bool) (d : Document) (parent : Option Id) :
    List Id → List Cell → List Id → Prop
  | _, [], _ => True
  | before, c :: cs, after =>
    d.Holds marked parent before c (Cell.ids cs ++ after) ∧
      Placed marked d parent (c.id :: before) cs after

/-- A row is placed part by part. -/
theorem placed_append :
    d.Placed marked parent before (xs ++ ys) after ↔
      d.Placed marked parent before xs (Cell.ids ys ++ after) ∧
        d.Placed marked parent ((Cell.ids xs).reverse ++ before) ys after := by
  induction xs generalizing before with
  | nil => simp [Placed]
  | cons c xs ih => simp [Placed, ih, and_assoc]

/-- Each cell is held between its neighbours. -/
theorem Placed.holds (h : d.Placed marked parent before (xs ++ c :: ys) after) :
    d.Holds marked parent ((Cell.ids xs).reverse ++ before) c (Cell.ids ys ++ after) :=
  (placed_append.mp h).2.1

theorem Holds.congr (h : d.Holds marked parent before c after)
    (hd : d'.tokens[c.id]? = d.tokens[c.id]?) : d'.Holds marked parent before c after := by
  obtain ⟨t, ht, hfits⟩ := h
  exact ⟨t, hd.trans ht, hfits⟩

/-- Only the tokens of the row count. -/
theorem Placed.congr (h : d.Placed marked parent before cs after)
    (hd : ∀ i ∈ Cell.ids cs, d'.tokens[i]? = d.tokens[i]?) :
    d'.Placed marked parent before cs after := by
  induction cs generalizing before with
  | nil => trivial
  | cons c cs ih =>
    obtain ⟨hc, hcs⟩ := h
    exact ⟨hc.congr (hd c.id (by simp)), ih hcs fun i hi => hd i (by simp [hi])⟩

/-- One cell of a row may be exchanged. -/
theorem Placed.replace {c' : Cell} (hid : c'.id = c.id)
    (h : d.Placed marked parent before (xs ++ c :: ys) after)
    (hd : ∀ i ∈ Cell.ids xs ++ Cell.ids ys, d'.tokens[i]? = d.tokens[i]?)
    (hc : d.Holds marked parent ((Cell.ids xs).reverse ++ before) c (Cell.ids ys ++ after) →
      d'.Holds marked parent ((Cell.ids xs).reverse ++ before) c' (Cell.ids ys ++ after)) :
    d'.Placed marked parent before (xs ++ c' :: ys) after := by
  obtain ⟨hxs, hhere, hys⟩ := placed_append.mp h
  refine placed_append.mpr ⟨?_, hc hhere, ?_⟩
  · rw [Cell.ids_cons, hid, ← Cell.ids_cons]
    exact hxs.congr fun i hi => hd i (by simp [hi])
  · rw [hid]
    exact hys.congr fun i hi => hd i (by simp [hi])

/-- Every token looks as its cell says. -/
theorem Placed.looks (h : d.Placed marked parent before cs after) : ∀ c ∈ cs, d.Looks c := by
  intro c hc
  obtain ⟨xs, ys, rfl⟩ := append_of_mem hc
  obtain ⟨t, ht, hfits⟩ := h.holds
  exact ⟨t, ht, hfits.looks⟩

/-- All that is inside the cell `c` is placed in the document. -/
inductive Nested (marked : Bool) (d : Document) : Cell → Prop
  | intro {c : Cell} (leaf : c.piece.kind ≠ .container → c.inside = [])
      (row : d.Placed marked (some c.id) [] c.inside [])
      (all : ∀ x ∈ c.inside, Nested marked d x) : Nested marked d c

namespace Nested

variable {c c' : Cell}

section

variable (h : Nested marked d c)
include h

/-- Only groups have something inside. -/
theorem leaf : c.piece.kind ≠ .container → c.inside = [] := by
  cases h; assumption

/-- What is inside a cell is a row of its own. -/
theorem row : d.Placed marked (some c.id) [] c.inside [] := by
  cases h; assumption

theorem all : ∀ x ∈ c.inside, Nested marked d x := by
  cases h; assumption

/-- Only the tokens inside count. -/
theorem congr
    (hd : ∀ i ∈ Cell.places c.inside, d'.tokens[i]? = d.tokens[i]?) : Nested marked d' c := by
  induction h with
  | intro leaf row all ih =>
    refine ⟨leaf, row.congr fun i hi => hd i (Cell.ids_subset_places _ hi), fun x hx => ?_⟩
    exact ih x hx fun i hi => hd i (Cell.places_inside_subset hx hi)

end

theorem of_empty (h : c.inside = []) : Nested marked d c :=
  ⟨fun _ => h, by rw [h]; trivial, by rw [h]; exact fun _ hx => by cases hx⟩

/-- Only the place, what is inside, and whether the cell is a group matter. -/
theorem of_inside (h : Nested marked d c) (hid : c'.id = c.id) (hinside : c'.inside = c.inside)
    (hleaf : c'.piece.kind ≠ .container → c'.inside = []) : Nested marked d c' :=
  ⟨hleaf, by rw [hid, hinside]; exact h.row, by rw [hinside]; exact h.all⟩

/-- What is inside is tokens that look like the pieces. -/
theorem exists_shows (h : Nested marked d c) :
    ∀ v ∈ listing c.inside, ∃ t children, d.tokens[v.1]? = some t ∧ t.Shows v.2 children := by
  induction h with
  | @intro c leaf row all ih =>
    intro v hv
    obtain ⟨x, hx, hmem⟩ := mem_flatMap.mp hv
    rw [values_eq] at hmem
    rcases mem_cons.mp hmem with rfl | hmem
    · obtain ⟨t, ht, hshows⟩ := row.looks x hx
      exact ⟨t, _, ht, hshows⟩
    · exact ih x hx v hmem

theorem exists_token (h : Nested marked d c) :
    ∀ i ∈ Cell.places c.inside, ∃ t, d.tokens[i]? = some t := by
  intro i hi
  obtain ⟨v, hv, rfl⟩ := mem_map.mp hi
  obtain ⟨t, -, ht, -⟩ := h.exists_shows v hv
  exact ⟨t, ht⟩

end Nested

/-! ## Rows that stand -/

/-- The cells are a list of siblings of the document, with all that is inside them. -/
structure Standing (marked : Bool) (d : Document) (parent : Option Id) (cs : List Cell) : Prop where
  row : d.Placed marked parent [] cs []
  nested : ∀ c ∈ cs, d.Nested marked c
  distinct : (Cell.places cs).Nodup

namespace Standing

variable {cs xs ys : List Cell} {c c' : Cell}

section

variable (h : Standing marked d parent cs)
include h

theorem exists_shows :
    ∀ v ∈ listing cs, ∃ t children, d.tokens[v.1]? = some t ∧ t.Shows v.2 children := by
  intro v hv
  obtain ⟨c, hc, hmem⟩ := mem_flatMap.mp hv
  rw [values_eq] at hmem
  rcases mem_cons.mp hmem with rfl | hmem
  · obtain ⟨t, ht, hshows⟩ := h.row.looks c hc
    exact ⟨t, _, ht, hshows⟩
  · exact (h.nested c hc).exists_shows v hmem

/-- Every token has the kind that its cell gives. -/
theorem exists_kind : ∀ v ∈ listing cs, ∃ t, d.tokens[v.1]? = some t ∧ t.kind = v.2.kind := by
  intro v hv
  obtain ⟨t, children, ht, hshows⟩ := h.exists_shows v hv
  exact ⟨t, ht, hshows.kind⟩

/-- No place is outside the document. -/
theorem lt_size : ∀ i ∈ Cell.places cs, i < d.tokens.size := by
  intro i hi
  obtain ⟨v, hv, rfl⟩ := mem_map.mp hi
  obtain ⟨t, ht, -⟩ := h.exists_kind v hv
  exact lt_size_of_getElem? ht

theorem length_places_le : (Cell.places cs).length ≤ d.tokens.size := by
  have hsub : Cell.places cs ⊆ List.range d.tokens.size :=
    fun i hi => mem_range.mpr (h.lt_size i hi)
  simpa using (subperm_of_subset h.distinct hsub).length_le

/-- Changes elsewhere leave a row standing. -/
theorem kept {P : Id → Prop} (hd : Kept P d d')
    (hP : ∀ i ∈ Cell.places cs, ¬P i) : Standing marked d' parent cs where
  row := h.row.congr fun i hi =>
    have hmem := Cell.ids_subset_places cs hi
    hd.tokens i (h.lt_size i hmem) (hP i hmem)
  nested := fun c hc => (h.nested c hc).congr fun i hi =>
    have hmem := Cell.places_inside_subset hc hi
    hd.tokens i (h.lt_size i hmem) (hP i hmem)
  distinct := h.distinct

end

section

variable (h : Standing marked d parent (xs ++ c :: ys))
include h

/-- The tokens of the row, and of what is inside the other cells, are not inside the cell `c`. -/
theorem notMem_inside :
    (∀ i ∈ Cell.ids (xs ++ c :: ys), i ∉ Cell.places c.inside) ∧
      ∀ e ∈ xs ++ ys, ∀ i ∈ Cell.places e.inside, i ∉ Cell.places [c] := by
  constructor
  · intro i hi
    obtain ⟨e, he, rfl⟩ := mem_map.mp hi
    exact Cell.id_notMem_places_inside h.distinct he (by simp)
  · intro e he i hi hmem
    have hdistinct := h.distinct
    rw [← singleton_append, Cell.places_append, Cell.places_append, nodup_append,
      nodup_append] at hdistinct
    rcases mem_append.mp he with he | he
    · exact hdistinct.2.2 i (Cell.places_inside_subset he hi) i (mem_append_left _ hmem) rfl
    · exact hdistinct.2.1.2.2 i hmem i (Cell.places_inside_subset he hi) rfl

/-- The row inside a cell stands too. -/
theorem inside :
    Standing marked d (some c.id) c.inside where
  row := (h.nested c (by simp)).row
  nested := (h.nested c (by simp)).all
  distinct := by
    have hdistinct := h.distinct
    rw [Cell.places_append, Cell.places_cons, nodup_append, cons_append,
      nodup_cons, nodup_append] at hdistinct
    exact hdistinct.2.1.2.1

/-- One token may change together with its cell. -/
theorem edit {f : Token → Token}
    (hid : c'.id = c.id) (hinside : c'.inside = c.inside)
    (hleaf : c'.piece.kind ≠ .container → c'.inside = [])
    (hfits : ∀ t, t.Fits marked parent (Cell.ids xs).reverse (Cell.ids ys) c.piece
      (Cell.ids c.inside) → (f t).Fits marked parent (Cell.ids xs).reverse (Cell.ids ys) c'.piece
      (Cell.ids c'.inside)) :
    Standing marked (d.change c.id f) parent (xs ++ c' :: ys) := by
  obtain ⟨hids, hother⟩ := h.notMem_inside
  have hnodup := h.distinct.sublist (Cell.ids_sublist_places _)
  rw [Cell.ids_append, Cell.ids_cons, nodup_append, nodup_cons] at hnodup
  refine ⟨h.row.replace hid (fun i hi => getElem?_change_ne ?_ d f) ?_, fun e he => ?_, ?_⟩
  · rintro rfl
    rcases mem_append.mp hi with hi | hi
    · exact hnodup.2.2 c.id hi c.id (by simp) rfl
    · exact hnodup.2.1.1 hi
  · rintro ⟨t, ht, hold⟩
    rw [append_nil, append_nil] at hold ⊢
    exact ⟨f t, by rw [hid]; exact getElem?_change_self ht f, hfits t hold⟩
  · have hsame : ∀ e ∈ xs ++ c :: ys, (∀ i ∈ Cell.places e.inside, i ≠ c.id) →
        Nested marked (d.change c.id f) e := fun e he hne =>
      (h.nested e he).congr fun i hi => getElem?_change_ne (hne i hi) d f
    rcases mem_append.mp he with he | he
    · exact hsame e (by simp [he]) fun i hi heq => hother e (by simp [he]) i hi (by simp [heq])
    · rcases mem_cons.mp he with rfl | he
      · refine (hsame c (by simp) fun i hi heq => ?_).of_inside hid hinside hleaf
        exact hids c.id (by simp) (heq ▸ hi)
      · exact hsame e (by simp [he]) fun i hi heq => hother e (by simp [he]) i hi (by simp [heq])
  · simpa [hid, hinside] using h.distinct

/-- The row inside a cell may be exchanged. -/
theorem fill (hkind : c.piece.kind = .container)
    (hcs : Standing marked d' (some c.id) cs) (hkept : Kept (· ∈ Cell.places c.inside) d d')
    (hids : Cell.ids cs = Cell.ids c.inside) (hplaces : Cell.places cs = Cell.places c.inside) :
    Standing marked d' parent (xs ++ .node c.value cs :: ys) := by
  obtain ⟨hrow, hother⟩ := h.notMem_inside
  have hsame : ∀ i ∈ Cell.places (xs ++ c :: ys), i ∉ Cell.places c.inside →
      d'.tokens[i]? = d.tokens[i]? := fun i hi hnot => hkept.tokens i (h.lt_size i hi) hnot
  have hid : Cell.id (.node c.value cs) = c.id := rfl
  refine ⟨h.row.replace hid (fun i hi => ?_) ?_, fun e he => ?_, ?_⟩
  · have hmem : i ∈ Cell.ids (xs ++ c :: ys) := by
      rw [Cell.ids_append, Cell.ids_cons]
      simpa using (mem_append.mp hi).imp_right .inr
    exact hsame i (Cell.ids_subset_places _ hmem) (hrow i hmem)
  · rintro ⟨t, ht, hfits⟩
    refine ⟨t, ?_, ?_⟩
    · rw [hid, hsame c.id (by simp) (hrow c.id (by simp)), ht]
    · rw [Nest.inside_node, hids]
      exact hfits
  · have hnested : ∀ e ∈ xs ++ ys, Nested marked d' e := by
      intro e he
      have he' : e ∈ xs ++ c :: ys := by simpa using (mem_append.mp he).imp_right .inr
      refine (h.nested e he').congr fun i hi => hsame i (Cell.places_inside_subset he' hi) ?_
      exact fun hmem => hother e he i hi (by simp [hmem])
    rcases mem_append.mp he with he | he
    · exact hnested e (by simp [he])
    · rcases mem_cons.mp he with rfl | he
      · exact ⟨fun hne => absurd hkind hne, hcs.row, hcs.nested⟩
      · exact hnested e (by simp [he])
  · simpa [hid, hplaces] using h.distinct

end

end Standing

end Document

end Macro10
