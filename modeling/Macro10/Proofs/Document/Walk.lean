import Macro10.Proofs.Document.OfForest

/-!
# Walks through a document

A walk goes through a document in order: a token, then its children, then the bracket that closes
it (`Document.Walk`). In a document that holds a row of cells, the walk goes through the cells
(`Standing.walk`).
-/

namespace Macro10

/-- A part of a document. -/
inductive Part where
  | token (i : Id)
  /-- The bracket `>` that closes the group at `i`. -/
  | closing (i : Id)
deriving DecidableEq, Repr

/-- The token, if the part is one. -/
def Part.token? : Part → Option Id
  | token i => some i
  | closing _ => none

/-- The bracket that closes the group at `i`, if there is one. -/
def Part.closings (i : Id) (closing : Text) : List Part :=
  if closing = [.char '>'] then [.closing i] else []

@[simp]
theorem Part.filterMap_token?_closings (i : Id) (closing : Text) :
    (closings i closing).filterMap token? = [] := by
  unfold closings
  split <;> rfl

/-- From the given siblings on, the walk goes through the given parts. -/
inductive Document.Walk (d : Document) : List Id → List Part → Prop
  | nil : Walk d [] []
  | leaf {i : Id} {ids : List Id} {t : Token} {parts : List Part} (ht : d.tokens[i]? = some t)
      (hchildren : t.children = none) (h : Walk d ids parts) :
      Walk d (i :: ids) (.token i :: parts)
  | group {i : Id} {ids children : List Id} {t : Token} {parts inside : List Part}
      (ht : d.tokens[i]? = some t) (hchildren : t.children = some children)
      (hinside : Walk d children inside) (h : Walk d ids parts) :
      Walk d (i :: ids) (.token i :: (inside ++ Part.closings i t.closing ++ parts))

/-! ## Cells -/

namespace Cell

/-- The parts of a cell. -/
def partsOf : Cell → List Part
  | .node (i, p) cs =>
    .token i :: (cs.flatMap partsOf ++
      if p.kind = .container then Part.closings i p.closing else [])

/-- The parts of cells, one cell after another. -/
def parts (cs : List Cell) : List Part := cs.flatMap partsOf

variable (c : Cell) (cs : List Cell)

theorem partsOf_eq : partsOf c = .token c.id :: (parts c.inside ++
    if c.piece.kind = .container then Part.closings c.id c.piece.closing else []) := by
  obtain ⟨⟨i, p⟩, cs⟩ := c
  rw [partsOf]
  rfl

@[simp] theorem parts_nil : parts [] = [] := rfl

@[simp]
theorem parts_cons : parts (c :: cs) = .token c.id :: (parts c.inside ++
    (if c.piece.kind = .container then Part.closings c.id c.piece.closing else []) ++
      parts cs) := by
  rw [parts, List.flatMap_cons, partsOf_eq]
  simp [parts]

theorem filterMap_token?_flatMap
    (h : ∀ c ∈ cs, (partsOf c).filterMap Part.token? = c.values.map Prod.fst) :
    (parts cs).filterMap Part.token? = places cs := by
  rw [parts, places, Nest.listing, List.filterMap_flatMap, List.map_flatMap]
  exact List.flatMap_congr h

theorem filterMap_token?_partsOf : (partsOf c).filterMap Part.token? = c.values.map Prod.fst := by
  induction c using Nest.induction with
  | node v cs ih =>
    have hinside := filterMap_token?_flatMap cs ih
    rw [places] at hinside
    rw [partsOf_eq, Nest.values_node]
    split <;> simp [Part.token?, hinside]

/-- The walk meets the places of the row in order. -/
theorem filterMap_token?_parts : (parts cs).filterMap Part.token? = places cs :=
  filterMap_token?_flatMap cs fun c _ => filterMap_token?_partsOf c

end Cell

namespace Document

variable {marked : Bool} {d : Document}

theorem walk_cells {cs : List Cell}
    (h : ∀ c ∈ cs, ∀ {ids parts}, d.Walk ids parts →
      d.Walk (c.id :: ids) (Cell.partsOf c ++ parts)) :
    d.Walk (Cell.ids cs) (Cell.parts cs) := by
  induction cs with
  | nil => exact .nil
  | cons c cs ih =>
    obtain ⟨hc, hcs⟩ := List.forall_mem_cons.mp h
    exact hc (ih hcs)

/-- The walk goes into a cell and comes out of it. -/
theorem Nested.walk {c : Cell} (h : d.Nested marked c) {ids : List Id} {parts : List Part}
    (hlooks : d.Looks c)
    (hrest : d.Walk ids parts) : d.Walk (c.id :: ids) (Cell.partsOf c ++ parts) := by
  induction c using Nest.induction generalizing ids parts with
  | node v cs ih =>
    obtain ⟨t, ht, hshows⟩ := hlooks
    have hchildren := hshows.children
    rw [Cell.partsOf_eq]
    by_cases hkind : v.2.kind = .container
    · rw [Cell.piece_node, if_pos hkind] at hchildren
      have hrow : d.Walk (Cell.ids cs) (Cell.parts cs) :=
        walk_cells fun c hc _ _ hrest => ih c hc (h.all c hc) (h.row.looks c hc) hrest
      have hgroup := Walk.group ht hchildren hrow hrest
      rw [hshows.closing] at hgroup
      simpa [hkind] using hgroup
    · rw [Cell.piece_node, if_neg hkind] at hchildren
      have hinside : cs = [] := h.leaf hkind
      have hleaf := Walk.leaf ht hchildren hrest
      simpa [hkind, hinside] using hleaf

/-- **The walk through a row goes through its cells.** -/
theorem Standing.walk {parent : Option Id} {cs : List Cell} (h : Standing marked d parent cs) :
    d.Walk (Cell.ids cs) (Cell.parts cs) :=
  walk_cells fun c hc _ _ hrest => (h.nested c hc).walk (h.row.looks c hc) hrest

end Document

end Macro10
