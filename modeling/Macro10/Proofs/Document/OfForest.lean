import Macro10.Proofs.Document.Placement

/-!
# The document of a forest

The document of a forest holds the row of the forest (`standing_ofForest`): its links fit together,
and nothing is marked yet.
-/

namespace Macro10

open List

namespace Forest

/-- No token that stands for itself is of the kind of groups. -/
def Plain : Forest → Prop
  | nil => True
  | leaf kind _ _ rest => kind ≠ .container ∧ rest.Plain
  | group _ _ children rest => children.Plain ∧ rest.Plain

/-- The cells of the forest if the first token is at `first`. -/
def cells (first : Id) : Forest → List Cell
  | nil => []
  | leaf kind text _ rest => .node (first, { kind, text }) [] :: rest.cells (first + 1)
  | group _ closed children rest =>
    .node (first, { kind := .container, opening := [.char '<'],
                    closing := if closed then [.char '>'] else [] }) (children.cells (first + 1)) ::
      rest.cells (first + children.size + 1)

@[simp]
theorem ids_cells (f : Forest) (first : Id) : Cell.ids (f.cells first) = f.ids first := by
  induction f generalizing first with
  | nil => rfl
  | leaf kind text position rest ih => simp [cells, ids, ih]
  | group position closed children rest _ ih => simp [cells, ids, ih]

@[simp]
theorem items_cells (f : Forest) (first : Id) : Cell.items (f.cells first) = f.items := by
  induction f generalizing first with
  | nil => rfl
  | leaf kind text position rest ih =>
    rw [cells, Cell.items_cons, ih, items]
    simp [Cell.item, Nest.map]
  | group position closed children rest ihc ih =>
    rw [cells, Cell.items_cons, ih, items, ← ihc (first + 1)]
    simp [Cell.item, Nest.map, Cell.items]

/-- Tokens are numbered in order, without gaps. -/
theorem places_cells (f : Forest) (first : Id) :
    Cell.places (f.cells first) = List.range' first f.size := by
  induction f generalizing first with
  | nil => rfl
  | leaf kind text position rest ih =>
    rw [cells, Cell.places_cons, ih, size, range'_succ]
    rfl
  | group position closed children rest ihc ih =>
    have hsplit : List.range' (first + 1) (children.size + rest.size) =
        List.range' (first + 1) children.size ++
          List.range' (first + children.size + 1) rest.size := by
      rw [← range'_append_1]
      congr 2
      omega
    rw [cells, Cell.places_cons, ih, size, range'_succ, hsplit, ← ihc (first + 1)]
    rfl

end Forest

namespace Document

/-- From the place `first` on, the document holds the given tokens. -/
def Has (d : Document) (first : Id) (ts : List Token) : Prop :=
  ∀ k t, ts[k]? = some t → d.tokens[first + k]? = some t

variable {d : Document} {parent : Option Id} {first : Id}

theorem has_cons {t : Token} {ts : List Token} :
    d.Has first (t :: ts) ↔ d.tokens[first]? = some t ∧ d.Has (first + 1) ts := by
  constructor
  · intro h
    refine ⟨by simpa using h 0 t, fun k u hu => ?_⟩
    have hu' := h (k + 1) u (by simpa using hu)
    rwa [← Nat.add_assoc, Nat.add_right_comm] at hu'
  · rintro ⟨hfirst, hrest⟩ k u hu
    cases k with
    | zero => simpa using hu ▸ hfirst
    | succ k =>
      have hu' := hrest k u (by simpa using hu)
      rwa [Nat.add_right_comm] at hu'

theorem has_append {ts us : List Token} :
    d.Has first (ts ++ us) ↔ d.Has first ts ∧ d.Has (first + ts.length) us := by
  induction ts generalizing first with
  | nil => simp [Has]
  | cons t ts ih =>
    rw [cons_append, has_cons, ih, has_cons, length_cons, and_assoc,
      Nat.add_right_comm first 1, Nat.add_assoc first]

/-- A token that was read has no marks yet. -/
theorem marked_of_none {t : Token} {p : Piece} {before after : List Id}
    (howner : t.owner = none ∧ p.owner = none) (hparts : t.parts = none ∧ p.parts = none)
    (hbody : t.body = none ∧ p.body = false) : t.Marked p before after := by
  refine ⟨by simp [howner], ?_, by simp [hparts], ?_, by simp [hbody]⟩
  · simp [howner]
  · simp [hparts]

/-- Each list of siblings is placed, with what is inside its groups. -/
theorem placed_cells (before : List Id) {f : Forest} (hplain : f.Plain) {prev : Option Id}
    (hprev : prev = before.head?) (h : d.Has first (f.tokens parent first prev)) :
    d.Placed true parent before (f.cells first) [] ∧ ∀ c ∈ f.cells first, d.Nested true c := by
  induction f generalizing parent first before prev with
  | nil => exact ⟨trivial, fun _ hc => by cases hc⟩
  | leaf kind text position rest ih =>
    obtain ⟨hkind, hrest⟩ := hplain
    obtain ⟨hfirst, htail⟩ := has_cons.mp h
    obtain ⟨hplaced, hnested⟩ := ih (first :: before) hrest rfl htail
    refine ⟨⟨⟨_, hfirst, ⟨rfl, ?_, rfl, rfl, ?_⟩, ⟨rfl, hprev, ?_⟩, fun _ =>
      marked_of_none ⟨rfl, rfl⟩ ⟨rfl, rfl⟩ ⟨rfl, rfl⟩⟩, hplaced⟩, ?_⟩
    · simp [Piece.token, hkind]
    · simp [hkind]
    · simp [Forest.head?_ids]
    · rintro c hc
      rcases mem_cons.mp hc with rfl | hc
      · exact .of_empty rfl
      · exact hnested c hc
  | group position closed children rest ihc ih =>
    obtain ⟨hchildren, hrest⟩ := hplain
    obtain ⟨hfirst, htail⟩ := has_cons.mp h
    obtain ⟨hinside, htail⟩ := has_append.mp htail
    rw [Forest.length_tokens, Nat.add_right_comm] at htail
    obtain ⟨hplacedInside, hnestedInside⟩ := ihc [] hchildren rfl hinside
    obtain ⟨hplaced, hnested⟩ := ih (first :: before) hrest rfl htail
    refine ⟨⟨⟨_, hfirst, ⟨rfl, rfl, rfl, rfl, ?_⟩, ⟨rfl, hprev, ?_⟩, fun _ =>
      marked_of_none ⟨rfl, rfl⟩ ⟨rfl, rfl⟩ ⟨rfl, rfl⟩⟩, hplaced⟩, ?_⟩
    · simp
    · simp [Forest.head?_ids]
    · rintro c hc
      rcases mem_cons.mp hc with rfl | hc
      · exact ⟨fun hne => absurd rfl hne, hplacedInside, hnestedInside⟩
      · exact hnested c hc

/-- **What is read stands in its document.** -/
theorem standing_ofForest {f : Forest} (hplain : f.Plain) (newline : Text)
    (diagnostics : List Diagnostic) :
    Standing true (ofForest f newline diagnostics) none (f.cells 0) := by
  have hhas : (ofForest f newline diagnostics).Has 0 (f.tokens none 0 none) := by
    intro k t ht
    simpa [ofForest] using ht
  obtain ⟨hplaced, hnested⟩ := placed_cells [] hplain rfl hhas
  refine ⟨hplaced, hnested, ?_⟩
  rw [Forest.places_cells]
  exact nodup_range'

end Document

end Macro10
