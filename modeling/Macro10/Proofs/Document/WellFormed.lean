import Macro10.Proofs.Document.Rendering

/-!
# Well-formed documents

A document is well-formed if its tokens form a tree and their links are those of the tree. In such a
document every walk along the links comes to an end. A document that holds a row of cells is
well-formed (`Standing.wellFormed`).
-/

namespace Macro10.Document

open List

/-- The lists of siblings that can be reached from the top level, each with the group that holds
it. -/
inductive Scope (d : Document) : Option Id → List Id → Prop
  | root : Scope d none d.root
  | children {parent : Option Id} {ids children : List Id} {i : Id} {t : Token}
      (h : Scope d parent ids) (hi : i ∈ ids) (ht : d.tokens[i]? = some t)
      (hchildren : t.children = some children) : Scope d (some i) children

/-- The tokens of a document form a tree, and their links are those of the tree. -/
structure WellFormed (d : Document) : Prop where
  /-- No token stands twice in a list. -/
  nodup : ∀ {parent : Option Id} {ids : List Id}, d.Scope parent ids → ids.Nodup
  /-- No token stands in two lists. -/
  unique : ∀ {parent parent' : Option Id} {ids ids' : List Id} {i : Id}, d.Scope parent ids →
    d.Scope parent' ids' → i ∈ ids → i ∈ ids' → parent = parent' ∧ ids = ids'
  /-- A token is linked to its neighbours and to the group that holds it. -/
  linked : ∀ {parent : Option Id} {before after : List Id} {i : Id},
    d.Scope parent (before ++ i :: after) → ∃ t, d.tokens[i]? = some t ∧ t.parent = parent ∧
      t.prev = before.getLast? ∧ t.next = after.head?
  /-- A group has children and no text, any other token a text and no children. -/
  shaped : ∀ {parent : Option Id} {ids : List Id} {i : Id}, d.Scope parent ids → i ∈ ids →
    ∃ t, d.tokens[i]? = some t ∧ (t.kind = .container ↔ t.children.isSome) ∧
      (t.kind = .container ↔ t.text = none)

/-- Every question about the token at `i` has an answer. -/
structure Answers (d : Document) (i : Id) : Prop where
  prevSolid : ∃ a, d.prevSolid i = .ok a
  nextSolid : ∃ a, d.nextSolid i = .ok a
  solidFrom : ∃ a, d.solidFrom i = .ok a
  nextNonBlank : ∃ a, d.nextNonBlank i = .ok a
  lineStart : ∃ a, d.lineStart i = .ok a
  restOfLine : ∃ a, d.restOfLine i = .ok a
  lineText : ∃ a, d.lineText i = .ok a
  findOnLine : ∀ kind text, ∃ a, d.findOnLine i kind text = .ok a
  findInArguments : ∀ kind text, ∃ a, d.findInArguments i kind text = .ok a
  renderToken : ∃ a, d.renderToken i = .ok a

/-- The links of a document lead through its lists, and every question has an answer. -/
structure Navigable (d : Document) : Prop where
  forward : d.Follows Token.next d.root.head? d.root
  answers : ∀ {parent : Option Id} {ids : List Id} {i : Id}, d.Scope parent ids → i ∈ ids →
    d.Answers i

variable {d : Document} {parent : Option Id} {ids : List Id}

theorem Scope.eq {ids' : List Id} (h : d.Scope parent ids) (h' : d.Scope parent ids') :
    ids = ids' := by
  cases h with
  | root => cases h'; rfl
  | children h hi ht hchildren =>
    cases h' with
    | children h' hi' ht' hchildren' =>
      cases ht.symm.trans ht'
      exact Option.some.inj (hchildren.symm.trans hchildren')

/-- All lists of siblings are linked. -/
def Linked (d : Document) : Prop :=
  ∀ {parent : Option Id} {ids : List Id}, d.Scope parent ids → d.Chained parent ids

theorem WellFormed.chained (h : d.WellFormed) : d.Linked := by
  intro parent ids hscope before after i hsplit
  exact h.linked (hsplit ▸ hscope)

/-! ## Texts -/

namespace Linked

variable {i : Id} {before after : List Id}

/-- The parents of a token lead to the top level. -/
theorem exists_ancestors (h : d.Linked) (hscope : d.Scope parent ids) :
    ∃ path, d.Follows Token.parent parent path := by
  induction hscope with
  | root => exact ⟨[], .nil⟩
  | @children parent ids children i t hscope hi ht _ ih =>
    obtain ⟨path, hpath⟩ := ih
    obtain ⟨before, after, rfl⟩ := append_of_mem hi
    obtain ⟨t', ht', hparent, -⟩ := h hscope _ _ _ rfl
    rw [← hparent] at hpath
    exact ⟨i :: path, .cons ht' hpath⟩

/-- Every token has a text: groups are nested no more deeply than there are tokens. -/
theorem exists_renderWithin (h : d.Linked) {path : List Id} {fuel : Nat}
    (hscope : d.Scope parent ids) (hi : i ∈ ids) (hpath : d.Follows Token.parent parent path)
    (hfuel : d.tokens.size < fuel + path.length) : ∃ a, d.renderWithin fuel i = .ok a := by
  induction fuel generalizing parent ids i path with
  | zero => exact absurd hpath.length_le (by omega)
  | succ fuel ih =>
    obtain ⟨before, after, rfl⟩ := append_of_mem hi
    obtain ⟨t, ht, hparent, -⟩ := h hscope _ _ _ rfl
    rw [renderWithin, token_eq_ok_iff.mpr ht]
    simp only [bind, Except.bind]
    split
    · have hinner : ∀ j ∈ t.children.getD [], d.renderWithin fuel j =
          .ok ((d.renderWithin fuel j).toOption.getD []) := by
        intro j hj
        suffices ∃ a, d.renderWithin fuel j = .ok a by
          obtain ⟨a, ha⟩ := this
          rw [ha]
          rfl
        cases hchildren : t.children with
        | none => rw [hchildren] at hj; cases hj
        | some children =>
          rw [hchildren] at hj
          refine ih (.children hscope hi ht hchildren) hj (.cons ht (hparent ▸ hpath)) ?_
          rw [length_cons]
          omega
      rw [mapM_eq_ok hinner]
      exact ⟨_, rfl⟩
    · exact ⟨_, rfl⟩

theorem exists_renderToken (h : d.Linked) (hscope : d.Scope parent ids) (hi : i ∈ ids) :
    ∃ a, d.renderToken i = .ok a := by
  obtain ⟨path, hpath⟩ := h.exists_ancestors hscope
  exact h.exists_renderWithin hscope hi hpath (by rw [walkLimit]; omega)

/-- The rest of a line, from any place of a list on. -/
theorem exists_restOfLine (h : d.Linked) (hscope : d.Scope parent (before ++ i :: after)) :
    ∃ texts, (i :: after).mapM d.renderToken = .ok texts ∧
      d.restOfLine i = .ok (texts.flatten.takeWhile (!·.endsLine)) :=
  ((h hscope).follows_next before).restOfLineWithin_eq fun _ hj =>
    h.exists_renderToken hscope (mem_append_right before hj)

theorem exists_lineText (h : d.Linked) (hscope : d.Scope parent (before ++ i :: after)) :
    ∃ start texts, d.lineStart i = .ok start ∧
      ((d.lineBefore before).reverse ++ i :: after).head? = some start ∧
      ((d.lineBefore before).reverse ++ i :: after).mapM d.renderToken = .ok texts ∧
      d.lineText i = .ok (texts.flatten.takeWhile (!·.endsLine)) := by
  obtain ⟨earlier, start, rest, hstart, hline, hsplit⟩ := (h hscope).exists_lineStart
  rw [← hsplit] at hscope
  obtain ⟨texts, htexts, hrest⟩ := h.exists_restOfLine hscope
  refine ⟨start, texts, hstart, by rw [hline]; rfl, by rw [hline, htexts], ?_⟩
  rw [lineText, hstart]
  exact hrest

/-- **If all lists of siblings are linked, every question has an answer.** -/
theorem answers (h : d.Linked) (hscope : d.Scope parent ids) (hi : i ∈ ids) : d.Answers i := by
  have hrender := h.exists_renderToken hscope hi
  obtain ⟨before, after, rfl⟩ := append_of_mem hi
  have hchained := h hscope
  obtain ⟨texts, -, hrest⟩ := h.exists_restOfLine hscope
  obtain ⟨start, _, hstart, -, -, htext⟩ := h.exists_lineText hscope
  exact ⟨⟨_, hchained.prevSolid_eq⟩, ⟨_, hchained.nextSolid_eq⟩, ⟨_, hchained.solidFrom_eq⟩,
    ⟨_, hchained.nextNonBlank_eq⟩, ⟨start, hstart⟩, ⟨_, hrest⟩, ⟨_, htext⟩,
    fun kind text => ⟨_, hchained.findOnLine_eq kind text⟩,
    fun kind text => ⟨_, hchained.findInArguments_eq kind text⟩, hrender⟩

end Linked

/-! ## Documents that hold a row -/

namespace Standing

variable {marked : Bool} {cs : List Cell}

theorem exists_cells (h : Standing marked d none cs) (hroot : d.root = Cell.ids cs)
    (hscope : d.Scope parent ids) : ∃ xs, ids = Cell.ids xs ∧ Standing marked d parent xs := by
  induction hscope with
  | root => exact ⟨cs, hroot, h⟩
  | children hscope hi ht hchildren ih =>
    obtain ⟨xs, rfl, hxs⟩ := ih
    obtain ⟨c, hc, rfl⟩ := mem_map.mp hi
    obtain ⟨t', ht', hlooks⟩ := hxs.row.looks c hc
    cases ht.symm.trans ht'
    obtain ⟨us, vs, rfl⟩ := append_of_mem hc
    refine ⟨c.inside, ?_, hxs.inside⟩
    rw [hlooks.children] at hchildren
    split at hchildren
    · exact (Option.some.inj hchildren).symm
    · cases hchildren

theorem wellFormed (h : Standing marked d none cs) (hroot : d.root = Cell.ids cs) :
    d.WellFormed where
  nodup hscope := by
    obtain ⟨xs, rfl, hxs⟩ := h.exists_cells hroot hscope
    exact hxs.distinct.sublist (Cell.ids_sublist_places xs)
  unique := by
    intro parent parent' ids ids' i hscope hscope' hi hi'
    -- the token has one parent, and the parent has one list of children
    obtain ⟨xs, hids, hxs⟩ := h.exists_cells hroot hscope
    obtain ⟨xs', hids', hxs'⟩ := h.exists_cells hroot hscope'
    obtain ⟨before, after, hsplit⟩ := append_of_mem hi
    obtain ⟨before', after', hsplit'⟩ := append_of_mem hi'
    obtain ⟨t, ht, hparent, -⟩ := hxs.row.chained _ _ _ (hsplit.symm.trans hids)
    obtain ⟨t', ht', hparent', -⟩ := hxs'.row.chained _ _ _ (hsplit'.symm.trans hids')
    cases ht.symm.trans ht'
    obtain rfl := hparent.symm.trans hparent'
    exact ⟨rfl, hscope.eq hscope'⟩
  linked hscope := by
    obtain ⟨xs, hids, hxs⟩ := h.exists_cells hroot hscope
    exact hxs.row.chained _ _ _ hids
  shaped hscope hi := by
    obtain ⟨xs, rfl, hxs⟩ := h.exists_cells hroot hscope
    obtain ⟨c, hc, rfl⟩ := mem_map.mp hi
    obtain ⟨t, ht, hlooks⟩ := hxs.row.looks c hc
    refine ⟨t, ht, ?_, ?_⟩
    · rw [hlooks.kind, hlooks.children]
      split <;> simp_all
    · rw [hlooks.kind, hlooks.text, Piece.token]
      split <;> simp_all

theorem navigable (h : Standing marked d none cs) (hroot : d.root = Cell.ids cs) :
    d.Navigable where
  forward := ((h.wellFormed hroot).chained .root).follows_next []
  answers := Linked.answers (h.wellFormed hroot).chained

end Standing

end Macro10.Document
