import Macro10.Proofs.Arguments
import Macro10.Proofs.Row.Operand

/-!
# Normal forms of normal forms

The marks of a row depend on its line ends, directives, commas and groups, and the normal form has
the same ones in the same places (`Row.map_look_normalAfter`). So a row in normal form is its own
normal form (`Row.normal_normal`), and so is a document (`normalize_idempotent`).
-/

namespace Macro10

open List

namespace Row

variable {p q : Piece} {ps qs : List Piece} {g : Option Gathering}

/-! ## Marks -/

/-- What marks depend on: line ends, directives, commas and groups. -/
def look (p : Piece) : Bool × Option Head × Bool × Bool :=
  (p.isNewline, p.head?, p.isOperator ",", decide (p.kind = .container))

theorem look_eq_iff : look q = look p ↔ q.isNewline = p.isNewline ∧ q.head? = p.head? ∧
    q.isOperator "," = p.isOperator "," ∧ (q.kind = .container ↔ p.kind = .container) := by
  simp only [look, Prod.mk.injEq, decide_eq_decide]

theorem Alike.look_eq (h : Alike p q) : look q = look p :=
  look_eq_iff.mpr ⟨by rw [Piece.isNewline, Piece.isNewline, h.token_eq], h.head?_eq,
    h.isOperator_eq _, by rw [h.kind]⟩

theorem gathering_of_look (h : look q = look p) (g : Option Gathering) :
    gathering g q = gathering g p := by
  obtain ⟨hline, hhead, hcomma, hgroup⟩ := look_eq_iff.mp h
  have hnext (g : Gathering) : g.next q = g.next p := by
    simp only [Gathering.next, hline, hcomma, hgroup]
  simp only [gathering, hhead, hnext]

theorem extent_of_look (h : qs.map look = ps.map look) (ready : Bool) :
    extent ready qs = extent ready ps := by
  induction ps generalizing qs ready with
  | nil => rw [map_eq_nil_iff.mp h]
  | cons p ps ih =>
    obtain ⟨q, qs, rfl, hq, hqs⟩ := map_eq_cons_iff.mp h
    obtain ⟨hline, hhead, hcomma, hgroup⟩ := look_eq_iff.mp hq
    simp only [extent, hline, hhead, hcomma, hgroup, ih hqs]

/-- An operator other than a comma looks like a piece that is blanked out. -/
theorem look_of_isOperator {text : Text} (h : p.isOperator text = true)
    (hcomma : text ≠ ",") : look p = look q.blanked := by
  have hkind := Piece.kind_of_isOperator h
  refine look_eq_iff.mpr ⟨?_, ?_, ?_, ?_⟩
  · rw [Piece.isNewline_blanked, Piece.isNewline_eq_false (by simp [hkind])]
  · rw [Piece.head?, Piece.head?, if_neg (by simp [hkind]), if_neg (by simp)]
  · rw [isOperator_blanked, Piece.isOperator_of_ne h hcomma]
  · simp [hkind]

theorem isOperator_setText (hkind : p.kind = .operator) (text : Text) :
    (p.setText text).isOperator text = true := by
  simp [Piece.isOperator, Token.isOperator, Piece.token, hkind]

theorem look_settled (p : Piece) (rest : List Piece) : look (settled p rest) = look p := by
  unfold settled
  split
  · next hmark =>
    have htext (text : Text) := isOperator_setText (Piece.kind_of_isOperator hmark) text
    rw [look_of_isOperator (q := p) hmark (by decide)]
    exact look_of_isOperator (htext _) (by split <;> decide)
  · rfl

theorem look_parenthesized (p : Piece) : look (parenthesized p) = look p := by
  unfold parenthesized
  split
  · next hgroup =>
    refine look_eq_iff.mpr ⟨?_, ?_, ?_, .rfl⟩
    · rw [Piece.isNewline_eq_false (by simp [hgroup]), Piece.isNewline_eq_false (by simp [hgroup])]
    · simp [Piece.head?, hgroup]
    · rw [Piece.isOperator_of_kind_ne (by simp [hgroup]),
        Piece.isOperator_of_kind_ne (by simp [hgroup])]
  · rfl

/-- What becomes of a piece before the pieces `rest`. -/
theorem look_normal (g : Option Gathering) (p : Piece) (rest : List Piece) :
    look (parenthesized (settled (headed (owned g p) rest) rest)) = look p := by
  rw [look_parenthesized, look_settled, (alike_headed _ rest).look_eq, (alike_owned g p).look_eq]

theorem map_look_leftover (p : Piece) (rest : List Piece) :
    (leftover p rest).map look = rest.map look :=
  map_leftover (fun _ hq => (look_of_isOperator hq (by decide)).symm) p rest

theorem map_look_normalAfter (g : Option Gathering) (ps : List Piece) :
    (normalAfter g ps).map look = ps.map look := by
  induction ps using leftover_induction generalizing g with
  | nil => rfl
  | cons p rest ih =>
    rw [normalAfter_cons, map_cons, look_normal, ih, map_look_leftover, map_cons]

/-! ## Rows -/

/-- A piece that has its marks gets the same ones again. -/
theorem headed_owned_eq (howner : p.owner = (owned g q).owner)
    (hparts : p.parts = (headed (owned g q) qs).parts ∧ p.body = (headed (owned g q) qs).body)
    (hlook : look p = look q) (hrest : ps.map look = qs.map look) : headed (owned g p) ps = p := by
  obtain ⟨hline, hhead, -, -⟩ := look_eq_iff.mp hlook
  have howned : owned g p = p := by
    cases g with
    | none => rfl
    | some c =>
      simp only [owned, hline] at howner ⊢
      split
      · rfl
      · next hq =>
        have howner' : p.owner = some c.distance := by rw [howner, if_neg hq]
        rw [← howner']
  rw [howned, headed]
  split
  · rfl
  · next head hp =>
    simp only [headed, (alike_owned g q).head?_eq, ← hhead, hp] at hparts
    rw [extent_of_look hrest, ← hparts.1, ← hparts.2]

/-- No exclamation mark is left. -/
theorem isOperator_settled (p : Piece) (rest : List Piece) :
    (parenthesized (settled p rest)).isOperator "!" = false := by
  by_cases hmark : p.isOperator "!" = true
  · have hkind := Piece.kind_of_isOperator hmark
    rw [settled, if_pos hmark, parenthesized_of_kind_ne (by simp [hkind])]
    exact Piece.isOperator_of_ne (isOperator_setText hkind _) (by split <;> decide)
  · rw [settled, if_neg hmark]
    by_cases hgroup : p.kind = .container
    · exact Piece.isOperator_of_kind_ne (by simp [parenthesized, hgroup]) _
    · rw [parenthesized_of_kind_ne hgroup]
      simpa using hmark

theorem parenthesized_parenthesized (p : Piece) :
    parenthesized (parenthesized p) = parenthesized p := by
  unfold parenthesized
  by_cases hgroup : p.kind = .container
  · simp only [hgroup, if_true]
    by_cases hopening : p.opening.isEmpty <;> by_cases hclosing : p.closing.isEmpty <;>
      simp [hopening, hclosing]
  · simp only [hgroup, if_false]

theorem normalAfter_normalAfter (g : Option Gathering) (ps : List Piece) :
    normalAfter g (normalAfter g ps) = normalAfter g ps := by
  induction ps using leftover_induction generalizing g with
  | nil => rfl
  | cons p rest ih =>
    obtain ⟨howner, hparts⟩ := marks_settled (headed (owned g p) rest) rest
    rw [owner_headed] at howner
    have hlook := look_normal g p rest
    have hmark := isOperator_settled (headed (owned g p) rest) rest
    have hagain := parenthesized_parenthesized (settled (headed (owned g p) rest) rest)
    have hrest : (normalAfter (gathering g p) (leftover p rest)).map look = rest.map look :=
      (map_look_normalAfter _ _).trans (map_look_leftover p rest)
    rw [normalAfter_cons]
    generalize parenthesized (settled (headed (owned g p) rest) rest) = q at *
    rw [normalAfter_cons, headed_owned_eq howner hparts hlook hrest, gathering_of_look hlook]
    have hleft (qs : List Piece) : leftover q qs = qs := by simp [leftover, joined, hmark]
    rw [settled, hmark, if_neg Bool.false_ne_true, hagain, hleft, ih]

/-- **A row in normal form is its own normal form.** -/
theorem normal_normal (xs : List Item) : normal (normal xs) = normal xs := by
  induction xs using Nest.inside_induction with
  | step xs ih =>
    have hinside : ((normal xs).map fun x => normal x.inside) =
        xs.map fun x => normal x.inside := by
      have hmap (ys : List Item) :
          (ys.map fun x => normal x.inside) = (ys.map Nest.inside).map normal := by
        rw [List.map_map]
        rfl
      rw [hmap, map_inside_normal, List.map_map]
      exact map_congr_left ih
    rw [normal, hinside, map_value_normal, normalAfter_normalAfter, ← normal]

end Row

/-! ## Tokens -/

namespace Token

variable {t t' : Token} {p : Piece} {parent : Option Id} {before after inside : List Id}

/-- A token is determined by its piece and its place, but for its position. -/
theorem Fits.eq (h : t.Fits true parent before after p inside)
    (h' : t'.Fits true parent before after p inside) (hposition : t'.position = t.position) :
    t' = t := by
  have hunmarked := h.looks.unmarked_eq h'.looks hposition
    ⟨h'.linked.parent.trans h.linked.parent.symm, h'.linked.prev.trans h.linked.prev.symm,
      h'.linked.next.trans h.linked.next.symm⟩
  obtain ⟨howner, -, hparts, -, hbody⟩ := h.marks rfl
  obtain ⟨howner', -, hparts', -, hbody'⟩ := h'.marks rfl
  calc t' = { t'.unmarked with owner := t'.owner, parts := t'.parts, body := t'.body } := rfl
    _ = { t.unmarked with owner := t.owner, parts := t.parts, body := t.body } := by
      rw [hunmarked, howner, howner', hparts, hparts', hbody, hbody']
    _ = t := rfl

end Token

namespace Document

variable {d d' : Document} {parent : Option Id} {before after : List Id} {cs : List Cell} {c : Cell}

/-- The tokens of both documents have the same positions. -/
def SamePositions (d d' : Document) : Prop :=
  ∀ {i : Id} {t t' : Token}, d.tokens[i]? = some t → d'.tokens[i]? = some t' →
    t'.position = t.position

theorem Placed.token_eq (hpositions : d.SamePositions d') (h : d.Placed true parent before cs after)
    (h' : d'.Placed true parent before cs after) :
    ∀ c ∈ cs, d'.tokens[c.id]? = d.tokens[c.id]? := by
  induction cs generalizing before with
  | nil => exact fun _ hc => by cases hc
  | cons c cs ih =>
    obtain ⟨⟨t, ht, hfits⟩, hcs⟩ := h
    obtain ⟨⟨t', ht', hfits'⟩, hcs'⟩ := h'
    refine forall_mem_cons.mpr ⟨?_, ih hcs hcs'⟩
    rw [ht, ht', hfits.eq hfits' (hpositions ht ht')]

theorem Nested.token_eq (hpositions : d.SamePositions d') (h : d.Nested true c)
    (h' : d'.Nested true c) : ∀ i ∈ Cell.places c.inside, d'.tokens[i]? = d.tokens[i]? := by
  induction h with
  | @intro c leaf row all ih =>
    intro i hi
    obtain ⟨x, hx, rfl | hmem⟩ := (Cell.mem_places _).mp hi
    · exact row.token_eq hpositions h'.row x hx
    · exact ih x hx (h'.all x hx) i hmem

/-- **Documents that hold the same cells have the same tokens there.** -/
theorem Standing.token_eq (hpositions : d.SamePositions d') (h : d.Standing true parent cs)
    (h' : d'.Standing true parent cs) : ∀ i ∈ Cell.places cs, d'.tokens[i]? = d.tokens[i]? := by
  intro i hi
  obtain ⟨c, hc, rfl | hmem⟩ := (Cell.mem_places _).mp hi
  · exact h.row.token_eq hpositions h'.row c hc
  · exact (h.nested c hc).token_eq hpositions (h'.nested c hc) i hmem

end Document

/-- Cells are determined by what they show and where. -/
theorem Cell.eq_of_items {cs cs' : List Cell} (hitems : Cell.items cs' = Cell.items cs)
    (hplaces : Cell.places cs' = Cell.places cs) : cs' = cs := by
  have hpieces : (Nest.listing cs').map Prod.snd = (Nest.listing cs).map Prod.snd := by
    rw [← Nest.listing_map, ← Nest.listing_map]
    exact congrArg Nest.listing hitems
  have hlisting : Nest.listing cs' = Nest.listing cs :=
    (zip_of_prod hplaces hpieces).trans (zip_of_prod rfl rfl).symm
  have hmap : cs'.map (Nest.map fun v => v) = cs.map (Nest.map fun v => v) :=
    Nest.map_eq_of_listing hitems (by rw [hlisting])
  have hid (ds : List Cell) : ds.map (Nest.map fun v => v) = ds :=
    (map_congr_left fun c _ => c.map_id').trans (List.map_id' ds)
  rwa [hid, hid] at hmap

/-! ## Documents -/

/-- **A document in normal form is its own normal form.** -/
theorem normalize_idempotent {source : Text} {radix : Int} {d : Document}
    (h : read source radix = .ok d) :
    ∃ normal, d.edit Edit.normalize = .ok normal ∧ normal.edit Edit.normalize = .ok normal := by
  obtain ⟨f, normal, cs, hnormal⟩ := exists_normalized h
  refine ⟨normal, hnormal.edit, ?_⟩
  obtain ⟨again, hagain, cs', hstanding, hroot, hnewline, hitems, hplaces, hsize⟩ :=
    Document.edit_eq_ok (Edit.yields_normalize hnormal.standing hnormal.root)
  obtain rfl : cs' = cs := by
    refine Cell.eq_of_items ?_ hplaces
    rw [hitems, hnormal.items, Row.normal_normal]
  have hpositions : normal.SamePositions again := by
    intro i t t' ht ht'
    obtain ⟨u, hu, hevolves⟩ := (Edit.evolves_normalize hagain).tokens ht
    cases ht'.symm.trans hu
    exact hevolves.position
  have htokens : again.tokens = normal.tokens := by
    refine Array.ext_getElem? fun i => ?_
    by_cases hi : i < normal.tokens.size
    · refine hnormal.standing.token_eq hpositions hstanding i ?_
      rw [hnormal.places]
      exact mem_range.mpr hi
    · rw [Array.getElem?_eq_none (by omega), Array.getElem?_eq_none (by omega)]
  have hdiagnostics := (Edit.evolves_normalize hagain).silent rfl
  have hsame : again = normal := by
    calc again = ⟨again.tokens, again.root, again.newline, again.diagnostics⟩ := rfl
      _ = ⟨normal.tokens, normal.root, normal.newline, normal.diagnostics⟩ := by
        rw [htokens, hroot, hnewline, hdiagnostics, hnormal.root]
      _ = normal := rfl
  rw [hagain, hsame]

/-- A document with directives, an exclamation mark and groups is not in normal form before. -/
theorem normalize_idempotent_condition :
    ∃ d normal, read "IFN A!=B<C>,<IF1 D<E> F>\nDEFINE X!Y IF2 ,Z\n" 8 = .ok d ∧
      normal ≠ d ∧ d.edit Edit.normalize = .ok normal ∧
      normal.edit Edit.normalize = .ok normal := by
  obtain ⟨d, hd, hchanged⟩ := exists_eq_ok_of_any
    (x := read "IFN A!=B<C>,<IF1 D<E> F>\nDEFINE X!Y IF2 ,Z\n" 8)
    (p := fun d => decide ((d.edit Edit.normalize).toOption ≠ some d)) (by decide +kernel)
  obtain ⟨normal, hnormal, hagain⟩ := normalize_idempotent hd
  refine ⟨d, normal, hd, ?_, hnormal, hagain⟩
  rintro rfl
  rw [hnormal] at hchanged
  exact of_decide_eq_true hchanged rfl

end Macro10
