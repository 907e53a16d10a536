import Macro10.Proofs.Retargeted
import Macro10.Proofs.Row.Foretold

/-!
# Bodies of a document

Whether a group is a body, and of which directive, is a matter of marks, which retargeting does not
change. So the bodies of the target can be told by the normal form (`Standing.foretold`).
-/

namespace Macro10.Document

open Cell (ids pieces)

/-- The token at `i` is the body of its owner. -/
def isOwnersBody (d : Document) (i : Id) : Bool :=
  d.tokens[i]?.any fun t => t.owner.any fun o => d.tokens[o]?.any fun u => u.body = some i

/-- There is a group at `i`, and it is the body of its owner. -/
def isBody (d : Document) (i : Id) : Bool :=
  d.tokens[i]?.any (·.kind = .container) && d.isOwnersBody i

/-- The owner of the token at `i`, if the token is its body. -/
def bodyOwner? (d : Document) (i : Id) : Option Id :=
  d.tokens[i]?.bind fun t => t.owner.filter fun o => d.tokens[o]?.any fun u => u.body = some i

theorem isSome_bodyOwner? (d : Document) (i : Id) : (d.bodyOwner? i).isSome = d.isOwnersBody i := by
  unfold bodyOwner? isOwnersBody
  cases d.tokens[i]? with
  | none => rfl
  | some t => cases howner : t.owner <;> simp [howner, Option.filter, apply_ite]

variable {d d' : Document} {parent : Option Id} {before ahead : List Cell}

/-- The directive of a body can be told by the marks, also later on. -/
theorem headAfter_eq (hevolves : d.Evolves true d') {x : Cell}
    (hrow : d.Placed true parent [] (before.reverse ++ x :: ahead) [])
    (hids : (ids before ++ ids (x :: ahead)).Nodup) :
    Row.headAfter ((pieces (before.map Cell.labelled)).map Row.pieceMarks) x.piece =
      (d'.bodyOwner? x.id).map some := by
  obtain ⟨t, ht, hfits⟩ := hrow.holds
  obtain ⟨t', ht', hsame⟩ := hevolves.tokens ht
  have hmarks := hfits.marks rfl
  rw [Cell.ids_reverse, List.reverse_reverse, List.append_nil] at hmarks
  rw [bodyOwner?, ht', Option.bind_some, (hsame.marks rfl).1, hmarks.owner, Row.headAfter]
  cases howner : x.piece.owner with
  | none => rfl
  | some k =>
    have hk : k < before.length := by simpa using hmarks.owner_lt k howner
    obtain ⟨us, c, vs, rfl, rfl⟩ : ∃ us c vs, before = us ++ c :: vs ∧ us.length = k :=
      ⟨before.take k, before[k], before.drop (k + 1), by simp, by simp [hk.le]⟩
    obtain ⟨u, hu, -⟩ := hrow.looks c (by simp)
    obtain ⟨u', hu', hsame'⟩ := hevolves.tokens hu
    have hbody := Retarget.body_eq_some_iff hrow hids hu
    by_cases hmark : c.piece.body = true ∧ c.piece.parts = some (us.length + 1)
    · simp [ids, pieces, Row.pieceMarks, Option.filter, hu', (hsame'.marks rfl).2.2, hbody, hmark]
    · simp [ids, pieces, Row.pieceMarks, Option.filter, hu', (hsame'.marks rfl).2.2, hbody, hmark]

theorem foretold_items (before : List Cell) (hevolves : d.Evolves true d')
    (hrow : d.Placed true parent [] (before.reverse ++ ahead) [])
    (hids : (ids before ++ ids ahead).Nodup) :
    Row.Foretold d'.bodyOwner? ((pieces (before.map Cell.labelled)).map Row.pieceMarks)
      (Cell.items (ahead.map Cell.labelled)) := by
  induction ahead generalizing before with
  | nil => trivial
  | cons x ahead ih =>
    refine ⟨fun _ => ?_, ?_⟩
    · rw [Cell.value_item, Cell.piece_labelled]
      exact headAfter_eq hevolves hrow hids
    · rw [Cell.value_item]
      have hids' : (ids (x :: before) ++ ids ahead).Nodup :=
        List.perm_middle.nodup_iff.mp hids
      exact ih _ (by simpa using hrow) hids'

/-- **Which groups are bodies is foretold by the normal form.** -/
theorem Standing.foretold {cs : List Cell} (h : Standing true d parent cs)
    (hevolves : d.Evolves true d') :
    Nest.Throughout (Row.Foretold d'.bodyOwner? []) (Cell.items (cs.map Cell.labelled)) := by
  have hcells : Nest.Throughout
      (fun us => Row.Foretold d'.bodyOwner? [] (Cell.items (us.map Cell.labelled))) cs :=
    h.throughout fun {_ us} hus =>
      have hids : (ids [] ++ ids us).Nodup :=
        hus.distinct.sublist (Cell.ids_sublist_places us)
      foretold_items [] hevolves hus.row hids
  exact hcells.map.map

end Macro10.Document
