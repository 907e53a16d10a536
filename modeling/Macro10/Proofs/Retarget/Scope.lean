import Macro10.Proofs.Document.Linking
import Macro10.Proofs.Retarget.Directive
import Macro10.Retarget.Scope

/-!
# Retargeting is what the rows say

A list of siblings is walked cell by cell. Retargeting a document that holds a row never fails, and
gives a document that holds the row that `Row.retarget` makes of it (`yields_retarget`).
-/

namespace Macro10.Retarget

open Cell (items pieces value_item)
open Row (after descend isLiteral retargetRow word written)
open Edit Document

variable {d d' : Document} {s : Spot} {ahead : List Cell} {x : Cell} {fuel : Nat}
  {group : Id → Edit Unit}

/-! ## Words -/

/-- A word is retargeted as `Row.word` says. -/
theorem yields_retargetWord (hgroup : GroupRule fuel group) (hx : x.piece.kind = .identifier)
    (h : Walking d s (x :: ahead)) (hfuel : Cell.Within fuel ahead) :
    YieldsWord (retargetWord group x.id (Cell.ids ahead))
      (word s.opening s.pieces x.item (items ahead)) d s x ahead := by
  have hkind : x.piece.kind ≠ .container := by simp [hx]
  have hinside : x.inside = [] := (h.nested x (by simp)).leaf hkind
  obtain ⟨t, ht, hfits⟩ := h.holds
  have hparts := (hfits.marks rfl).parts
  have hsame : YieldsWord (pure .none) { self := x.item, ahead := items ahead } d s x ahead :=
    yields_pure ⟨_, _, _, _, _, .of_edited (.refl h) hinside hkind rfl⟩
  refine yields_token_bind ht ?_
  rw [hfits.looks.upper, hparts, word, value_item]
  simp only
  split
  · refine (yields_retargetRepetition h).bind fun _ d₁ ⟨ahead', hd₁, hitems⟩ => yields_pure ?_
    exact ⟨_, _, _, _, _, .of_edited hd₁ hinside hkind (by rw [hitems])⟩
  split
  · refine (yields_setText [] hkind dataDirective h).bind fun _ d₁ hd₁ => yields_pure ?_
    exact ⟨_, _, _, _, _, .of_edited hd₁ hinside hkind (by simp)⟩
  split
  · exact yields_retargetImmediate hgroup hx h hfuel
  split
  · exact yields_retargetMessage hx h
  cases x.piece.parts with
  | none => exact hsame
  | some n =>
    cases Head.ofWord? x.piece.upper with
    | none => exact hsame
    | some head =>
      cases head with
      | ifNotZero => exact yields_retargetCondition hgroup _ hx h hfuel
      | ifZero => exact yields_retargetCondition hgroup _ hx h hfuel
      | ifFirstPass => exact yields_retargetPass _ hx h
      | ifSecondPass => exact yields_retargetPass _ hx h
      | define =>
        refine (yields_retargetDefinition hx h).bind fun _ d₁ ⟨ahead', hd₁, hitems⟩ =>
          yields_pure ?_
        exact ⟨_, _, _, _, _, .of_edited hd₁ hinside hkind (by rw [hitems]; simp [Row.definition])⟩

/-! ## Rows -/

/-- The tokens that a rule has taken are passed over. -/
theorem retargetList_taken (group : Id → Edit Unit) (n : Nat) (ids : List Id) :
    retargetList group n ids = retargetList group 0 (ids.drop n) := by
  induction ids generalizing n with
  | nil => cases n <;> simp [retargetList]
  | cons i ids ih =>
    cases n with
    | zero => rfl
    | succ n => rw [retargetList, ih, List.drop_succ_cons]

/-- A literal is announced after it has got its own text. -/
theorem yields_literal {x' : Cell} (hx : isLiteral x.item = true) (hx' : isLiteral x'.item = true)
    (h : Walking d s (x :: ahead))
    (hd : Edited d d' s (x :: ahead) (x' :: ahead))
    (hitem : x'.item = written quoteSingle s.opening s.pieces x.item (items ahead)) :
    Yields (announceData x.id) d' fun ids d'' => ∃ announced, ids = Cell.ids announced ∧
      items announced = Row.announcement s.opening s.pieces ∧
      Written quoteSingle d d'' s x ahead announced x' ahead := by
  have hkind : ∀ c : Cell, isLiteral c.item = true →
      c.piece.kind ≠ .container ∧ c.piece.kind ≠ .operator ∧ c.piece.isSpacing = false := by
    intro c hc
    simp only [isLiteral, value_item, Bool.or_eq_true, decide_eq_true_eq] at hc
    rcases hc with hc | hc <;> simp [hc, Piece.isSpacing]
  obtain ⟨hcontainer, -, hsolid⟩ := hkind x' hx'
  obtain ⟨hcell, -⟩ := Cell.pared_cons.mp hd.pared
  rw [← Cell.id_eq_of_tag hcell.1]
  refine (yields_announceData hsolid hd.walking).mono ?_
  rintro ids d'' ⟨announced, hids, hitems, hannounced⟩
  have hinside : x'.inside = [] := (hd.walking.nested x' (by simp)).leaf hcontainer
  have hchanged : Progress d d'' s [] ([x] ++ ahead) [] ([x'] ++ ahead) announced :=
    (Progress.of_edited hd).trans h .nil hd.pared hannounced
  have hleaf : Progress d'' d'' s [x'] ahead [x'] ahead [x'] :=
    .of_leaves (.refl hannounced.walking) (.refl _) (.refl _) (by simpa using hinside)
  refine ⟨announced, hids, hitems, hchanged.trans h (.cons hcell .nil) (.refl ahead) hleaf, ?_, ?_⟩
  · rw [← hitem, Row.descend_of_kind_ne (by simpa using hcontainer)]
  · rw [after, value_item, if_neg (hkind x hx).2.1]

/-- The row `ahead` has been retargeted, and `new` are the places of the new row. -/
def Listed (d d' : Document) (s : Spot) (ahead : List Cell) (new : List Id) : Prop :=
  ∃ front out, Progress d d' s ahead [] front [] out ∧ new = Cell.ids out ∧
    items out = (retargetRow s.opening s.pieces (items ahead)).map (descend d.newline)

/-- A token that is no word, and the row after it. -/
theorem Listed.of_written {d₁ : Document} {x' : Cell} {ahead' announced : List Cell}
    {new : List Id} (h : Walking d s (x :: ahead)) (hkind : x.piece.kind ≠ .identifier)
    (hannounced : items announced =
      if isLiteral x.item then Row.announcement s.opening s.pieces else [])
    (hwritten : Written quoteSingle d d₁ s x ahead announced x' ahead')
    (hlater : Listed d₁ d' (s.past [x']) ahead' new) :
    Listed d d' s (x :: ahead) (Cell.ids announced ++ x.id :: new) := by
  have hpieces := hwritten.pieces
  obtain ⟨hprogress, hitem, hitems⟩ := hwritten
  obtain ⟨front, out, hlater, rfl, hout⟩ := hlater
  have hid : x'.id = x.id := by simpa using hprogress.ids_front
  refine ⟨_, _, hprogress.trans_last h hlater, by simp [hid], ?_⟩
  rw [hpieces, hitems, hprogress.kept.newline, Spot.opening_past] at hout
  rw [Cell.items_cons, retargetRow, value_item, if_neg hkind]
  have hfirst : items announced = (if isLiteral x.item then
      Row.announcement s.opening s.pieces else []).map (descend d.newline) := by
    rw [hannounced]
    split
    · rw [Row.map_descend_announcement]
    · rfl
  simp [hfirst, hitem, hout]

/-- A word with the tokens that its rule has taken, and the row after them. -/
theorem Listed.of_worded {d₁ : Document} {c : Continuation} {taken rest front rest' out : List Cell}
    {new : List Id} (h : Walking d s (x :: ahead)) (hkind : x.piece.kind = .identifier)
    (hword : Worded (word s.opening s.pieces x.item (items ahead)) d d₁ s x ahead c taken rest front
      rest' out)
    (hlater : Listed d₁ d' (s.past front) rest' new) :
    Listed d d' s (x :: ahead) (x.id :: c.tokens ++ new) := by
  obtain ⟨rfl, hprogress, htokens, -, -, hitems, hpieces, hrest⟩ := hword
  obtain ⟨front₂, out₂, hlater, rfl, hout⟩ := hlater
  refine ⟨_, _, hprogress.trans_last h hlater, ?_, ?_⟩
  · rw [Cell.ids_append, ← htokens]
  · rw [Spot.pieces_past, hpieces, hrest, hprogress.kept.newline, Spot.opening_past] at hout
    rw [Cell.items_append, hitems, hout, Cell.items_cons, retargetRow, value_item,
      if_pos hkind, ← List.map_append]
    simp

/-- A list of siblings is retargeted as `retargetRow` says. -/
theorem yields_retargetList (hgroup : GroupRule fuel group)
    (h : Walking d s ahead) (hfuel : Cell.Within fuel ahead) :
    Yields (retargetList group 0 (Cell.ids ahead)) d fun new d' => Listed d d' s ahead new := by
  induction hn : ahead.length using Nat.strong_induction_on generalizing d s ahead with
  | _ n ih =>
  cases ahead with
  | nil => exact yields_pure ⟨[], [], .refl h, rfl, by simp [retargetRow]⟩
  | cons x ahead =>
    subst hn
    obtain ⟨t, ht, hfits⟩ := h.holds
    obtain ⟨hx, hahead⟩ := Cell.within_cons.mp hfuel
    -- The row after a token that is no word.
    have hnext : ∀ d₁ announced, x.piece.kind ≠ .identifier →
        items announced = (if isLiteral x.item then Row.announcement s.opening s.pieces else []) →
        (∃ x' ahead', Written quoteSingle d d₁ s x ahead announced x' ahead') →
        Yields (do
            let rest ← retargetList group 0 (Cell.ids ahead)
            pure (Cell.ids announced ++ x.id :: rest)) d₁
          fun new d' => Listed d d' s (x :: ahead) new := by
      rintro d₁ announced hkind hannounced ⟨x', ahead', hwritten⟩
      have hpared := hwritten.progress.pared
      rw [← hpared.ids_eq]
      refine (ih ahead'.length (by simp [hpared.length_eq]) hwritten.progress.walking
        (hahead.pared hpared) rfl).bind fun new d' hlater => yields_pure ?_
      exact .of_written h hkind hannounced hwritten hlater
    refine yields_token_bind ht ?_
    rw [hfits.looks.kind]
    cases hkind : x.piece.kind with
    | string =>
      refine (yields_retargetString hkind h).bind fun _ d₁ hd₁ => ?_
      refine (yields_literal (by simp [isLiteral, hkind]) (by simp [isLiteral, hkind,
        Piece.setText]) h hd₁ (by simp [written, hkind])).bind ?_
      rintro _ d₂ ⟨announced, rfl, hitems, hwritten⟩
      exact hnext d₂ announced (by simp [hkind]) (by simp [isLiteral, hkind, hitems])
        ⟨_, _, hwritten⟩
    | number =>
      refine (yields_literal (by simp [isLiteral, hkind]) (by simp [isLiteral, hkind]) h
        (.refl h) (by simp [written, hkind])).bind ?_
      rintro _ d₁ ⟨announced, rfl, hitems, hwritten⟩
      exact hnext d₁ announced (by simp [hkind]) (by simp [isLiteral, hkind, hitems])
        ⟨_, _, hwritten⟩
    | operator =>
      exact (yields_operator quoteSingle h hkind).bind fun _ d₁ =>
        hnext d₁ [] (by simp [hkind]) (by simp [isLiteral, hkind])
    | container =>
      exact (yields_group quoteSingle hgroup h hkind hx).bind fun _ d₁ =>
        hnext d₁ [] (by simp [hkind]) (by simp [isLiteral, hkind])
    | whitespace | comment =>
      exact hnext d [] (by simp [hkind]) (by simp [isLiteral, hkind])
        ⟨x, _, written_other quoteSingle h (by simp [hkind]) (by simp [hkind]) (by simp [hkind])⟩
    | identifier =>
      refine (yields_retargetWord hgroup hkind h hahead).bind ?_
      rintro c d₁ ⟨taken, rest, front, rest', out, hword⟩
      obtain rfl := hword.split
      have hpared := hword.progress.pared
      have hlist : retargetList group c.taken (Cell.ids (taken ++ rest)) =
          retargetList group 0 (Cell.ids rest') := by
        rw [retargetList_taken, hword.count, hpared.ids_eq]
        simp
      show Yields (do
        let new ← retargetList group c.taken (Cell.ids (taken ++ rest))
        pure (x.id :: c.tokens ++ new)) d₁ _
      rw [hlist]
      refine (ih rest'.length ?_ hword.progress.walking ?_ rfl).bind fun new d' hlater =>
        yields_pure (.of_worded h hkind hword hlater)
      · simp only [hpared.length_eq, List.length_cons, List.length_append]
        omega
      · exact Cell.Within.pared (fun c hc => hahead c (by simp [hc])) hpared

end Macro10.Retarget
