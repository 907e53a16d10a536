import Macro10.Proofs.Retarget.Single

/-!
# Operands and expressions

The operand of an immediate instruction and the expression of a condition are walked token by token.
Groups among them are dealt with by a rule for groups, which is a parameter here (`GroupRule`).
-/

namespace Macro10.Retarget

open List
open Cell (ids ids_cons items_cons value_item)
open Row (descend expression expressionGoesOn operand written)
open Edit Document

variable {respell : Text → Text} {x' : Cell} {ahead' rest : List Cell} {body : Option Nat}

variable {d d' : Document} {s : Spot} {ahead : List Cell} {x : Cell} {fuel : Nat}
  {group : Id → Edit Unit}

/-! ## Single tokens -/

/-- A rule for groups retargets a group and all that is inside it, if fewer than `fuel` tokens are.
-/
def GroupRule (fuel : Nat) (group : Id → Edit Unit) : Prop :=
  ∀ {d : Document} {s : Spot} {ahead : List Cell} {x : Cell},
    Walking d s (x :: ahead) → x.piece.kind = .container →
    (Cell.places x.inside).length < fuel →
    Yields (group x.id) d fun _ d' => ∃ x',
      Progress d d' s [x] ahead [x'] ahead [x'] ∧
      x'.item = descend d.newline (Row.enter s.pieces x.item)

/-- The cell `x` has been retargeted as a token that is no word, and the cells `announced` have been
put in front of it. -/
structure Written (respell : Text → Text) (d d' : Document) (s : Spot) (x : Cell)
    (ahead announced : List Cell) (x' : Cell) (ahead' : List Cell) : Prop where
  progress : Progress d d' s [x] ahead [x'] ahead' (announced ++ [x'])
  item : x'.item = descend d.newline (written respell s.opening s.pieces x.item (Cell.items ahead))
  items : Cell.items ahead' = Row.after x.item (Cell.items ahead)

theorem Written.pieces {announced : List Cell}
    (h : Written respell d d' s x ahead announced x' ahead') : (s.past [x']).pieces =
      (written respell s.opening s.pieces x.item (Cell.items ahead)).value :: s.pieces := by
  simp [← value_item, h.item]

/-- A token that is no group has nothing inside, and its rules change no more than its text. -/
theorem Written.of_edited (h : Walking d s (x :: ahead))
    (hx : x.piece.kind ≠ .container)
    (hd : Edited d d' s (x :: ahead) (x' :: ahead'))
    (hitem : x'.item = written respell s.opening s.pieces x.item (Cell.items ahead))
    (hkind : x'.piece.kind ≠ .container)
    (hitems : Cell.items ahead' = Row.after x.item (Cell.items ahead)) :
    Written respell d d' s x ahead [] x' ahead' := by
  have hinside : x.inside = [] := (h.nested x (by simp)).leaf hx
  obtain ⟨hcell, hahead⟩ := Cell.pared_cons.mp hd.pared
  refine ⟨.of_leaves hd (.cons hcell .nil) hahead ?_, ?_, hitems⟩
  · intro c hc
    obtain rfl := mem_singleton.mp hc
    simpa [hinside] using hcell.2
  · rw [← hitem, Row.descend_of_kind_ne (by simpa using hkind)]

/-- Nothing is done to a token of any other kind. -/
theorem written_other (respell : Text → Text) (h : Walking d s (x :: ahead))
    (hx : x.piece.kind ≠ .string) (hx' : x.piece.kind ≠ .container)
    (hx'' : x.piece.kind ≠ .operator) :
    Written respell d d s x ahead [] x ahead := by
  refine .of_edited h hx' (.refl h) ?_ hx' ?_
  · unfold written
    rw [value_item]
    split <;> first | rfl | contradiction
  · rw [Row.after, value_item, if_neg hx'']

theorem yields_string (respell : Text → Text) {rule : Edit Unit}
    (h : Walking d s (x :: ahead)) (hx : x.piece.kind = .string)
    (hrule : Yields rule d fun _ d' => Edited d d' s (x :: ahead)
      (x.setText (respell x.piece.text) :: ahead)) :
    Yields rule d fun _ d' => ∃ x' ahead', Written respell d d' s x ahead [] x' ahead' := by
  have hkind : x.piece.kind ≠ .container := by simp [hx]
  refine hrule.mono fun _ d' hd' => ⟨_, ahead, .of_edited h hkind hd' ?_ hkind ?_⟩
  · rw [written, value_item, hx, Cell.item_setText]
  · rw [Row.after, value_item, if_neg (by simp [hx])]

theorem yields_operator (respell : Text → Text)
    (h : Walking d s (x :: ahead)) (hx : x.piece.kind = .operator) :
    Yields (retargetOperator x.id) d fun _ d' => ∃ x' ahead',
      Written respell d d' s x ahead [] x' ahead' := by
  refine (yields_retargetOperator hx h).mono fun _ d' ⟨x', ahead', hd', hitem, hitems⟩ =>
    ⟨x', ahead', .of_edited h (by simp [hx]) hd' ?_ ?_ ?_⟩
  · rw [hitem, written, value_item, hx]
  · rw [← value_item, hitem]
    rcases Row.operator_eq s.opening x.item (Cell.items ahead) with he | ⟨text, he⟩
    · simp [he]
    · simp [he, Piece.setText, hx]
  · rw [hitems, Row.after, value_item, if_pos hx]

theorem yields_group (respell : Text → Text) (hgroup : GroupRule fuel group)
    (h : Walking d s (x :: ahead)) (hx : x.piece.kind = .container)
    (hfuel : (Cell.places x.inside).length < fuel) :
    Yields (group x.id) d fun _ d' => ∃ x' ahead', Written respell d d' s x ahead [] x' ahead' := by
  refine (hgroup h hx hfuel).mono fun _ d' ⟨x', hprogress, hitem⟩ =>
    ⟨x', ahead, hprogress, ?_, ?_⟩
  · rw [hitem, written, value_item, hx]
  · rw [Row.after, value_item, if_neg (by simp [hx])]

/-- A token is retargeted by the rule for its kind, and what comes next goes on from there. -/
theorem yields_written_bind (respell : Text → Text) (hgroup : GroupRule fuel group)
    {α : Type} {string : Edit Unit} {k : Unit → Edit α} {Q : α → Document → Prop}
    (h : Walking d s (x :: ahead)) (hfuel : (Cell.places x.inside).length < fuel)
    (hstring : x.piece.kind = .string → Yields string d fun _ d' =>
      Edited d d' s (x :: ahead) (x.setText (respell x.piece.text) :: ahead))
    (hk : ∀ d₁ x' ahead', Written respell d d₁ s x ahead [] x' ahead' → Yields (k ()) d₁ Q) :
    Yields (match x.piece.kind with
      | .string => string >>= k
      | .container => group x.id >>= k
      | .operator => retargetOperator x.id >>= k
      | _ => pure () >>= k) d Q := by
  have hnext : ∀ (u : Unit) d₁, (∃ x' ahead', Written respell d d₁ s x ahead [] x' ahead') →
      Yields (k u) d₁ Q := fun _ d₁ ⟨x', ahead', hwritten⟩ => hk d₁ x' ahead' hwritten
  cases hkind : x.piece.kind with
  | string => exact (yields_string respell h hkind (hstring hkind)).bind hnext
  | container => exact (yields_group respell hgroup h hkind hfuel).bind hnext
  | operator => exact (yields_operator respell h hkind).bind hnext
  | identifier | number | whitespace | comment =>
    exact hk d x ahead (written_other respell h (by simp [hkind]) (by simp [hkind])
      (by simp [hkind]))

/-! ## Operands -/

/-- An operand is retargeted as `Row.operand` says. -/
theorem yields_retargetOperand (hgroup : GroupRule fuel group) {xs : List Cell}
    (h : Walking d s (xs ++ rest)) (hfuel : Cell.Within fuel xs) :
    Yields (retargetOperand group (ids xs)) d fun _ d' => ∃ front rest',
      Progress d d' s xs rest front rest' front ∧
      Cell.items front = ((operand s.opening s.pieces xs.length
        (Cell.items (xs ++ rest))).take xs.length).map (descend d.newline) ∧
      Cell.items rest' = (operand s.opening s.pieces xs.length
        (Cell.items (xs ++ rest))).drop xs.length := by
  induction hn : xs.length generalizing d s xs rest with
  | zero =>
    obtain rfl := length_eq_zero_iff.mp hn
    exact yields_pure ⟨[], rest, .refl h, by simp, by simp [operand]⟩
  | succ n ih =>
    obtain ⟨x, xs, rfl⟩ := exists_cons_of_length_eq_add_one hn
    have hlength : xs.length = n := by simpa using hn
    obtain ⟨t, ht, hfits⟩ := h.holds
    obtain ⟨hx, hxs⟩ := Cell.within_cons.mp hfuel
    refine yields_token_bind ht ?_
    rw [hfits.looks.kind]
    refine yields_written_bind requote hgroup h hx (fun hkind => ?_) fun d₁ x' ahead' hwritten => ?_
    · have hsolid : x.piece.kind ≠ .container := by simp [hkind]
      rw [hfits.looks.words hsolid]
      exact yields_setText [] hsolid (requote x.piece.text) h
    show Yields (retargetOperand group (ids xs)) d₁ _
    have hpieces := hwritten.pieces
    obtain ⟨hprogress, hitem, hitems⟩ := hwritten
    obtain ⟨xs', rest₁, rfl, hxs', hrest₁⟩ := hprogress.pared.split
    rw [← hxs'.ids_eq]
    refine (ih hprogress.walking (hxs.pared hxs') (hxs'.length_eq.trans hlength)).mono ?_
    rintro _ d' ⟨front, rest', hlater, hfront, hrest'⟩
    rw [hpieces, hitems, hprogress.kept.newline] at hfront
    rw [hpieces, hitems] at hrest'
    refine ⟨x' :: front, rest', hprogress.trans h hxs' hrest₁ hlater, ?_, ?_⟩
    · rw [items_cons, hitem, hfront]
      rfl
    · rw [hrest']
      rfl

/-! ## Expressions -/

/-- An expression has been retargeted: `front` are its tokens, and `tail` the comparison after it.
-/
structure Expressed (comparison : Text) (body : Option Nat) (d d' : Document) (s : Spot)
    (ahead : List Cell) (c : Continuation) (eaten rest front rest' tail : List Cell) : Prop where
  split : ahead = eaten ++ rest
  progress : Progress d d' s eaten rest front rest' (front ++ tail)
  tokens : c.tokens = ids (front ++ tail)
  taken : c.taken = eaten.length
  items : Cell.items front = (expression s.opening s.pieces body
    (Cell.items ahead)).items.map (descend d.newline)
  rest : Cell.items rest' = (expression s.opening s.pieces body (Cell.items ahead)).rest
  tail : Cell.items tail =
    if (expression s.opening s.pieces body (Cell.items ahead)).comma then
      [Item.made .operator comparison, Item.made .number [.char '0']] else []

section

variable {comparison : Text} {d₁ : Document} (h : Walking d s (x :: ahead))
include h

/-- The body of a directive is at its distance. -/
theorem bind_ids_eq_some_iff : body.bind ((ids (x :: ahead))[·]?) = some x.id ↔ body = some 0 := by
  have hnot : x.id ∉ ids ahead := (nodup_cons.mp (nodup_append.mp h.nodup_ids).2.1).1
  rcases body with - | - | k
  · simp
  · simp
  · simpa using fun hk => hnot (mem_of_getElem? hk)

/-- An expression that has come to its end. -/
theorem Expressed.stop (hx : expressionGoesOn body x.piece = false) :
    Expressed comparison body d d s (x :: ahead) .none [] (x :: ahead) [] (x :: ahead) [] := by
  rw [← value_item] at hx
  have hexpr := Row.expression_stop s.opening s.pieces (Cell.items ahead) hx
  refine ⟨rfl, .refl h, rfl, rfl, ?_, ?_, ?_⟩ <;> simp [hexpr]

/-- A comma ends an expression, and the comparison comes in its place. -/
theorem yields_expression_comma (hx : expressionGoesOn body x.piece = true)
    (hcomma : x.piece.isOperator "," = true) :
    Yields (do
      blank x.id
      let operator ← synthesize .operator comparison
      let nought ← synthesize .number [.char '0']
      pure (⟨[x.id, operator, nought], 1⟩ : Continuation)) d fun c d' => ∃ front tail,
        Expressed comparison body d d' s (x :: ahead) c [x] ahead front ahead tail := by
  refine (yields_blank [] h).bind fun _ d₁ hd₁ => ?_
  refine yields_synthesize_bind (yields_synthesize_bind (yields_pure ?_))
  have hleaf : Progress d d₁ s [x] ahead [x.blanked] ahead [x.blanked] :=
    .of_leaves hd₁ (.cons ⟨rfl, .inr rfl⟩ .nil) (.refl _) (by simp)
  rw [← value_item] at hx hcomma
  have hexpr := Row.expression_comma s.opening s.pieces (Cell.items ahead) hx hcomma
  refine ⟨[x.blanked], [Cell.made _ .operator comparison, Cell.made _ .number [.char '0']], rfl,
    (hleaf.insert [_] .operator (by decide) _).insert [_, _] .number (by decide) _, rfl, rfl,
    ?_, ?_, ?_⟩ <;> simp [hexpr]

/-- The first token of an expression and the expression after it make one. -/
theorem Expressed.cons {eaten front rest' tail : List Cell} {c : Continuation}
    (hx : expressionGoesOn body x.piece = true)
    (hcomma : x.piece.isOperator "," = false)
    (hfirst : Written quoteSingle d d₁ s x ahead [] x' ahead')
    (hlater : Expressed comparison (body.map (· - 1)) d₁ d' (s.past [x'])
      ahead' c eaten rest front rest' tail) :
    ∃ eaten rest, Expressed comparison body d d' s (x :: ahead)
      ⟨x.id :: c.tokens, c.taken + 1⟩ eaten rest (x' :: front) rest' tail := by
  obtain ⟨rfl, hprogress, htokens, htaken, hitems, hrest, htail⟩ := hlater
  obtain ⟨eaten₀, rest₀, rfl, heaten, hrest₀⟩ := hfirst.progress.pared.unsplit
  have hid : x'.id = x.id := by simpa using hfirst.progress.ids_front
  rw [← value_item] at hx hcomma
  have hexpr := Row.expression_cons s.opening s.pieces (Cell.items (eaten₀ ++ rest₀)) hx hcomma
  rw [hfirst.pieces, hfirst.items, Spot.opening_past] at hitems hrest htail
  refine ⟨x :: eaten₀, rest₀, rfl, hfirst.progress.trans h heaten hrest₀ hprogress, ?_, ?_, ?_, ?_,
    ?_⟩
  · rw [htokens, cons_append, ids_cons, hid]
  · rw [htaken, length_cons, heaten.length_eq]
  · rw [items_cons, items_cons, hexpr, hitems, hfirst.item, hfirst.progress.kept.newline]
    rfl
  · rw [hrest, items_cons, hexpr]
  · rw [htail, items_cons, hexpr]

end

/-- An expression is retargeted as `Row.expression` says. -/
theorem yields_retargetExpression (hgroup : GroupRule fuel group) (comparison : Text)
    (hbody : ∀ k, body = some k → k < ahead.length)
    (h : Walking d s ahead) (hfuel : Cell.Within fuel ahead) :
    Yields (retargetExpression group (body.bind ((ids ahead)[·]?)) comparison (ids ahead))
      d fun c d' => ∃ eaten rest front rest' tail,
        Expressed comparison body d d' s ahead c eaten rest front rest' tail := by
  induction hn : ahead.length generalizing d s ahead body with
  | zero =>
    obtain rfl := length_eq_zero_iff.mp hn
    exact yields_pure ⟨[], [], [], [], [], rfl, .refl h, rfl, rfl, by simp [expression],
      by simp [expression], by simp [expression]⟩
  | succ n ih =>
    obtain ⟨x, ahead, rfl⟩ := exists_cons_of_length_eq_add_one hn
    have hlength : ahead.length = n := by simpa using hn
    obtain ⟨t, ht, hfits⟩ := h.holds
    obtain ⟨hx, hahead⟩ := Cell.within_cons.mp hfuel
    rw [ids_cons, retargetExpression, ← ids_cons]
    split
    · next hat =>
      rw [bind_ids_eq_some_iff h] at hat
      exact yields_pure ⟨_, _, _, _, _, .stop h (by simp [expressionGoesOn, hat])⟩
    next hnotbody =>
    rw [bind_ids_eq_some_iff h] at hnotbody
    refine yields_token_bind ht ?_
    rw [hfits.looks.isNewline, hfits.looks.kind, hfits.looks.isOperator]
    split
    · next hend =>
      refine yields_pure ⟨_, _, _, _, _, .stop h ?_⟩
      rw [expressionGoesOn, Bool.or_assoc, hend, Bool.or_true]
      rfl
    next hnotend =>
    have hgoes : expressionGoesOn body x.piece = true := by
      simpa [expressionGoesOn, hnotbody] using hnotend
    split
    · next hcomma =>
      refine (yields_expression_comma h hgoes hcomma).mono ?_
      rintro c d' ⟨front, tail, hall⟩
      exact ⟨_, _, front, _, tail, hall⟩
    next hnotcomma =>
    refine yields_written_bind quoteSingle hgroup h hx (yields_retargetString · h)
      fun d₁ x' ahead' hfirst => ?_
    show Yields (do
      let later ← retargetExpression group (body.bind ((ids (x :: ahead))[·]?)) comparison
        (ids ahead)
      pure (⟨x.id :: later.tokens, later.taken + 1⟩ : Continuation)) d₁ _
    have hpared := hfirst.progress.pared
    have hbind : body.bind ((ids (x :: ahead))[·]?) =
        (body.map (· - 1)).bind ((ids ahead')[·]?) := by
      rw [hpared.ids_eq]
      rcases body with - | - | k
      · rfl
      · exact absurd rfl hnotbody
      · simp
    rw [hbind, ← hpared.ids_eq]
    refine (ih ?_ hfirst.progress.walking (hahead.pared hpared)
      (hpared.length_eq.trans hlength)).bind ?_
    · intro k hk
      obtain ⟨j, hj, rfl⟩ := Option.map_eq_some_iff.mp hk
      have hlt := hbody j hj
      have hpos : j ≠ 0 := fun h0 => hnotbody (h0 ▸ hj)
      rw [hpared.length_eq]
      simp only [length_cons] at hlt
      omega
    · rintro c d' ⟨eaten, rest, front, rest', tail, hlater⟩
      obtain ⟨eaten, rest, hall⟩ := hlater.cons h hgoes (by simpa using hnotcomma) hfirst
      exact yields_pure ⟨eaten, rest, _, rest', tail, hall⟩

end Macro10.Retarget
