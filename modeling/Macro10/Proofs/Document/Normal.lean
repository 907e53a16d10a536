import Macro10.Document.Normalize
import Macro10.Proofs.Document.Neighbours
import Macro10.Proofs.Row.Normal

/-!
# Documents in normal form

Bringing a document into normal form brings its row into normal form (`yields_normalize`). A
directive that the pass has come by collects its arguments one by one, so its marks name the
arguments so far (`Gathers`). What they will be is known from the pieces ahead (`completed`).
-/

namespace Macro10.Edit

open List
open Row (Gathering)
open Nest (inside)

variable {p : Piece} {g : Option Gathering} {collector : Option Collector}

open Cell (items piece_setPiece pieces places)
open Row (extent gathering headed joined leftover normal owned parenthesized settled)
open Document

variable {d d' : Document} {parent : Option Id} {before ahead cs cs' xs ys : List Cell}
  {c c' x : Cell}

/-! ## Changes of a row -/

/-- The row `cs` has been changed into `cs'`; all places are as they were, and there are no new
tokens. -/
structure Revised (d d' : Document) (parent : Option Id) (cs cs' : List Cell) : Prop where
  standing : Standing true d' parent cs'
  kept : Kept (· ∈ places cs) d d'
  ids : Cell.ids cs' = Cell.ids cs
  places : places cs' = places cs
  size : d'.tokens.size = d.tokens.size

namespace Revised

variable {f : Token → Token}

theorem refl (h : Standing true d parent cs) : Revised d d parent cs cs :=
  ⟨h, .refl _ d, rfl, rfl, rfl⟩

theorem trans {d'' : Document} {cs'' : List Cell} (h : Revised d d' parent cs cs')
    (h' : Revised d' d'' parent cs' cs'') : Revised d d'' parent cs cs'' :=
  ⟨h'.standing, h.kept.trans h'.kept fun _ _ hi => h.places ▸ hi, h'.ids.trans h.ids,
    h'.places.trans h.places, h'.size.trans h.size⟩

section

variable (h : Standing true d parent (xs ++ c :: ys))
include h

theorem edit (hid : c'.id = c.id) (hinside : c'.inside = c.inside)
    (hleaf : c'.piece.kind ≠ .container → c'.inside = [])
    (hfits : ∀ t, t.Fits true parent (Cell.ids xs).reverse (Cell.ids ys) c.piece
      (Cell.ids c.inside) → (f t).Fits true parent (Cell.ids xs).reverse (Cell.ids ys) c'.piece
      (Cell.ids c'.inside)) :
    Revised d (d.change c.id f) parent (xs ++ c :: ys) (xs ++ c' :: ys) :=
  ⟨h.edit hid hinside hleaf hfits, .change d c.id f (by simp), by simp [hid],
    by simp [hid, hinside], by simp⟩

theorem rewrite (hf : Cell.Rewrite f c c') (hinside : c'.inside = c.inside)
    (hleaf : c'.piece.kind ≠ .container → c'.inside = []) :
    Revised d (d.change c.id f) parent (xs ++ c :: ys) (xs ++ c' :: ys) :=
  edit h hf.id hinside hleaf fun _ ht => hf.fits ht

end

end Revised

/-- A change of the marks of a token is a change of the marks of its piece. -/
theorem yields_mark {f : Token → Token} (h : Standing true d parent (xs ++ c :: ys))
    (hp : Row.Alike c.piece p)
    (hf : ∀ t, { f t with owner := t.owner, parts := t.parts, body := t.body } = t)
    (hmarks : ∀ t, t.Marked c.piece (Cell.ids xs).reverse (Cell.ids ys) →
      (f t).Marked p (Cell.ids xs).reverse (Cell.ids ys)) :
    Yields (update c.id f) d fun _ d' =>
      Revised d d' parent (xs ++ c :: ys) (xs ++ c.setPiece p :: ys) := by
  obtain ⟨t, ht, -⟩ := h.row.holds
  refine yields_update (lt_size_of_getElem? ht) (.edit h rfl rfl (fun hne => ?_) fun t ht => ?_)
  · exact (h.nested c (by simp)).leaf (hp.kind ▸ hne)
  · obtain ⟨hlooks, hlinked, hold⟩ := ht
    have hsame {α : Type} (g : Token → α) := congrArg g (hf t)
    refine ⟨⟨?_, ?_, ?_, ?_, ?_⟩, ⟨?_, ?_, ?_⟩, fun _ => hmarks t (hold rfl)⟩
    · exact (hsame Token.kind).trans (hlooks.kind.trans hp.kind.symm)
    · exact (hsame Token.text).trans (hlooks.text.trans (by rw [piece_setPiece, hp.token_eq]))
    · exact (hsame Token.opening).trans (hlooks.opening.trans hp.opening.symm)
    · exact (hsame Token.closing).trans (hlooks.closing.trans hp.closing.symm)
    · exact (hsame Token.children).trans
        (hlooks.children.trans (by rw [piece_setPiece, hp.kind]; rfl))
    · exact (hsame Token.parent).trans hlinked.parent
    · exact (hsame Token.prev).trans hlinked.prev
    · exact (hsame Token.next).trans hlinked.next

/-! ## Directives that collect -/

/-- The cell of a directive with so many arguments, the last of them perhaps the body. -/
def gathered (n : Nat) (body : Bool) (c : Cell) : Cell :=
  c.setPiece { c.piece with parts := some n, body }

/-- A directive among the cells before is collecting: it has the cells after it for its arguments,
and is in the state `g` as seen from the next cell. -/
inductive Gathers : Option Collector → Option Gathering → List Cell → Prop
  | idle (before : List Cell) : Gathers none none before
  | busy {us vs : List Cell} {h : Cell} {head : Head} (seen : Bool)
      (word : h.piece.head? = some head) (parts : h.piece.parts = some us.length)
      (body : h.piece.body = false) :
      Gathers (some ⟨h.id, seen⟩) (some ⟨us.length, seen || !head.bodyAfterComma⟩) (us ++ h :: vs)

/-- The cells before when the directive among them has collected all of its arguments. -/
def completed (g : Option Gathering) (ps : List Piece) (before : List Cell) : List Cell :=
  match g with
  | none => before
  | some g => before.modify g.distance
    (gathered (g.distance + (extent g.ready ps).1) (extent g.ready ps).2)

/-- The cells before when the directive among them has taken the piece `p`. -/
def taking (g : Option Gathering) (p : Piece) (before : List Cell) : List Cell :=
  match g with
  | none => before
  | some g =>
    if p.isNewline then before
    else before.modify g.distance (gathered (g.distance + 1) (g.next p).isNone)

section

variable {us vs : List Cell} {h : Cell} {ready : Bool} {ps : List Piece}

theorem modify_append_cons (f : Cell → Cell) :
    (us ++ h :: vs).modify us.length f = us ++ f h :: vs := by
  induction us with
  | nil => rfl
  | cons u us ih => simp [ih]

theorem gathered_self {n : Nat} {body : Bool} (hparts : h.piece.parts = some n)
    (hbody : h.piece.body = body) : gathered n body h = h := by
  obtain ⟨⟨i, q⟩, inside⟩ := h
  obtain ⟨⟩ := q
  simp only [Cell.piece_node] at hparts hbody
  subst hparts hbody
  rfl

theorem gathered_gathered (m n : Nat) (b b' : Bool) :
    gathered n b (gathered m b' h) = gathered n b h := rfl

/-- How far the arguments reach, by what the next piece does. -/
theorem extent_cons (hhead : p.head? = none) (hline : p.isNewline = false) (k : Nat) :
    extent ready (p :: ps) = match Gathering.next ⟨k, ready⟩ p with
      | none => (1, true)
      | some g => ((extent g.ready ps).1 + 1, (extent g.ready ps).2) := by
  simp only [extent, Gathering.next, hhead, hline, Option.isSome_none, Bool.false_eq_true,
    if_false]
  split
  · rfl
  · split <;> rfl

/-- The next directive ends the arguments of the one before. -/
theorem taking_of_head (hg : Gathers collector g before) (hhead : p.head?.isSome) :
    taking g p before = completed g (p :: ps) before := by
  have hkind : p.kind = .identifier := by
    by_contra hne
    simp [Piece.head?, hne] at hhead
  have hline : p.isNewline = false := Piece.isNewline_eq_false (by simp [hkind])
  cases hg with
  | idle => rfl
  | busy seen word parts body =>
    have hcomma := Piece.isOperator_of_kind_ne (p := p) (by simp [hkind]) ","
    simp [taking, completed, hline, Row.next_of_plain hline hcomma (by simp [hkind]), extent, hhead]

/-- The arguments after a piece that is no directive are counted from it on. -/
theorem completed_taking (hg : Gathers collector g before) (hhead : p.head? = none) (y : Cell) :
    completed (gathering g p) ps (y :: taking g p before) = y :: completed g (p :: ps) before := by
  cases hg with
  | idle => simp [gathering, hhead, completed, taking]
  | @busy us vs h head seen word parts body =>
    cases hline : p.isNewline with
    | true =>
      simp [gathering, hhead, completed, taking, hline, Gathering.next, extent,
        modify_append_cons, gathered_self parts body]
    | false =>
      simp only [gathering, hhead, Option.bind_some, taking, completed, hline,
        Bool.false_eq_true, if_false, modify_append_cons, extent_cons hhead hline us.length]
      cases hnext : Gathering.next ⟨us.length, seen || !head.bodyAfterComma⟩ p with
      | none => rfl
      | some g =>
        have hdistance : g.distance = (y :: us).length := Row.distance_next hnext
        have hcount : (y :: us).length + (extent g.ready ps).1 =
            us.length + ((extent g.ready ps).1 + 1) := by
          rw [length_cons]
          omega
        show (y :: us ++ gathered _ _ h :: vs).modify g.distance _ = _
        rw [hdistance, modify_append_cons, gathered_gathered, hcount]
        rfl

/-- The arguments so far, when `x` is the next cell. -/
theorem take_ids_reverse (x : Cell) :
    (Cell.ids (us.reverse ++ x :: ahead)).take us.length = (Cell.ids us).reverse ∧
      (Cell.ids (us.reverse ++ x :: ahead)).take (us.length + 1) =
        (Cell.ids us).reverse ++ [x.id] := by
  have hlength : us.length = (Cell.ids us).reverse.length := by simp
  rw [Cell.ids_append, Cell.ids_reverse, Cell.ids_cons, hlength]
  refine ⟨take_left, ?_⟩
  rw [take_append, take_of_length_le (Nat.le_succ _)]
  simp

theorem yields_addPart (hs : Standing true d parent (vs.reverse ++ h :: (us.reverse ++ x :: ahead)))
    (hparts : h.piece.parts = some us.length) (hbody : h.piece.body = false) :
    Yields (addPart h.id x.id) d fun _ d' =>
      Revised d d' parent (vs.reverse ++ h :: (us.reverse ++ x :: ahead))
        (vs.reverse ++ gathered (us.length + 1) false h :: (us.reverse ++ x :: ahead)) := by
  obtain ⟨t, ht, hfits⟩ := hs.row.holds
  have hold : t.parts = some (Cell.ids us).reverse := by
    rw [(hfits.marks rfl).parts, hparts, append_nil, Option.map_some, (take_ids_reverse x).1]
  refine yields_token_bind ht ?_
  rw [hold]
  refine yields_mark hs ⟨rfl, rfl, rfl, rfl⟩ (fun _ => rfl) fun u hu => ?_
  refine ⟨hu.owner, hu.owner_lt, ?_, ?_, ?_⟩
  · rw [Option.map_some, (take_ids_reverse x).2]
  · intro n hn
    cases hn
    simp
  · simpa [hbody] using hu.body

theorem yields_setBody
    (hs : Standing true d parent
      (vs.reverse ++ gathered (us.length + 1) false h :: (us.reverse ++ x :: ahead))) :
    Yields (update h.id fun t => { t with body := some x.id }) d fun _ d' =>
      Revised d d' parent
        (vs.reverse ++ gathered (us.length + 1) false h :: (us.reverse ++ x :: ahead))
        (vs.reverse ++ gathered (us.length + 1) true h :: (us.reverse ++ x :: ahead)) := by
  refine yields_mark hs ⟨rfl, rfl, rfl, rfl⟩ (fun _ => rfl) fun u hu => ?_
  refine ⟨hu.owner, hu.owner_lt, hu.parts, hu.parts_le, ?_⟩
  rw [if_pos rfl, Option.getD_some, (take_ids_reverse x).2]
  simp

theorem yields_setOwner (hs : Standing true d parent ((us ++ h :: vs).reverse ++ x :: ahead)) :
    Yields (update x.id fun t => { t with owner := some h.id }) d fun _ d' =>
      Revised d d' parent ((us ++ h :: vs).reverse ++ x :: ahead)
        ((us ++ h :: vs).reverse ++
          x.setPiece { x.piece with owner := some us.length } :: ahead) := by
  refine yields_mark hs ⟨rfl, rfl, rfl, rfl⟩ (fun _ => rfl) fun u hu => ?_
  refine ⟨?_, ?_, hu.parts, hu.parts_le, hu.body⟩
  · simp [Cell.ids]
  · intro k hk
    cases hk
    simp

/-- The collecting directive takes the next cell. -/
theorem yields_collect {collector : Collector} {g : Gathering}
    (hs : Standing true d parent (before.reverse ++ x :: ahead))
    (hg : Gathers (some collector) (some g) before) :
    Yields (collect collector x.id) d fun next d' =>
      Revised d d' parent (before.reverse ++ x :: ahead)
        ((taking (some g) x.piece before).reverse ++ x.setPiece (owned (some g) x.piece) :: ahead) ∧
      ∀ y, Gathers next (g.next x.piece) (y :: taking (some g) x.piece before) := by
  obtain ⟨t, ht, hfits⟩ := hs.row.holds
  have hlooks := hfits.looks
  cases hg with
  | @busy us vs h head seen word parts body =>
  have hrow : ∀ (c : Cell) (ys : List Cell),
      (us ++ c :: vs).reverse ++ ys = vs.reverse ++ c :: (us.reverse ++ ys) := by simp
  refine yields_token_bind ht ?_
  rw [hlooks.isNewline]
  cases hline : x.piece.isNewline with
  | true =>
    refine yields_pure ?_
    simp only [taking, owned, Gathering.next, hline, if_true, Cell.setPiece_self]
    exact ⟨.refl hs, fun y => .idle _⟩
  | false =>
    simp only [taking, owned, hline, Bool.false_eq_true, if_false, modify_append_cons]
    refine (yields_setOwner hs).bind ?_
    rintro _ d₁ hd₁
    rw [hrow, hrow] at hd₁
    refine (yields_addPart hd₁.standing parts body).bind ?_
    rintro _ d₂ hd₂
    have hd := hd₁.trans hd₂
    rw [hrow, hrow]
    have hbusy : ∀ (seen : Bool) (y : Cell), Gathers (some ⟨h.id, seen⟩)
        (some ⟨us.length + 1, seen || !head.bodyAfterComma⟩)
        (y :: (us ++ gathered (us.length + 1) false h :: vs)) := by
      intro seen y
      have hword : (gathered (us.length + 1) false h).piece.head? = some head := word
      show Gathers _ (some ⟨(y :: us).length, _⟩) ((y :: us) ++ _)
      exact .busy seen hword rfl rfl
    rw [hlooks.isOperator]
    cases hcomma : x.piece.isOperator "," with
    | true =>
      have hnext : Gathering.next ⟨us.length, seen || !head.bodyAfterComma⟩ x.piece =
          some ⟨us.length + 1, true⟩ := by
        simp [Gathering.next, hline, hcomma]
      rw [hnext]
      exact yields_pure ⟨hd, hbusy true⟩
    | false =>
      rw [hlooks.kind]
      by_cases hkind : x.piece.kind = .container
      · obtain ⟨u, hu, hlooksHead, -⟩ := hd.standing.row.holds
        have hword : Head.ofWord? u.upper = some head := by
          rw [hlooksHead.upper]
          exact Piece.ofWord?_of_head? word
        rw [if_neg Bool.false_ne_true, if_pos hkind]
        refine yields_token_bind hu ?_
        rw [hword, Option.map_some, Option.getD_some]
        cases hready : seen || !head.bodyAfterComma with
        | true =>
          refine (yields_setBody hd.standing).bind ?_
          rintro _ d₃ hd₃
          have hnext : Gathering.next ⟨us.length, true⟩ x.piece = none := by
            simp [Gathering.next, hline, hcomma, hkind]
          rw [hnext]
          exact yields_pure ⟨hd.trans hd₃, fun y => .idle _⟩
        | false =>
          have hnext : Gathering.next ⟨us.length, false⟩ x.piece =
              some ⟨us.length + 1, false⟩ := by
            simp [Gathering.next, hline, hcomma]
          have hbusy' := hbusy seen
          rw [hready] at hbusy'
          rw [hnext]
          exact yields_pure ⟨hd, hbusy'⟩
      · rw [Row.next_of_plain hline hcomma hkind]
        simp only [hkind, Bool.false_eq_true, if_false]
        exact yields_pure ⟨hd, hbusy seen⟩

end

/-- The next cell is offered to the directive that is collecting, if there is one. -/
theorem yields_offer (hs : Standing true d parent (before.reverse ++ x :: ahead))
    (hg : Gathers collector g before) :
    Yields (offer collector x.id) d fun next d' =>
      Revised d d' parent (before.reverse ++ x :: ahead)
        ((taking g x.piece before).reverse ++ x.setPiece (owned g x.piece) :: ahead) ∧
      (x.piece.head? = none →
        ∀ y, Gathers next (gathering g x.piece) (y :: taking g x.piece before)) := by
  cases hg with
  | idle =>
    refine yields_pure ⟨?_, fun hhead y => ?_⟩
    · simpa [taking, owned] using Revised.refl hs
    · simpa [gathering, hhead] using Gathers.idle _
  | busy seen word parts body =>
    refine (yields_collect hs (.busy seen word parts body)).mono ?_
    rintro next d' ⟨hd, hnext⟩
    refine ⟨hd, fun hhead y => ?_⟩
    simpa [gathering, hhead] using hnext y

/-! ## Directives, exclamation marks and groups -/

section

variable (hs : Standing true d parent (before.reverse ++ x :: ahead))
include hs

theorem yields_settle_head {head : Head} (hhead : x.piece.head? = some head)
    (collector : Option Collector) :
    Yields (settle collector x.id) d fun next d' =>
      Revised d d' parent (before.reverse ++ x :: ahead)
        (before.reverse ++ gathered 0 false x :: ahead) ∧
      Gathers next (some ⟨0, !head.bodyAfterComma⟩) (gathered 0 false x :: before) := by
  obtain ⟨t, ht, hfits⟩ := hs.row.holds
  have hword : (gathered 0 false x).piece.head? = some head := hhead
  unfold settle
  refine yields_token_bind ht ?_
  rw [hfits.looks.isHead, hhead, Option.isSome_some, if_pos rfl]
  refine Yields.bind (yields_mark hs (p := (gathered 0 false x).piece) ⟨rfl, rfl, rfl, rfl⟩
    (fun _ => rfl) fun u hu => ?_) fun _ d' hd => yields_pure ⟨hd, ?_⟩
  · refine ⟨hu.owner, hu.owner_lt, by simp [gathered], fun n hn => ?_, by simp [gathered]⟩
    cases hn
    exact Nat.zero_le _
  · show Gathers (some ⟨(gathered 0 false x).id, false⟩) (some ⟨([] : List Cell).length, _⟩)
      ([] ++ gathered 0 false x :: before)
    exact .busy false hword rfl rfl

theorem yields_settleExclamation (hx : x.piece.isOperator "!" = true) :
    Yields (settleExclamation x.id) d fun _ d' => ∃ ahead',
      Revised d d' parent (before.reverse ++ x :: ahead)
        (before.reverse ++ x.setPiece (settled x.piece (pieces ahead)) :: ahead') ∧
      Cell.ids ahead' = Cell.ids ahead ∧
      pieces ahead' = leftover x.piece (pieces ahead) ∧
      ahead'.map inside = ahead.map inside := by
  obtain ⟨t, ht, hfits⟩ := hs.row.holds
  have hkind : x.piece.kind ≠ .container := by simp [Piece.kind_of_isOperator hx]
  have hinside : x.inside = [] := (hs.nested x (by simp)).leaf hkind
  have hset : ∀ text, Yields (setText x.id text) d fun _ d' =>
      Revised d d' parent (before.reverse ++ x :: ahead)
        (before.reverse ++ x.setText text :: ahead) := fun text =>
    yields_update (lt_size_of_getElem? ht)
      (.rewrite hs (Cell.rewrite_setText hkind text) rfl fun _ => hinside)
  have hsettled : ∀ ps, x.setPiece (settled x.piece ps) =
      x.setText (if joined x.piece ps then "!=" else "|") := fun ps => by
    rw [settled, if_pos hx]
    rfl
  unfold settleExclamation
  refine yields_token_bind ht ?_
  rw [hfits.linked.next, append_nil, hsettled]
  cases ahead with
  | nil =>
    have hjoined : joined x.piece (pieces []) = false := by simp [joined]
    rw [leftover, hjoined]
    exact (hset _).mono fun _ d' hd => ⟨[], hd, rfl, rfl, rfl⟩
  | cons y ahead =>
    have hrow : ∀ (x : Cell) (ys : List Cell),
        before.reverse ++ x :: ys = (before.reverse ++ [x]) ++ ys := by simp
    have hjoined : joined x.piece (pieces (y :: ahead)) =
        y.piece.isOperator "=" := by simp [joined, hx]
    obtain ⟨u, hu, hlooks⟩ := hs.row.looks y (by simp)
    rw [leftover, hjoined]
    refine yields_ask_bind (isOperator_eq hu hlooks _) ?_
    cases hy : y.piece.isOperator "=" with
    | false => exact (hset _).mono fun _ d' hd => ⟨y :: ahead, hd, rfl, rfl, rfl⟩
    | true =>
      have hyInside : y.inside = [] := (hs.nested y (by simp)).leaf
        (by simp [Piece.kind_of_isOperator hy])
      refine (hset _).bind ?_
      rintro _ d₁ hd₁
      have hs₁ := hd₁.standing
      rw [hrow] at hs₁
      obtain ⟨w, hw, -⟩ := hs₁.row.holds
      refine yields_update (lt_size_of_getElem? hw) ⟨y.blanked :: ahead, hd₁.trans ?_, rfl, rfl, ?_⟩
      · have hd₂ := Revised.rewrite hs₁ (Cell.rewrite_blanked y) hyInside.symm fun _ => rfl
        rwa [← hrow, ← hrow] at hd₂
      · simp [hyInside]

theorem yields_settle_other (hhead : x.piece.head? = none) (collector : Option Collector) :
    Yields (settle collector x.id) d fun next d' => next = collector ∧ ∃ ahead',
      Revised d d' parent (before.reverse ++ x :: ahead)
        (before.reverse ++ x.setPiece (settled x.piece (pieces ahead)) :: ahead') ∧
      Cell.ids ahead' = Cell.ids ahead ∧
      pieces ahead' = leftover x.piece (pieces ahead) ∧
      ahead'.map inside = ahead.map inside := by
  obtain ⟨t, ht, hfits⟩ := hs.row.holds
  unfold settle
  refine yields_token_bind ht ?_
  rw [hfits.looks.isHead, hhead, Option.isSome_none, if_neg Bool.false_ne_true,
    hfits.looks.isOperator]
  cases hx : x.piece.isOperator "!" with
  | true =>
    refine (yields_settleExclamation hs hx).bind ?_
    rintro _ d' hd
    exact yields_pure ⟨rfl, hd⟩
  | false =>
    refine yields_pure ⟨rfl, ahead, ?_, rfl, ?_, rfl⟩
    · simpa [settled, hx] using Revised.refl hs
    · simp [leftover, joined, hx]

end

/-- A rule for rows brings a row into normal form, and all that is inside it, if fewer than `fuel`
tokens are in it. -/
def NormalRule (fuel : Nat) (group : List Id → Edit Unit) : Prop :=
  ∀ {d : Document} {parent : Option Id} {cs : List Cell}, Standing true d parent cs →
    (places cs).length < fuel →
    Yields (group (Cell.ids cs)) d fun _ d' => ∃ cs',
      Revised d d' parent cs cs' ∧ items cs' = normal (items cs)

variable {fuel : Nat} {group : List Id → Edit Unit}

theorem Revised.parenthesize (hs : Standing true d parent (xs ++ x :: ys))
    (hkind : x.piece.kind = .container) :
    Revised d (d.change x.id fun t =>
      { t with
        opening := if t.opening.isEmpty then [] else [.char '(']
        closing := if t.closing.isEmpty then [] else [.char ')'] }) parent (xs ++ x :: ys)
      (xs ++ x.setPiece (parenthesized x.piece) :: ys) := by
  have hpiece : (parenthesized x.piece).kind = .container := by
    simp [parenthesized, hkind]
  refine .edit hs rfl rfl (fun hne => absurd hpiece hne) fun t ht => ?_
  have hlooks := ht.looks
  rw [piece_setPiece, parenthesized, if_pos hkind]
  exact ht.of_shows ⟨hlooks.kind, hlooks.text, by rw [hlooks.opening], by rw [hlooks.closing],
    hlooks.children⟩ rfl rfl

theorem yields_settleGroup_leaf (hs : Standing true d parent (xs ++ x :: ys))
    (hkind : x.piece.kind ≠ .container) : Yields (settleGroup group x.id) d fun _ d' => d' = d := by
  obtain ⟨t, ht, hfits⟩ := hs.row.holds
  refine yields_token_bind ht ?_
  rw [hfits.looks.kind, if_neg hkind]
  exact yields_pure rfl

theorem yields_settleGroup (hgroup : NormalRule fuel group)
    (hs : Standing true d parent (xs ++ x :: ys)) (hfuel : (places x.inside).length < fuel) :
    Yields (settleGroup group x.id) d fun _ d' => ∃ x',
      Revised d d' parent (xs ++ x :: ys) (xs ++ x' :: ys) ∧
      x'.piece = parenthesized x.piece ∧
      items x'.inside = normal (items x.inside) := by
  by_cases hkind : x.piece.kind = .container
  · obtain ⟨t, ht, hfits⟩ := hs.row.holds
    refine yields_token_bind ht ?_
    rw [hfits.looks.kind, if_pos hkind, hfits.looks.children, if_pos hkind]
    have hd₁ := Revised.parenthesize hs hkind
    refine yields_update_bind (lt_size_of_getElem? ht) ((hgroup hd₁.standing.inside hfuel).mono ?_)
    rintro _ d₂ ⟨cs, hcs, hitems⟩
    have hpiece : (x.setPiece (parenthesized x.piece)).piece.kind = .container := by
      simp [parenthesized, hkind]
    refine ⟨_, hd₁.trans ⟨hd₁.standing.fill hpiece hcs.standing hcs.kept hcs.ids hcs.places,
      hcs.kept.mono fun i _ hi => ?_, ?_, ?_, hcs.size⟩, rfl, hitems⟩
    · rw [Cell.places_append, Cell.places_cons]
      exact mem_append_right _ (mem_append_left _ (mem_cons_of_mem _ hi))
    · simp [Cell.id]
    · simp [Cell.id, hcs.places]
  · refine (yields_settleGroup_leaf hs hkind).mono ?_
    rintro _ _ rfl
    refine ⟨x, .refl hs, (Row.parenthesized_of_kind_ne hkind).symm, ?_⟩
    rw [(hs.nested x (by simp)).leaf hkind, Cell.items_nil, Row.normal_nil]

/-! ## Rows and documents -/

theorem completed_nil (hg : Gathers collector g before) : completed g [] before = before := by
  cases hg with
  | idle => rfl
  | busy seen word parts body =>
    simp [completed, extent, modify_append_cons, gathered_self parts body]

theorem completed_leftover (ps : List Piece) (before : List Cell) :
    completed g (x.piece :: leftover x.piece ps) before = completed g (x.piece :: ps) before := by
  cases g with
  | none => rfl
  | some g => simp only [completed, extent, Row.extent_leftover]

/-- The next cell is settled, up to the arguments that it may still collect: `y` stands for it, and
will be `z`. -/
theorem yields_normalizeToken (hgroup : NormalRule fuel group)
    (hs : Standing true d parent (before.reverse ++ x :: ahead)) (hg : Gathers collector g before)
    (hfuel : (places x.inside).length < fuel) :
    Yields (normalizeToken group collector x.id) d fun next d' => ∃ y z ahead',
      Revised d d' parent (before.reverse ++ x :: ahead)
        ((taking g x.piece before).reverse ++ y :: ahead') ∧
      Gathers next (gathering g x.piece) (y :: taking g x.piece before) ∧
      (Cell.ids ahead' = Cell.ids ahead ∧
        pieces ahead' = leftover x.piece (pieces ahead) ∧
        ahead'.map inside = ahead.map inside) ∧
      completed (gathering g x.piece) (leftover x.piece (pieces ahead))
        (y :: taking g x.piece before) =
        z :: completed g (x.piece :: pieces ahead) before ∧
      z.piece = parenthesized (settled (headed (owned g x.piece) (pieces ahead)) (pieces ahead)) ∧
      items z.inside = normal (items x.inside) := by
  have halike := Row.alike_owned g x.piece
  refine (yields_offer hs hg).bind ?_
  rintro next d₁ ⟨hd₁, hnext⟩
  cases hhead : x.piece.head? with
  | some head =>
    have hkind : x.piece.kind = .identifier := by
      by_contra hne
      simp [Piece.head?, hne] at hhead
    have hhead' : (owned g x.piece).head? = some head := halike.head?_eq.trans hhead
    have hmark : x.piece.isOperator "!" = false :=
      Piece.isOperator_of_kind_ne (by simp [hkind]) _
    have hleft : leftover x.piece (pieces ahead) = pieces ahead := by
      simp [leftover, joined, hmark]
    refine (yields_settle_head hd₁.standing hhead' next).bind ?_
    rintro next d₂ ⟨hd₂, hg₂⟩
    have hleaf : (gathered 0 false (x.setPiece (owned g x.piece))).piece.kind ≠ .container := by
      simp [gathered, halike.kind, hkind]
    refine (yields_settleGroup_leaf hd₂.standing hleaf).bind ?_
    rintro _ _ rfl
    refine yields_pure ⟨_, x.setPiece (headed (owned g x.piece) (pieces ahead)), ahead,
      hd₁.trans hd₂, ?_, ⟨rfl, hleft.symm, rfl⟩, ?_, ?_, ?_⟩
    · simpa [gathering, hhead] using hg₂
    · rw [← taking_of_head hg (by simp [hhead]), hleft]
      simp only [gathering, hhead, completed, modify_zero_cons, gathered_gathered,
        headed, hhead', Nat.zero_add]
      rfl
    · have hheaded := Row.alike_headed (owned g x.piece) (pieces ahead)
      rw [settled, hheaded.isOperator_eq, halike.isOperator_eq, hmark,
        if_neg Bool.false_ne_true, Row.parenthesized_of_kind_ne]
      · rfl
      · simp [hheaded.kind, halike.kind, hkind]
    · have hinside : x.inside = [] := (hs.nested x (by simp)).leaf (by simp [hkind])
      rw [Cell.inside_setPiece, hinside, Cell.items_nil, Row.normal_nil]
  | none =>
    have hhead' : (owned g x.piece).head? = none := halike.head?_eq.trans hhead
    refine (yields_settle_other hd₁.standing hhead' next).bind ?_
    rintro _ d₂ ⟨rfl, ahead', hd₂, hids, hpieces, hinsides⟩
    refine (yields_settleGroup hgroup hd₂.standing hfuel).bind ?_
    rintro _ d₃ ⟨y, hd₃, hpiece, hitems⟩
    refine yields_pure ⟨y, y, ahead', (hd₁.trans hd₂).trans hd₃, hnext hhead y,
      ⟨hids, hpieces.trans (halike.leftover_eq _), hinsides⟩, ?_, ?_, hitems⟩
    · rw [completed_taking hg hhead y, completed_leftover]
    · rw [hpiece, Row.headed_of_head? hhead']
      rfl

theorem yields_normalizeList (hgroup : NormalRule fuel group)
    (hs : Standing true d parent (before.reverse ++ ahead)) (hg : Gathers collector g before)
    (hfuel : ∀ cs ∈ ahead.map inside, (places cs).length < fuel) :
    Yields (normalizeList group collector (Cell.ids ahead)) d fun _ d' => ∃ front,
      Revised d d' parent (before.reverse ++ ahead)
        ((completed g (pieces ahead) before).reverse ++ front) ∧
      pieces front = Row.normalAfter g (pieces ahead) ∧
      front.map (fun c => items c.inside) = ahead.map (fun c => normal (items c.inside)) := by
  generalize hids : Cell.ids ahead = ids
  induction ids generalizing d before ahead collector g with
  | nil =>
    obtain rfl : ahead = [] := map_eq_nil_iff.mp hids
    refine yields_pure ⟨[], ?_, rfl, rfl⟩
    rw [Cell.pieces_nil, completed_nil hg]
    exact .refl hs
  | cons i rest ih =>
    obtain ⟨x, ahead, rfl, rfl, rfl⟩ : ∃ x cs, ahead = x :: cs ∧ Cell.id x = i ∧
        Cell.ids cs = rest :=
      map_eq_cons_iff.mp hids
    rw [map_cons] at hfuel
    obtain ⟨hx, hahead⟩ := forall_mem_cons.mp hfuel
    have hrow : ∀ (y : Cell) (us ys : List Cell),
        us.reverse ++ y :: ys = (y :: us).reverse ++ ys := by simp
    refine (yields_normalizeToken hgroup hs hg hx).bind ?_
    rintro next d₁ ⟨y, z, ahead', hd₁, hg₁, ⟨hids', hpieces, hinsides⟩, hcompleted, hpiece, hitems⟩
    rw [hrow y] at hd₁
    refine (ih hd₁.standing hg₁ (hinsides ▸ hahead) hids').mono ?_
    rintro _ d' ⟨front, hd', hfront, hfrontItems⟩
    refine ⟨z :: front, ?_, ?_, ?_⟩
    · rw [hpieces, hcompleted, ← hrow z] at hd'
      exact hd₁.trans hd'
    · rw [Cell.pieces_cons, Cell.pieces_cons, Row.normalAfter_cons, hpiece, hfront, hpieces]
    · have hsame : ahead'.map (fun c => normal (items c.inside)) =
          ahead.map (fun c => normal (items c.inside)) := by
        have hmap := congrArg (List.map fun cs => normal (items cs)) hinsides
        simpa only [List.map_map, Function.comp_def] using hmap
      rw [map_cons, map_cons, hitems, hfrontItems, hsame]

theorem normalRule_normalizeWithin (fuel : Nat) : NormalRule fuel (normalizeWithin fuel) := by
  induction fuel with
  | zero => exact fun _ hfuel => absurd hfuel (Nat.not_lt_zero _)
  | succ fuel ih =>
    intro d parent cs hs hfuel
    have hinside : ∀ ys ∈ cs.map inside, (places ys).length < fuel := by
      intro ys hys
      obtain ⟨c, hc, rfl⟩ := mem_map.mp hys
      have hlt := Cell.length_places_inside_lt hc
      omega
    have hrow : Standing true d parent (([] : List Cell).reverse ++ cs) := hs
    refine (yields_normalizeList ih hrow (.idle _) hinside).mono ?_
    rintro _ d' ⟨front, hd', hpieces, hitems⟩
    refine ⟨front, hd', ?_⟩
    rw [Cell.items_eq_zipWith, hpieces, hitems, normal, Cell.map_value_items]
    simp only [items, List.map_map, Function.comp_def, Cell.inside_item]

/-- Bringing a document into normal form brings its row into normal form. -/
theorem yields_normalize (hs : Standing true d none cs) (hroot : d.root = Cell.ids cs) :
    Yields normalize d fun _ d' => ∃ cs', Standing true d' none cs' ∧ d'.root = Cell.ids cs' ∧
      d'.newline = d.newline ∧ items cs' = normal (items cs) ∧
      places cs' = places cs ∧ d'.tokens.size = d.tokens.size := by
  refine Yields.bind (R := fun a d' => a = d ∧ d' = d) ⟨d, d, rfl, rfl, rfl⟩ ?_
  rintro _ _ ⟨rfl, rfl⟩
  rename_i d
  rw [hroot]
  refine (normalRule_normalizeWithin _ hs (Nat.lt_succ_of_le hs.length_places_le)).mono ?_
  rintro _ d' ⟨cs', hd', hitems⟩
  exact ⟨cs', hd'.standing, by rw [hd'.kept.root, hroot, hd'.ids], hd'.kept.newline, hitems,
    hd'.places, hd'.size⟩

end Macro10.Edit
