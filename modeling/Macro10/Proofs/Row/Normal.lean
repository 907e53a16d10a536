import Macro10.Proofs.Piece

/-!
# The normal form of a row

The normal form as a function on pieces. Directives and their arguments are marked, exclamation
marks are settled, brackets become parentheses; each of the three is a function of its own,
because none of them looks at what the others change.
-/

namespace Macro10.Row

variable {p q : Piece}

/-! ## Directives and their arguments -/

/-- A directive that is collecting its arguments, seen from the next token. -/
structure Gathering where
  /-- The number of tokens between the directive and the next token. -/
  distance : Nat
  /-- The next group is the body. -/
  ready : Bool
deriving DecidableEq

/-- The directive still collects after the piece `p`, which it has taken. -/
def Gathering.next (g : Gathering) (p : Piece) : Option Gathering :=
  if p.isNewline then none
  else if p.isOperator "," then some ⟨g.distance + 1, true⟩
  else if p.kind = .container && g.ready then none
  else some ⟨g.distance + 1, g.ready⟩

theorem distance_next {g g' : Gathering} (h : g.next p = some g') :
    g'.distance = g.distance + 1 := by
  unfold Gathering.next at h
  split at h
  · cases h
  · split at h
    · cases h
      rfl
    · split at h
      · cases h
      · cases h
        rfl

/-- How many of the pieces to come are arguments, and whether the last of them is the body. -/
def extent (ready : Bool) : List Piece → Nat × Bool
  | [] => (0, false)
  | p :: rest =>
    if p.isNewline then (0, false)
    else if p.head?.isSome then (1, false)
    else if p.isOperator "," then ((extent true rest).1 + 1, (extent true rest).2)
    else if p.kind = .container && ready then (1, true)
    else ((extent ready rest).1 + 1, (extent ready rest).2)

/-- The piece with its owner, if a directive takes it. -/
def owned (g : Option Gathering) (p : Piece) : Piece :=
  match g with
  | none => p
  | some g => if p.isNewline then p else { p with owner := some g.distance }

/-- The piece with its arguments if it is a directive; `rest` are the pieces to come. -/
def headed (p : Piece) (rest : List Piece) : Piece :=
  match p.head? with
  | none => p
  | some head =>
    { p with
      parts := some (extent (!head.bodyAfterComma) rest).1
      body := (extent (!head.bodyAfterComma) rest).2 }

/-- The directive that collects after the piece `p`. -/
def gathering (g : Option Gathering) (p : Piece) : Option Gathering :=
  match p.head? with
  | none => g.bind (·.next p)
  | some head => some ⟨0, !head.bodyAfterComma⟩

/-- Marks directives and arguments. -/
def mark (g : Option Gathering) : List Piece → List Piece
  | [] => []
  | p :: rest => headed (owned g p) rest :: mark (gathering g p) rest

/-! ## Exclamation marks and brackets -/

/-- Settles what exclamation marks mean. -/
def settle : List Piece → List Piece
  | [] => []
  | [p] => [if p.isOperator "!" then p.setText "|" else p]
  | p :: q :: rest =>
    if p.isOperator "!" then
      if q.isOperator "=" then p.setText "!=" :: q.blanked :: settle rest
      else p.setText "|" :: settle (q :: rest)
    else p :: settle (q :: rest)

/-- A group gets parentheses for brackets. -/
def parenthesized (p : Piece) : Piece :=
  if p.kind = .container then
    { p with
      opening := if p.opening.isEmpty then [] else [.char '(']
      closing := if p.closing.isEmpty then [] else [.char ')'] }
  else p

theorem parenthesized_of_kind_ne {p : Piece} (h : p.kind ≠ .container) : parenthesized p = p :=
  if_neg h

/-! ## Rows -/

/-- The normal form of pieces while a directive may be collecting. -/
def normalAfter (g : Option Gathering) (ps : List Piece) : List Piece :=
  (settle (mark g ps)).map parenthesized

/-- The normal form of a row, and of the rows inside. -/
def normal (xs : List Item) : List Item :=
  List.zipWith Nest.node (normalAfter none (xs.map Nest.value)) (xs.map fun x => normal x.inside)
termination_by (Nest.listing xs).length
decreasing_by
  have hle := Nest.length_values_le ‹x ∈ xs›
  have hlt := Nest.length_listing_inside_lt x
  omega

theorem normal_nil : normal [] = [] := by
  rw [normal]
  rfl

/-! ## One piece after another -/

/-- The pieces look the same to the pass: they differ in marks only. -/
structure Alike (p q : Piece) : Prop where
  kind : q.kind = p.kind
  text : q.text = p.text
  opening : q.opening = p.opening
  closing : q.closing = p.closing

namespace Alike

variable {p q : Piece}

/-- Alike pieces have the same token. -/
theorem token_eq (h : Alike p q) : q.token = p.token := by
  simp only [Piece.token, h.kind, h.text, h.opening, h.closing]

theorem isOperator_eq (h : Alike p q) (text : Text) : q.isOperator text = p.isOperator text := by
  unfold Piece.isOperator
  rw [h.token_eq]

theorem head?_eq (h : Alike p q) : q.head? = p.head? := by
  unfold Piece.head? Piece.upper
  rw [h.token_eq, h.kind]

end Alike

/-- An owner does not change the token. -/
theorem alike_owned (g : Option Gathering) (p : Piece) : Alike p (owned g p) := by
  unfold owned
  split
  · exact ⟨rfl, rfl, rfl, rfl⟩
  · split <;> exact ⟨rfl, rfl, rfl, rfl⟩

/-- Arguments do not change the token. -/
theorem alike_headed (p : Piece) (rest : List Piece) : Alike p (headed p rest) := by
  unfold headed
  split <;> exact ⟨rfl, rfl, rfl, rfl⟩

theorem isOperator_headed_owned (g : Option Gathering) (p : Piece) (rest : List Piece)
    (text : Text) : (headed (owned g p) rest).isOperator text = p.isOperator text := by
  rw [(alike_headed _ rest).isOperator_eq, (alike_owned g p).isOperator_eq]

/-- The piece `p` is an exclamation mark, and an equals sign follows directly. -/
def joined (p : Piece) (rest : List Piece) : Bool :=
  p.isOperator "!" && rest.head?.any (·.isOperator "=")

/-- What the piece `p` leaves of those after it: an equals sign is taken into the mark before. -/
def leftover (p : Piece) (rest : List Piece) : List Piece :=
  if joined p rest then rest.modifyHead Piece.blanked else rest

/-- The piece `p` with what it means if it is an exclamation mark. -/
def settled (p : Piece) (rest : List Piece) : Piece :=
  if p.isOperator "!" then p.setText (if joined p rest then "!=" else "|") else p

theorem Alike.leftover_eq (h : Alike p q) (rest : List Piece) :
    leftover q rest = leftover p rest := by
  unfold leftover joined
  rw [h.isOperator_eq]

theorem isOperator_blanked (p : Piece) (text : Text) : p.blanked.isOperator text = false :=
  Piece.isOperator_of_kind_ne (by simp) text

theorem settle_blanked_cons (p : Piece) (rest : List Piece) :
    settle (p.blanked :: rest) = p.blanked :: settle rest := by
  cases rest <;> simp [settle, isOperator_blanked]

/-- One piece is settled, with the one after it. -/
theorem settle_cons (p : Piece) (rest : List Piece) :
    settle (p :: rest) = settled p rest :: settle (leftover p rest) := by
  cases rest with
  | nil => simp [settle, settled, leftover, joined]
  | cons q rest =>
    cases hp : p.isOperator "!" with
    | false => simp [settle, settled, leftover, joined, hp]
    | true =>
      cases hq : q.isOperator "=" with
      | false => simp [settle, settled, leftover, joined, hp, hq]
      | true => simp [settle, settled, leftover, joined, hp, hq, settle_blanked_cons]

theorem headed_of_head? (h : p.head? = none) (rest : List Piece) : headed p rest = p := by
  simp [headed, h]

/-- A piece that is an operator but no comma, or is blanked out, is like any other argument. -/
theorem next_of_plain (hline : p.isNewline = false) (hcomma : p.isOperator "," = false)
    (hkind : p.kind ≠ .container) (g : Gathering) : g.next p = some ⟨g.distance + 1, g.ready⟩ := by
  simp [Gathering.next, hline, hcomma, hkind]

/-- An equals sign that is blanked out is an argument as it was before. -/
theorem mark_blanked_cons (hq : q.isOperator "=" = true)
    (g : Option Gathering) (rest : List Piece) :
    mark g (q.blanked :: rest) = (mark g (q :: rest)).modifyHead Piece.blanked := by
  have hkind := Piece.kind_of_isOperator hq
  have hcomma : q.isOperator "," = false := Piece.isOperator_of_ne hq (by decide)
  have hline : q.isNewline = false := Piece.isNewline_eq_false (by simp [hkind])
  have hhead : q.head? = none := by simp [Piece.head?, hkind]
  have hhead' : q.blanked.head? = none := by simp [Piece.head?]
  have howned : owned g q.blanked = (owned g q).blanked := by
    cases g with
    | none => rfl
    | some g =>
      simp only [owned, hline, Piece.isNewline_blanked, Bool.false_eq_true, if_false]
      rfl
  have hgathering : gathering g q.blanked = gathering g q := by
    cases g with
    | none => simp [gathering, hhead, hhead']
    | some g =>
      simp [gathering, hhead, hhead', next_of_plain hline hcomma (by simp [hkind]),
        next_of_plain (Piece.isNewline_blanked q) (isOperator_blanked q _) (by simp)]
  rw [mark, mark, List.modifyHead_cons, headed_of_head? ((alike_owned g q).head?_eq.trans hhead),
    headed_of_head? ((alike_owned g _).head?_eq.trans hhead'), howned, hgathering]

/-- An equals sign is used up, or nothing is. -/
theorem leftover_cases (p : Piece) (rest : List Piece) :
    leftover p rest = rest ∧ joined p rest = false ∨ ∃ q later, rest = q :: later ∧
      q.isOperator "=" = true ∧ leftover p rest = q.blanked :: later ∧ joined p rest = true := by
  unfold leftover
  cases hjoined : joined p rest with
  | false => exact .inl ⟨rfl, rfl⟩
  | true =>
    cases rest with
    | nil => simp [joined] at hjoined
    | cons q later =>
      obtain ⟨-, hq⟩ := Bool.and_eq_true_iff.mp hjoined
      exact .inr ⟨q, later, rfl, hq, rfl, rfl⟩

theorem map_leftover {α : Type} {f : Piece → α}
    (hf : ∀ q : Piece, q.isOperator "=" = true → f q.blanked = f q) (p : Piece)
    (rest : List Piece) : (leftover p rest).map f = rest.map f := by
  rcases leftover_cases p rest with ⟨heq, -⟩ | ⟨q, later, rfl, hq, heq, -⟩
  · rw [heq]
  · rw [heq, List.map_cons, hf q hq, List.map_cons]

/-- Marks are found as if nothing was used up. -/
theorem mark_leftover (g : Option Gathering) (p : Piece) (rest : List Piece) :
    mark g (leftover p rest) =
      if joined p rest then (mark g rest).modifyHead Piece.blanked else mark g rest := by
  rcases leftover_cases p rest with ⟨heq, hjoined⟩ | ⟨q, later, rfl, hq, heq, hjoined⟩
  · rw [heq, hjoined]
    rfl
  · rw [heq, hjoined, mark_blanked_cons hq]
    rfl

theorem extent_leftover (ready : Bool) (p : Piece) (rest : List Piece) :
    extent ready (leftover p rest) = extent ready rest := by
  rcases leftover_cases p rest with ⟨heq, -⟩ | ⟨q, later, rfl, hq, heq, -⟩
  · rw [heq]
  · have hkind := Piece.kind_of_isOperator hq
    have hcomma : q.isOperator "," = false := Piece.isOperator_of_ne hq (by decide)
    have hline : q.isNewline = false := Piece.isNewline_eq_false (by simp [hkind])
    simp [heq, extent, hline, hcomma, hkind, Piece.head?, isOperator_blanked]

/-- The first piece of a normal form, and what is left to be settled. -/
theorem normalAfter_cons (g : Option Gathering) (p : Piece) (rest : List Piece) :
    normalAfter g (p :: rest) = parenthesized (settled (headed (owned g p) rest) rest) ::
      normalAfter (gathering g p) (leftover p rest) := by
  have hlooks : (mark (gathering g p) rest).head?.any (·.isOperator "=") =
      rest.head?.any (·.isOperator "=") := by
    cases rest with
    | nil => rfl
    | cons q rest => simp [mark, isOperator_headed_owned]
  have hjoined : joined (headed (owned g p) rest) (mark (gathering g p) rest) = joined p rest := by
    simp only [joined, isOperator_headed_owned, hlooks]
  have hjoined' : joined (headed (owned g p) rest) rest = joined p rest := by
    simp only [joined, isOperator_headed_owned]
  have hsettled : settled (headed (owned g p) rest) (mark (gathering g p) rest) =
      settled (headed (owned g p) rest) rest := by
    simp only [settled, hjoined, hjoined']
  have hleft : leftover (headed (owned g p) rest) (mark (gathering g p) rest) =
      mark (gathering g p) (leftover p rest) := by
    rw [mark_leftover, leftover, hjoined]
  rw [normalAfter, mark, settle_cons, List.map_cons, hsettled, hleft, normalAfter]

@[simp]
theorem length_mark (g : Option Gathering) (ps : List Piece) : (mark g ps).length = ps.length := by
  induction ps generalizing g with
  | nil => rfl
  | cons p rest ih => simp [mark, ih]

@[simp]
theorem length_settle (ps : List Piece) : (settle ps).length = ps.length := by
  fun_induction settle ps with
  | case1 => rfl
  | case2 p => rfl
  | case3 p q rest _ _ ih => simp [ih]
  | case4 p q rest _ _ ih => simpa using ih
  | case5 p q rest _ ih => simpa using ih

@[simp]
theorem length_normalAfter (g : Option Gathering) (ps : List Piece) :
    (normalAfter g ps).length = ps.length := by
  simp [normalAfter]

end Macro10.Row
