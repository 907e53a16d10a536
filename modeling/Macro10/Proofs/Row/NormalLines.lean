import Macro10.Proofs.Row.Lines
import Macro10.Proofs.Row.Settles

/-!
# Lines in normal form

Arguments end with their line, so the normal form of whole lines does not depend on what follows
(`normal_append`), and its marks stay within the line and within the row (`inLine_normal`,
`owned_normal`).
-/

namespace Macro10

open List
open Piece (isNewline)
open Nest (Throughout value)

variable {ps : List Piece}

/-- The piece has no marks. -/
structure Piece.Unmarked (p : Piece) : Prop where
  owner : p.owner = none
  parts : p.parts = none
  body : p.body = false

namespace Row

variable {p : Piece} {rest : List Piece} {zs xs : List Item} {g : Option Gathering}

/-! ## Marks stay within the line and the row -/

theorem unmarked_leftover (h : ∀ q ∈ rest, q.Unmarked) : ∀ q ∈ leftover p rest, q.Unmarked := by
  rcases leftover_cases p rest with ⟨heq, -⟩ | ⟨q, later, rfl, -, heq, -⟩
  · rwa [heq]
  · obtain ⟨hq, hlater⟩ := forall_mem_cons.mp h
    rw [heq]
    exact forall_mem_cons.mpr ⟨⟨hq.owner, hq.parts, hq.body⟩, hlater⟩

theorem marks_settled (p : Piece) (rest : List Piece) :
    (parenthesized (settled p rest)).owner = p.owner ∧
      (parenthesized (settled p rest)).parts = p.parts ∧
        (parenthesized (settled p rest)).body = p.body := by
  have hset : (settled p rest).owner = p.owner ∧ (settled p rest).parts = p.parts ∧
      (settled p rest).body = p.body := by
    unfold settled
    split <;> exact ⟨rfl, rfl, rfl⟩
  unfold parenthesized
  split <;> exact hset

theorem owner_headed (p : Piece) (rest : List Piece) : (headed p rest).owner = p.owner := by
  unfold headed
  split <;> rfl

theorem marks_owned (g : Option Gathering) (p : Piece) :
    (owned g p).parts = p.parts ∧ (owned g p).body = p.body := by
  unfold owned
  split
  · exact ⟨rfl, rfl⟩
  · split <;> exact ⟨rfl, rfl⟩

/-- The row is the normal form of pieces without marks, where `g` is what is being collected. -/
inductive NormalRow : Option Gathering → List Piece → List Item → Prop
  | nil {g : Option Gathering} : NormalRow g [] []
  | cons {g : Option Gathering} {p : Piece} {rest : List Piece} {z : Item} {zs : List Item}
      (hp : p.Unmarked) (hz : z.value = parenthesized (settled (headed (owned g p) rest) rest))
      (hzs : zs.map value = normalAfter (gathering g p) (leftover p rest))
      (h : NormalRow (gathering g p) (leftover p rest) zs) : NormalRow g (p :: rest) (z :: zs)

theorem normalRow_of_map_value (hz : zs.map value = normalAfter g ps)
    (hps : ∀ p ∈ ps, p.Unmarked) : NormalRow g ps zs := by
  induction ps using leftover_induction generalizing zs g with
  | nil =>
    obtain rfl := map_eq_nil_iff.mp hz
    exact .nil
  | cons p rest ih =>
    obtain ⟨hp, hrest⟩ := forall_mem_cons.mp hps
    rw [normalAfter_cons] at hz
    obtain ⟨z, zs, rfl, hzp, hzs⟩ := map_eq_cons_iff.mp hz
    exact .cons hp hzp hzs (ih hzs (unmarked_leftover hrest))

/-- What the normal form does not change is the same along the row. -/
theorem map_eq_of_leftover {α : Type} {f : Piece → α} (hf : ∀ {p q}, Settles p q → f q = f p)
    (hzs : zs.map value = normalAfter (gathering g p) (leftover p rest)) :
    zs.map (fun z => f z.value) = rest.map f := by
  have hmap := map_eq_of_settles hf (settles_leftover g p rest)
  rwa [← hzs, List.map_map] at hmap

theorem NormalRow.owned {n : Nat} (h : NormalRow g ps zs)
    (hg : ∀ g', g = some g' → g'.distance < n) : Owned n zs := by
  induction h generalizing n with
  | nil => trivial
  | @cons g p rest z zs hp hzp _ _ ih =>
    refine ⟨fun k hk => ?_, ih fun g' hg' => ?_⟩
    · rw [hzp, (marks_settled _ rest).1, owner_headed] at hk
      unfold Row.owned at hk
      split at hk
      · rw [hp.owner] at hk
        cases hk
      · split at hk
        · rw [hp.owner] at hk
          cases hk
        · cases hk
          exact hg _ rfl
    · unfold gathering at hg'
      split at hg'
      · obtain ⟨g₀, hg₀, hnext⟩ := Option.bind_eq_some_iff.mp hg'
        rw [distance_next hnext]
        exact Nat.succ_lt_succ (hg g₀ hg₀)
      · cases hg'
        exact Nat.succ_pos n

theorem extent_le (ready : Bool) (ps : List Piece) :
    (extent ready ps).1 ≤ (ps.takeWhile fun p => !p.isNewline).length := by
  induction ps generalizing ready with
  | nil => exact le_rfl
  | cons p rest ih =>
    unfold extent
    rw [takeWhile_cons]
    cases hline : p.isNewline with
    | true => exact Nat.zero_le _
    | false =>
      simp only [Bool.false_eq_true, if_false, Bool.not_false, if_true, length_cons]
      split
      · exact Nat.succ_le_succ (Nat.zero_le _)
      split
      · exact Nat.succ_le_succ (ih true)
      split
      · exact Nat.succ_le_succ (Nat.zero_le _)
      · exact Nat.succ_le_succ (ih ready)

theorem leading_le (p : Piece) : leading p ≤ p.parts.getD 0 := by
  unfold leading
  split
  · exact Nat.sub_le ..
  · exact le_rfl

theorem parts_headed_le (hp : p.parts = none) (rest : List Piece) :
    (headed p rest).parts.getD 0 ≤ (rest.takeWhile fun q => !q.isNewline).length := by
  unfold headed
  split
  · simp [hp]
  · exact extent_le _ rest

theorem lineLength_eq_of_map_value
    (hz : (zs.map value).map isNewline = ps.map isNewline) :
    lineLength zs = (ps.takeWhile fun p => !p.isNewline).length := by
  have hline : ∀ qs : List Piece, (qs.takeWhile fun p => !p.isNewline).length =
      ((qs.map isNewline).takeWhile fun b => !b).length := by
    intro qs
    rw [takeWhile_map, length_map]
    rfl
  rw [hline, ← hz, ← hline, takeWhile_map, length_map]
  rfl

theorem NormalRow.inLine (h : NormalRow g ps zs) : InLine zs := by
  induction h with
  | nil => trivial
  | @cons g p rest z zs hp hzp hzs _ ih =>
    have howned : (Row.owned g p).parts = none := (marks_owned g p).1.trans hp.parts
    have hlines : lineLength zs = (rest.takeWhile fun q => !q.isNewline).length := by
      refine lineLength_eq_of_map_value ?_
      rw [hzs, map_eq_of_settles Settles.isNewline_eq (settles_leftover g p rest)]
    refine ⟨?_, ih⟩
    calc leading z.value ≤ z.value.parts.getD 0 := leading_le _
      _ = (headed (Row.owned g p) rest).parts.getD 0 := by rw [hzp, (marks_settled _ rest).2.1]
      _ ≤ (rest.takeWhile fun q => !q.isNewline).length := parts_headed_le howned rest
      _ = lineLength zs := hlines.symm

/-! ## Arguments that are groups -/

theorem kind_settled (p : Piece) (rest : List Piece) :
    (parenthesized (settled p rest)).kind = p.kind := by
  have hset : (settled p rest).kind = p.kind := by
    unfold settled
    split <;> rfl
  unfold parenthesized
  split <;> exact hset

theorem kind_headed_owned (g : Option Gathering) (p : Piece) (rest : List Piece) :
    (headed (owned g p) rest).kind = p.kind :=
  (alike_headed _ rest).kind.trans (alike_owned g p).kind

/-- A body is among the arguments. -/
theorem extent_pos {ready : Bool} (h : (extent ready ps).2 = true) : 0 < (extent ready ps).1 := by
  cases ps with
  | nil => cases h
  | cons p rest =>
    unfold extent at h ⊢
    split at h
    · cases h
    split at h
    · cases h
    split at h
    · simp [*]
    split at h <;> simp [*]

/-- If the first group is the body, there is none among the arguments before it. -/
theorem kind_of_mem_take_extent (ps : List Piece) :
    ∀ p ∈ ps.take (if (extent true ps).2 then (extent true ps).1 - 1 else (extent true ps).1),
      p.kind ≠ .container := by
  induction ps with
  | nil => exact forall_mem_nil _
  | cons p rest ih =>
    -- The piece `p` is no group, and it is one argument more.
    have hmore : p.kind ≠ .container → ∀ q ∈ (p :: rest).take
        (if (extent true rest).2 then (extent true rest).1 + 1 - 1 else (extent true rest).1 + 1),
          q.kind ≠ .container := by
      intro hp
      have hsucc : (if (extent true rest).2 then (extent true rest).1 + 1 - 1
          else (extent true rest).1 + 1) =
          (if (extent true rest).2 then (extent true rest).1 - 1
            else (extent true rest).1) + 1 := by
        split
        · next hbody =>
          have hpos := extent_pos hbody
          omega
        · rfl
      rw [hsucc, take_succ_cons]
      exact forall_mem_cons.mpr ⟨hp, ih⟩
    rw [extent]
    split
    · exact forall_mem_nil _
    split
    · next hhead =>
      obtain ⟨head, hhead⟩ := Option.isSome_iff_exists.mp hhead
      have hkind := Piece.kind_of_head? hhead
      exact forall_mem_singleton.mpr (by simp [hkind])
    split
    · next hcomma => exact hmore (by rw [Piece.kind_of_isOperator hcomma]; decide)
    split
    · exact forall_mem_nil _
    · next hgroup => exact hmore fun hkind => hgroup (by simp [hkind])

theorem settled_of_identifier (h : p.kind = .identifier) (rest : List Piece) :
    parenthesized (settled p rest) = p := by
  have hmark : p.isOperator "!" = false :=
    Piece.isOperator_of_kind_ne (by simp [h]) _
  simp [settled, parenthesized, hmark, h]

theorem NormalRow.clear (h : NormalRow g ps zs) : Clear zs := by
  induction h with
  | nil => trivial
  | @cons g p rest z zs _ hzp hzs _ ih =>
    refine ⟨fun head hhead hfirst y hy => ?_, ih⟩
    have hgroups := map_eq_of_leftover Settles.isContainer_eq hzs
    have hkind : p.kind = .identifier := by
      have hz := Piece.kind_of_head? hhead
      rwa [hzp, kind_settled, kind_headed_owned] at hz
    have howned : (Row.owned g p).head? = some head := by
      rw [hzp, settled_of_identifier (by rw [kind_headed_owned, hkind]),
        (alike_headed _ rest).head?_eq] at hhead
      exact hhead
    have hleading : leading z.value =
        if (extent true rest).2 then (extent true rest).1 - 1 else (extent true rest).1 := by
      rw [hzp, settled_of_identifier (by rw [kind_headed_owned, hkind])]
      simp [headed, howned, hfirst, leading]
    -- The arguments of `z` are groups where those of `p` are.
    have hmem : decide (y.value.kind = .container) ∈
        (rest.take (leading z.value)).map fun q => decide (q.kind = .container) := by
      rw [map_take, ← hgroups, ← map_take]
      exact mem_map_of_mem hy
    obtain ⟨q, hq, heq⟩ := mem_map.mp hmem
    rw [hleading] at hq
    have hfree := kind_of_mem_take_extent rest q hq
    intro hcontainer
    rw [hcontainer] at heq
    exact hfree (by simpa using heq)

theorem map_value_normal (xs : List Item) :
    (normal xs).map value = normalAfter none (xs.map value) := by
  rw [normal, map_zipWith]
  rw [← map_uncurry_zip_eq_zipWith]
  exact map_fst_zip (by simp)

theorem normalRow_normal (h : ∀ x ∈ xs, x.value.Unmarked) :
    NormalRow none (xs.map value) (normal xs) :=
  normalRow_of_map_value (map_value_normal xs) (forall_mem_map.mpr h)

theorem map_inside_normal (xs : List Item) :
    (normal xs).map Nest.inside = xs.map fun x => normal x.inside := by
  rw [normal, map_zipWith]
  rw [← map_uncurry_zip_eq_zipWith]
  exact map_snd_zip (by simp)

/-- What holds of the normal form of a row without marks holds in all rows. -/
theorem throughout_normal_of {T : List Item → Prop}
    (hT : ∀ xs, NormalRow none (xs.map value) (normal xs) → T (normal xs))
    (h : Throughout (fun ys => ∀ y ∈ ys, y.value.Unmarked) xs) :
    Throughout T (normal xs) := by
  induction h with
  | @intro xs row _ ih =>
    refine ⟨hT xs (normalRow_normal row), fun z hz => ?_⟩
    have hmem : z.inside ∈ xs.map fun x => normal x.inside := by
      rw [← map_inside_normal]
      exact mem_map_of_mem hz
    obtain ⟨x, hx, heq⟩ := mem_map.mp hmem
    rw [← heq]
    exact ih x hx

/-- The marks of a normal form are those that the walk needs, in all rows. -/
theorem throughout_normal (h : Throughout (fun ys => ∀ y ∈ ys, y.value.Unmarked) xs) :
    Throughout (fun zs => InLine zs ∧ Clear zs) (normal xs) :=
  throughout_normal_of (fun _ hrow => ⟨hrow.inLine, hrow.clear⟩) h

/-! ## Normal forms in parts -/

theorem extent_append (ready : Bool) (h : ∃ p ∈ ps, p.isNewline = true) (qs : List Piece) :
    extent ready (ps ++ qs) = extent ready ps := by
  induction ps generalizing ready with
  | nil =>
    obtain ⟨p, hp, -⟩ := h
    cases hp
  | cons p rest ih =>
    rw [cons_append, extent, extent]
    cases hline : p.isNewline with
    | true => rw [if_pos rfl, if_pos rfl]
    | false =>
      have hrest : ∃ q ∈ rest, q.isNewline = true := by
        obtain ⟨q, hq, hqline⟩ := h
        rcases mem_cons.mp hq with rfl | hq
        · rw [hline] at hqline
          cases hqline
        · exact ⟨q, hq, hqline⟩
      rw [ih true hrest, ih ready hrest]

theorem headed_append (p : Piece) (h : ∃ q ∈ rest, q.isNewline = true)
    (qs : List Piece) : headed p (rest ++ qs) = headed p rest := by
  unfold headed
  simp only [extent_append _ h qs]

theorem joined_append (p : Piece) (hne : rest ≠ []) (qs : List Piece) :
    joined p (rest ++ qs) = joined p rest := by
  obtain ⟨q, rest, rfl⟩ := exists_cons_of_ne_nil hne
  rfl

theorem map_isNewline_leftover (p : Piece) (rest : List Piece) :
    (leftover p rest).map isNewline = rest.map isNewline := by
  refine map_leftover (fun q hq => ?_) p rest
  rw [Piece.isNewline_blanked,
    Piece.isNewline_eq_false (by rw [Piece.kind_of_isOperator hq]; decide)]

theorem leftover_append (p : Piece) (hne : rest ≠ []) (qs : List Piece) :
    leftover p (rest ++ qs) = leftover p rest ++ qs := by
  unfold leftover
  rw [joined_append p hne]
  obtain ⟨q, rest, rfl⟩ := exists_cons_of_ne_nil hne
  split <;> rfl

/-- The pieces end with the end of a line. -/
def EndedPieces (ps : List Piece) : Prop := (ps.map isNewline).getLast? = some true

theorem normalAfter_append (h : EndedPieces ps) (g : Option Gathering) (qs : List Piece) :
    normalAfter g (ps ++ qs) = normalAfter g ps ++ normalAfter none qs := by
  induction ps using leftover_induction generalizing g with
  | nil => cases h
  | cons p rest ih =>
    by_cases hne : rest = []
    · subst hne
      have hline : p.isNewline = true := by simpa [EndedPieces] using h
      have hkind : p.kind = .whitespace := Piece.kind_of_isNewline hline
      have hhead : p.head? = none := by simp [Piece.head?, hkind]
      have howned : owned g p = p := by cases g <;> simp [owned, hline]
      have hgathering : gathering g p = none := by
        cases g <;> simp [gathering, hhead, Gathering.next, hline]
      have hmark : p.isOperator "!" = false :=
        Piece.isOperator_of_kind_ne (by simp [hkind]) _
      have hleft : ∀ qs, leftover p qs = qs := fun qs => by simp [leftover, joined, hmark]
      have hsettled : ∀ qs, settled p qs = p := fun qs => by simp [settled, hmark]
      rw [singleton_append, normalAfter_cons, normalAfter_cons, howned, hgathering]
      simp only [headed_of_head? hhead, hleft, hsettled]
      rfl
    · have hrest : EndedPieces rest := by
        obtain ⟨q, rest, rfl⟩ := exists_cons_of_ne_nil hne
        simpa [EndedPieces] using h
      have hleft : EndedPieces (leftover p rest) := by
        rwa [EndedPieces, map_isNewline_leftover]
      have hline : ∃ q ∈ rest, q.isNewline = true := by
        obtain ⟨q, hq, hqline⟩ := mem_map.mp (mem_of_getLast? hrest)
        exact ⟨q, hq, hqline⟩
      rw [cons_append, normalAfter_cons, normalAfter_cons, leftover_append p hne, ih hleft,
        headed_append _ hline, cons_append]
      simp only [settled, joined_append _ hne]

/-- **Whole lines have a normal form of their own.** -/
theorem normal_append (h : xs = [] ∨ Ended xs) (ys : List Item) :
    normal (xs ++ ys) = normal xs ++ normal ys := by
  rcases h with rfl | h
  · rw [nil_append, normal.eq_def []]
    rfl
  · have hpieces : EndedPieces (xs.map value) := by
      obtain ⟨x, hx, hline⟩ := h
      simp [EndedPieces, getLast?_map, hx, hline]
    rw [normal, normal.eq_def xs, normal.eq_def ys, map_append, map_append,
      normalAfter_append hpieces, zipWith_append (by simp)]

theorem ended_normal (h : xs = [] ∨ Ended xs) : normal xs = [] ∨ Ended (normal xs) := by
  rcases h with rfl | ⟨x, hx, hline⟩
  · refine .inl ?_
    rw [normal]
    rfl
  · refine .inr ?_
    have hlast : (((normal xs).map value).map isNewline).getLast? = some true := by
      rw [map_value_normal, map_eq_of_settles Settles.isNewline_eq (settles_normalAfter none _)]
      simp [getLast?_map, hx, hline]
    rw [List.map_map, getLast?_map] at hlast
    obtain ⟨y, hy, heq⟩ := Option.map_eq_some_iff.mp hlast
    exact ⟨y, hy, heq⟩

/-- **A row of whole lines can be brought into normal form and retargeted in parts.** -/
theorem retarget_normal_append {ys : List Item} (hxs : xs = [] ∨ Ended xs)
    (hmarks : ∀ x ∈ xs ++ ys, x.value.Unmarked) (newline opening : Text) :
    retarget newline opening (normal (xs ++ ys)) =
      retarget newline opening (normal xs) ++ retarget newline opening (normal ys) := by
  obtain ⟨hunmarked, hunmarked'⟩ := forall_mem_append.mp hmarks
  rw [normal_append hxs]
  exact retarget_append (ended_normal hxs) (normalRow_normal hunmarked).inLine
    ((normalRow_normal hunmarked').owned fun _ hg => (nomatch hg)) newline opening

end Row

theorem Forest.unmarked_items (f : Forest) : ∀ x ∈ f.items, x.value.Unmarked := by
  induction f with
  | nil => exact fun _ hx => (nomatch hx)
  | leaf kind text position rest ih =>
    exact forall_mem_cons.mpr ⟨⟨rfl, rfl, rfl⟩, ih⟩
  | group position closed children rest _ ih =>
    exact forall_mem_cons.mpr ⟨⟨rfl, rfl, rfl⟩, ih⟩

theorem Forest.throughout_unmarked (f : Forest) :
    Throughout (fun xs => ∀ x ∈ xs, x.value.Unmarked) f.items := by
  refine ⟨f.unmarked_items, ?_⟩
  induction f with
  | nil => exact forall_mem_nil _
  | leaf kind text position rest ih =>
    exact forall_mem_cons.mpr ⟨⟨forall_mem_nil _, forall_mem_nil _⟩, ih⟩
  | group position closed children rest ihc ih =>
    exact forall_mem_cons.mpr ⟨⟨children.unmarked_items, ihc⟩, ih⟩

end Macro10
