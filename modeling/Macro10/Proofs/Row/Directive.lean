import Macro10.Proofs.Row.Normal
import Macro10.Proofs.Row.Walk

/-!
# A directive with a body

A line that holds a directive, some arguments and a group. In normal form the group is the body of
the directive (`normal_directive`), and for the target the body is put on lines of its own, where it
is retargeted as any other row (`textOf_body`).
-/

namespace Macro10

open List
open Text (upper)
open Nest (node value)

/-- The piece with an owner, so many tokens back. -/
def Piece.ownedAt (distance : Nat) (p : Piece) : Piece := { p with owner := some distance }

/-- The word for the directive in the target. -/
def Head.opener : Head → Text
  | define => Retarget.macroDefinition
  | _ => Retarget.conditional

namespace Row

open Text (ofString)
open Piece (isNewline_eq_false isOperator_of_kind_ne isSpacing ownedAt text)
open Item (textOf textOf_cons)

/-- The normal form leaves the piece as it is, but for its owner. -/
structure Inert (p : Piece) : Prop where
  kind : p.kind ≠ .container
  head? : p.head? = none
  isOperator : p.isOperator "!" = false

/-- A piece that can be the argument of a directive, and is no body. -/
structure IsArgument (p : Piece) : Prop extends Inert p where
  isNewline : p.isNewline = false

/-- The arguments of a directive, the first of which is at the given distance. -/
def numbered (distance : Nat) : List Piece → List Piece
  | [] => []
  | p :: args => { p with owner := some distance } :: numbered (distance + 1) args

variable {args ps qs rest : List Piece} {p g : Piece} {ready : Bool} {head : Head}
  {xs ys : List Item}

theorem inert_of_whitespace (h : p.kind = .whitespace) : Inert p :=
  ⟨by simp [h], by simp [Piece.head?, h], isOperator_of_kind_ne (by simp [h]) _⟩

theorem normalAfter_of_not_mark (h : p.isOperator "!" = false)
    (gathers : Option Gathering) (rest : List Piece) :
    normalAfter gathers (p :: rest) =
      parenthesized (headed (owned gathers p) rest) :: normalAfter (gathering gathers p) rest := by
  have hjoined : joined p rest = false := by rw [joined, h, Bool.false_and]
  rw [normalAfter_cons, settled, isOperator_headed_owned, h, leftover, hjoined]
  rfl

@[simp]
theorem length_numbered (distance : Nat) (args : List Piece) :
    (numbered distance args).length = args.length := by
  induction args generalizing distance with
  | nil => rfl
  | cons p args ih => rw [numbered, length_cons, ih, length_cons]

/-! ## Marks -/

theorem gathering_none (h : p.head? = none) : gathering none p = none := by
  rw [gathering, h]
  rfl

theorem mark_none (h : ∀ p ∈ ps, p.head? = none) : mark none ps = ps := by
  induction ps with
  | nil => rfl
  | cons p ps ih =>
    obtain ⟨hp, h⟩ := forall_mem_cons.mp h
    rw [mark, gathering_none hp, ih h, owned, headed_of_head? hp]

/-- A directive takes the pieces as arguments and still waits for its body; `ready` tells whether a
group would be the body before the first of them. -/
def AwaitsBody : Bool → List Piece → Prop
  | ready, [] => ready = true
  | ready, p :: args => p.isNewline = false ∧ p.head? = none ∧
      (p.kind = .container → ready = false) ∧
      AwaitsBody (ready || p.isOperator ",") args

theorem AwaitsBody.head? (h : AwaitsBody ready args) : ∀ p ∈ args, p.head? = none := by
  induction args generalizing ready with
  | nil => exact forall_mem_nil _
  | cons p args ih => exact forall_mem_cons.mpr ⟨h.2.1, ih h.2.2.2⟩

theorem awaitsBody_of_isArgument (hargs : ∀ p ∈ args, IsArgument p)
    (hready : (ready || args.any (·.isOperator ",")) = true) : AwaitsBody ready args := by
  induction args generalizing ready with
  | nil => simpa [AwaitsBody] using hready
  | cons p args ih =>
    obtain ⟨hp, hargs⟩ := forall_mem_cons.mp hargs
    refine ⟨hp.isNewline, hp.head?, fun hkind => absurd hkind hp.kind, ih hargs ?_⟩
    rwa [any_cons, ← Bool.or_assoc] at hready

section

variable (h : AwaitsBody ready args) (hkind : g.kind = .container)
include h hkind

theorem extent_args : extent ready (args ++ g :: rest) = (args.length + 1, true) := by
  induction args generalizing ready with
  | nil =>
    have hready : ready = true := h
    simp [extent, isNewline_eq_false (p := g) (by simp [hkind]), Piece.head?,
      isOperator_of_kind_ne (p := g) (by simp [hkind]), hkind, hready]
  | cons p args ih =>
    obtain ⟨hline, hhead, hgroup, h⟩ := h
    have hrest := ih h
    rw [cons_append, extent, hline, hhead]
    cases hcomma : p.isOperator "," with
    | true =>
      rw [hcomma, Bool.or_true] at hrest
      simp [hrest]
    | false =>
      rw [hcomma, Bool.or_false] at hrest
      have hbody : ¬(p.kind = .container ∧ ready = true) := fun h => by simp [hgroup h.1] at h
      simp [hrest, hbody]

/-- A directive that collects takes the arguments and the group, which is its body. -/
theorem mark_args (distance : Nat) :
    mark (some ⟨distance, ready⟩) (args ++ g :: rest) =
      numbered distance args ++ g.ownedAt (distance + args.length) :: mark none rest := by
  induction args generalizing ready distance with
  | nil =>
    have hline : g.isNewline = false := isNewline_eq_false (by simp [hkind])
    have hhead : g.head? = none := by simp [Piece.head?, hkind]
    have hready : ready = true := h
    have howned : owned (some ⟨distance, ready⟩) g = g.ownedAt distance := by
      simp [owned, hline, ownedAt]
    have hnext : gathering (some ⟨distance, ready⟩) g = none := by
      simp [gathering, hhead, Gathering.next, hline, hkind, hready,
        isOperator_of_kind_ne (p := g) (by simp [hkind])]
    rw [nil_append, mark, hnext, headed_of_head? ((alike_owned _ g).head?_eq.trans hhead), howned]
    rfl
  | cons p args ih =>
    obtain ⟨hline, hhead, hgroup, h⟩ := h
    have howned : owned (some ⟨distance, ready⟩) p = p.ownedAt distance := by
      simp [owned, hline, ownedAt]
    have hnext : gathering (some ⟨distance, ready⟩) p =
        some ⟨distance + 1, ready || p.isOperator ","⟩ := by
      have hbody : ¬(p.kind = .container ∧ ready = true) := fun h => by simp [hgroup h.1] at h
      cases hcomma : p.isOperator "," <;>
        simp [gathering, hhead, Gathering.next, hline, hcomma, hbody]
    rw [cons_append, mark, hnext, ih h, headed_of_head? ((alike_owned _ p).head?_eq.trans hhead),
      howned, Nat.add_assoc, Nat.add_comm 1]
    rfl

end

/-! ## Exclamation marks and brackets -/

theorem settle_of_not_mark (h : p.isOperator "!" = false)
    (rest : List Piece) : settle (p :: rest) = p :: settle rest := by
  have hjoined : joined p rest = false := by rw [joined, h, Bool.false_and]
  simp [settle_cons, settled, leftover, h, hjoined]

theorem settle_eq_self (h : ∀ p ∈ ps, p.isOperator "!" = false) : settle ps = ps := by
  induction ps with
  | nil => rfl
  | cons p rest ih =>
    obtain ⟨hp, hrest⟩ := forall_mem_cons.mp h
    rw [settle_of_not_mark hp, ih hrest]

/-- Two parts are settled apart if the second does not start with an equals sign. -/
theorem settle_append (h : qs.head?.any (·.isOperator "=") = false) :
    settle (ps ++ qs) = settle ps ++ settle qs := by
  fun_induction settle ps with
  | case1 => rfl
  | case2 p =>
    have hjoined : joined p qs = false := by rw [joined, h, Bool.and_false]
    simp [settle_cons, settled, leftover, hjoined]
  | case3 p q rest hop heq ih => simp [settle, hop, heq, ih]
  | case4 p q rest hop heq ih =>
    have hsettle : settle (q :: (rest ++ qs)) = settle (q :: rest) ++ settle qs := ih
    simp [settle, hop, heq, hsettle]
  | case5 p q rest hop ih =>
    have hsettle : settle (q :: (rest ++ qs)) = settle (q :: rest) ++ settle qs := ih
    simp [settle, hop, hsettle]

theorem settle_numbered (distance : Nat) (ps : List Piece) :
    settle (numbered distance ps) = numbered distance (settle ps) := by
  have hop (p : Piece) (distance : Nat) (text : Text) :
      (p.ownedAt distance).isOperator text = p.isOperator text := rfl
  have hcons (distance : Nat) (p : Piece) (rest : List Piece) :
      numbered distance (p :: rest) = p.ownedAt distance :: numbered (distance + 1) rest := rfl
  fun_induction settle ps generalizing distance with
  | case1 => rfl
  | case2 p =>
    rw [hcons, numbered, settle, hop]
    split <;> rfl
  | case3 p q rest hmark heq ih =>
    rw [hcons, hcons, settle, hop, hop, if_pos hmark, if_pos heq, ih]
    rfl
  | case4 p q rest hmark heq ih =>
    rw [hcons, hcons, settle, hop, hop, if_pos hmark, if_neg heq, ← hcons, ih]
    rfl
  | case5 p q rest hmark ih =>
    rw [hcons, hcons, settle, hop, if_neg hmark, ← hcons, ih]
    rfl

theorem parenthesized_ownedAt (distance : Nat) (p : Piece) :
    parenthesized (p.ownedAt distance) = (parenthesized p).ownedAt distance := by
  unfold parenthesized ownedAt
  split <;> rfl

theorem map_parenthesized_numbered (distance : Nat) (ps : List Piece) :
    (numbered distance ps).map parenthesized = numbered distance (ps.map parenthesized) := by
  induction ps generalizing distance with
  | nil => rfl
  | cons p ps ih => exact congrArg₂ List.cons (parenthesized_ownedAt distance p) (ih _)

theorem normalAfter_of_head? (h : ∀ p ∈ ps, p.head? = none) :
    normalAfter none ps = (settle ps).map parenthesized := by
  rw [normalAfter, mark_none h]

theorem normalAfter_eq_self (h : ∀ p ∈ ps, Inert p) : normalAfter none ps = ps := by
  rw [normalAfter_of_head? fun p hp => (h p hp).head?,
    settle_eq_self fun p hp => (h p hp).isOperator]
  exact (map_congr_left fun p hp => parenthesized_of_kind_ne (h p hp).kind).trans (List.map_id' _)

/-- Where no directive is, two parts have their own normal forms if the second does not start with
an equals sign. -/
theorem normalAfter_append_of_head? (h : ∀ p ∈ ps ++ qs, p.head? = none)
    (hqs : qs.head?.any (·.isOperator "=") = false) :
    normalAfter none (ps ++ qs) = normalAfter none ps ++ normalAfter none qs := by
  obtain ⟨hps, hqs'⟩ := forall_mem_append.mp h
  rw [normalAfter_of_head? h, settle_append hqs, map_append, normalAfter_of_head? hps,
    normalAfter_of_head? hqs']

/-- A directive with its arguments and its body. -/
theorem normalAfter_directive (hhead : p.head? = some head)
    (h : AwaitsBody (!head.bodyAfterComma) args) (hkind : g.kind = .container) (rest : List Piece) :
    normalAfter none (p :: args ++ g :: rest) =
      { p with parts := some (args.length + 1), body := true } ::
        numbered 0 (normalAfter none args) ++
          (parenthesized g).ownedAt args.length :: normalAfter none rest := by
  have hp : p.kind = .identifier := by
    by_contra hne
    rw [Piece.head?, if_neg hne] at hhead
    cases hhead
  have hheaded : headed p (args ++ g :: rest) =
      { p with parts := some (args.length + 1), body := true } := by
    simp only [headed, hhead, extent_args h hkind]
  have hgathering : gathering none p = some ⟨0, !head.bodyAfterComma⟩ := by
    simp only [gathering, hhead]
  have hgroup (text : Text) : (g.ownedAt args.length).isOperator text = false :=
    isOperator_of_kind_ne (by simp [ownedAt, hkind]) text
  rw [normalAfter, cons_append, mark, hgathering, mark_args h hkind, owned, hheaded,
    Nat.zero_add, settle_of_not_mark (isOperator_of_kind_ne (by simp [hp]) _),
    settle_append (by simp [hgroup]), settle_numbered, settle_of_not_mark (hgroup _), map_cons,
    map_append, map_cons, map_parenthesized_numbered, parenthesized_ownedAt,
    parenthesized_of_kind_ne (by simp [hp]), ← normalAfter_of_head? h.head?]
  rfl

/-! ## Rows -/

/-- Pieces with nothing inside. -/
def leaves (ps : List Piece) : List Item := ps.map (.node · [])

@[simp]
theorem leaves_cons (p : Piece) (ps : List Piece) : leaves (p :: ps) = .node p [] :: leaves ps :=
  rfl

theorem leaves_append (ps qs : List Piece) : leaves (ps ++ qs) = leaves ps ++ leaves qs :=
  map_append

@[simp]
theorem map_value_leaves (ps : List Piece) : (leaves ps).map value = ps := by
  rw [leaves, List.map_map]
  exact map_id ps

/-- The pieces around what is inside the items, which is put in normal form. -/
def filled (ps : List Piece) (xs : List Item) : List Item :=
  List.zipWith node ps (xs.map fun x => normal x.inside)

theorem filled_append (h : ps.length = xs.length) (qs : List Piece) (ys : List Item) :
    filled (ps ++ qs) (xs ++ ys) = filled ps xs ++ filled qs ys := by
  rw [filled, map_append, zipWith_append (by simpa using h)]
  rfl

theorem filled_leaves (h : qs.length = ps.length) : filled qs (leaves ps) = leaves qs := by
  induction qs generalizing ps with
  | nil => rfl
  | cons q qs ih =>
    cases ps with
    | nil => cases h
    | cons p ps =>
      have hfilled : filled (q :: qs) (leaves (p :: ps)) =
          .node q (normal []) :: filled qs (leaves ps) := rfl
      rw [hfilled, ih (Nat.succ.inj h), normal_nil, leaves_cons]

theorem normal_eq_filled (xs : List Item) :
    normal xs = filled (normalAfter none (xs.map value)) xs := by
  rw [normal]
  rfl

theorem map_value_filled (h : ps.length = xs.length) : (filled ps xs).map value = ps := by
  rw [filled, map_zipWith, ← map_uncurry_zip_eq_zipWith]
  exact map_fst_zip (by simp [h])

theorem normal_leaves (ps : List Piece) : normal (leaves ps) = leaves (normalAfter none ps) := by
  rw [normal_eq_filled, map_value_leaves, filled_leaves (by simp)]

theorem normal_cons (h : Inert p) (xs : List Item) :
    normal (.node p [] :: xs) = .node p [] :: normal xs := by
  rw [normal_eq_filled, map_cons, Nest.value_node, normalAfter_of_not_mark h.isOperator,
    gathering_none h.head?, owned, headed_of_head? h.head?, parenthesized_of_kind_ne h.kind,
    normal_eq_filled]
  exact congrArg (node p · :: _) normal_nil

theorem normal_append_of_head? (h : ∀ x ∈ xs ++ ys, x.value.head? = none)
    (hys : ys.head?.any (·.value.isOperator "=") = false) :
    normal (xs ++ ys) = normal xs ++ normal ys := by
  have hvalues : ∀ p ∈ (xs ++ ys).map value, p.head? = none := forall_mem_map.mpr h
  rw [map_append] at hvalues
  rw [normal_eq_filled, map_append,
    normalAfter_append_of_head? hvalues (by simpa [Option.any_map] using hys),
    filled_append (by simp), ← normal_eq_filled, ← normal_eq_filled]

/-- The arguments of a directive in normal form. -/
def ownedArguments (xs : List Item) : List Item :=
  filled (numbered 0 (normalAfter none (xs.map value))) xs

theorem map_value_ownedArguments (xs : List Item) :
    (ownedArguments xs).map value = numbered 0 (normalAfter none (xs.map value)) :=
  map_value_filled (by simp)

@[simp]
theorem length_ownedArguments (xs : List Item) : (ownedArguments xs).length = xs.length := by
  simpa using congrArg List.length (map_value_ownedArguments xs)

theorem ownedArguments_leaves (hargs : ∀ p ∈ args, IsArgument p) :
    ownedArguments (leaves args) = leaves (numbered 0 args) := by
  rw [ownedArguments, map_value_leaves, normalAfter_eq_self fun p hp => (hargs p hp).toInert,
    filled_leaves (by simp)]

theorem normal_directive (hhead : p.head? = some head)
    (h : AwaitsBody (!head.bodyAfterComma) (xs.map value)) (hkind : g.kind = .container)
    (inside : List Item) (rest : List Piece) :
    normal (.node p [] :: xs ++ .node g inside :: leaves rest) =
      .node { p with parts := some (xs.length + 1), body := true } [] :: ownedArguments xs ++
        .node ((parenthesized g).ownedAt xs.length) (normal inside) ::
          leaves (normalAfter none rest) := by
  have hvalues : (.node p [] :: xs ++ .node g inside :: leaves rest).map value =
      p :: xs.map value ++ g :: rest := by
    simp
  rw [normal_eq_filled, hvalues, normalAfter_directive hhead h hkind, length_map]
  refine (filled_append (by simp) ..).trans (congrArg₂ (· ++ ·) ?_ ?_)
  · exact congrArg (node _ · :: ownedArguments xs) normal_nil
  · exact congrArg (node _ _ :: ·) (filled_leaves (by simp))

/-! ## For the target -/

open Retarget (closingKeyword? quoteSingle conditional macroDefinition)

variable {keyword c : Text} {e : Piece} {x : Item}

theorem text_leaf (h : p.kind ≠ .container) : Item.text (.node p []) = p.text := by
  rw [Item.text, if_neg h]

theorem text_refill (hkind : p.kind = .container)
    (hopening : p.opening = []) (hclosing : p.closing = []) (hrole : p.role = .body (some keyword))
    (newline : Text) (inside : List Item) :
    Item.text (refill newline p inside) = newline ++ textOf inside ++ newline ++ keyword := by
  have hmade : ∀ {kind : Kind} (text : Text), kind ≠ .container →
      Item.text (Item.made kind text) = text := fun text hne => text_leaf (p := .made _ text) hne
  rw [refill, hrole, Item.text, if_pos hkind, hopening, hclosing]
  change [] ++ textOf _ ++ [] = _
  simp [hmade]

theorem textOf_body {before : List Piece} {k : Nat} {head : Piece} (hkind : g.kind = .container)
    (howner : g.owner = some k) (hbefore : before[k]? = some head) (hbody : head.body = true)
    (hparts : head.parts = some (k + 1)) (hclosing : closingKeyword? head.upper = some keyword)
    (he : e.kind = .whitespace) (newline opening : Text) (inside : List Item) :
    textOf ((retargetRow opening before [.node g inside, .node e []]).map
        (descend newline)) =
      newline ++ textOf (retarget newline [] inside) ++ newline ++ keyword ++ e.text := by
  have hrole : roleAfter before g = .body (some keyword) := by
    simp [roleAfter, howner, hbefore, hbody, hparts, hclosing]
  have hentered : entered before g =
      { g with opening := [], closing := [], role := .body (some keyword) } := by
    rw [entered, hrole]
  have hdescend : descend newline (enter before (.node g inside)) =
      refill newline (entered before g) (retarget newline (entered before g).opening inside) :=
    descend_enter (x := .node g inside) hkind newline before
  have hne : e.kind ≠ .container := by simp [he]
  rw [retargetRow_container (x := .node g inside) _ _ _ hkind,
    retargetRow_whitespace (x := .node e []) _ _ _ he, retargetRow, map_cons, map_cons,
    hdescend, descend_of_kind_ne (x := .node e []) hne, textOf_cons, textOf_cons,
    text_leaf hne, text_refill (by rw [hentered]; exact hkind) (by rw [hentered])
    (by rw [hentered]) (by rw [hentered]), hentered]
  simp

/-! ### Words that are directives -/

/-- The rule for a directive. -/
def directive (opening : Text) (before : List Piece) (x : Item) (ahead : List Item) :
    Head → Outcome
  | .ifNotZero => condition opening " <> " before x ahead
  | .ifZero => condition opening " = " before x ahead
  | .ifFirstPass => pass " 1 " x ahead
  | .ifSecondPass => pass " 2 " x ahead
  | .define => definition x ahead

theorem word_of_keyword (hkey : x.value.upper = head.keyword) (opening : Text)
    (before : List Piece) (ahead : List Item) :
    word opening before x ahead =
      if x.value.parts.isSome then directive opening before x ahead head
      else { self := x, ahead } := by
  have hkeys : head.keyword ≠ Keyword.repetition ∧ head.keyword ≠ Keyword.halfWords ∧
      Keyword.immediates.elem head.keyword = false ∧ head.keyword ≠ Keyword.message := by
    cases head <;> decide
  obtain ⟨h₁, h₂, h₃, h₄⟩ := hkeys
  simp only [word, hkey, Head.ofWord?_keyword]
  rw [if_neg h₁, if_neg h₂, h₃, if_neg h₄]
  cases x.value.parts <;> cases head <;> rfl

/-- The piece of a name. -/
abbrev nameOf (text : Text) : Piece := .made .identifier text

/-- The piece of a comma. -/
abbrev comma : Piece := .made .operator ","

/-- The piece of a blank. -/
abbrev blank : Piece := .made .whitespace " "

theorem isArgument_nameOf (hc : Head.ofWord? (upper c) = none) :
    IsArgument (nameOf c) where
  kind := nofun
  isNewline := isNewline_eq_false (p := nameOf c) nofun
  head? := hc
  isOperator := isOperator_of_kind_ne (p := nameOf c) nofun _

theorem isArgument_blank : IsArgument blank := ⟨inert_of_whitespace rfl, by decide⟩

theorem isArgument_comma : IsArgument comma := ⟨⟨nofun, by decide, by decide⟩, by decide⟩

theorem head?_nameOf (head : Head) : (nameOf head.keyword).head? = some head := by
  cases head <;> decide

/-- The arguments of a directive that is about the name `c`, or of one that needs no name. -/
def arguments (c : Text) : Head → List Piece
  | .ifZero | .ifNotZero => [blank, nameOf c, comma]
  | .ifFirstPass | .ifSecondPass => [comma]
  | .define => [blank, nameOf c]

/-- The line that a directive becomes. -/
def targetLine (c : Text) : Head → Text
  | .ifZero => ".IF " ++ c ++ " = 0"
  | .ifNotZero => ".IF " ++ c ++ " <> 0"
  | .ifFirstPass => ".IF 1 "
  | .ifSecondPass => ".IF 2 "
  | .define => ".MACRO " ++ c

/-- The line that closes what a directive becomes. -/
def closingLine : Head → Text
  | .define => ".ENDMACRO"
  | _ => ".ENDIF"

theorem closingKeyword?_opener (head : Head) :
    closingKeyword? (upper head.opener) = some (closingLine head) := by
  cases head <;> decide

section

variable (h : ∀ p ∈ ps, p.kind ≠ .container)
include h

theorem flatMap_text_leaves : textOf (leaves ps) = ps.flatMap text := by
  rw [textOf, leaves, flatMap_map]
  exact flatMap_congr fun p hp => text_leaf (h p hp)

theorem textOf_leaves (newline : Text) :
    textOf ((leaves ps).map (descend newline)) = ps.flatMap text := by
  rw [map_descend_of_kind_ne (by simpa [leaves] using h), flatMap_text_leaves h]

end

/-- The word means nothing to the rules for the target. -/
def Ordinary (c : Text) : Prop :=
  Head.ofWord? (upper c) = none ∧ upper c ≠ Keyword.repetition ∧
    upper c ≠ Keyword.halfWords ∧ Keyword.immediates.elem (upper c) = false ∧
    upper c ≠ Keyword.message
deriving Decidable

theorem word_of_ordinary (hc : Ordinary c) (hx : x.value.upper = upper c)
    (before : List Piece) (ahead : List Item) : word [] before x ahead = { self := x, ahead } := by
  obtain ⟨hhead, h₁, h₂, h₃, h₄⟩ := hc
  simp only [word, hx, hhead]
  rw [if_neg h₁, if_neg h₂, h₃, if_neg h₄]
  cases x.value.parts <;> rfl

/-- White space, or a word that means nothing: the walk goes over it. -/
def Steady (x : Item) : Prop :=
  x.value.kind = .whitespace ∨ x.value.kind = .identifier ∧ Ordinary x.value.text

theorem retargetRow_steady {xs : List Item} (h : ∀ x ∈ xs, Steady x) (before : List Piece)
    (tail : List Item) :
    retargetRow [] before (xs ++ tail) =
      xs ++ retargetRow [] ((xs.map value).reverse ++ before) tail := by
  induction xs generalizing before with
  | nil => rfl
  | cons x xs ih =>
    obtain ⟨hx, hxs⟩ := forall_mem_cons.mp h
    have hrest : x :: retargetRow [] (x.value :: before) (xs ++ tail) =
        x :: xs ++ retargetRow [] (((x :: xs).map value).reverse ++ before) tail := by
      rw [ih hxs]
      simp
    rw [cons_append]
    rcases hx with hkind | ⟨hkind, hordinary⟩
    · rw [retargetRow_whitespace _ _ _ hkind, hrest]
    · rw [retargetRow_word _ _ _ hkind,
        word_of_ordinary hordinary (Piece.upper_of_kind_ne (by simp [hkind]))]
      exact hrest

/-- A directive that has a body after so many arguments. -/
def marked (count : Nat) (head : Head) : Piece :=
  { nameOf head.keyword with parts := some (count + 1), body := true }

theorem word_marked (count : Nat) (head : Head) (ahead : List Item) :
    word [] [] (.node (marked count head) []) ahead =
      directive [] [] (.node (marked count head) []) ahead head := by
  have hkey : upper head.keyword = head.keyword := by cases head <;> decide
  exact word_of_keyword (x := .node (marked count head) []) hkey [] [] ahead

/-- When the walk comes to the body, it leaves the text `line` of a directive and its arguments, and
the directive is still known. -/
def Fronts (newline : Text) (args : List Item) (head : Head) (line : Text) : Prop :=
  ∀ tail, ∃ front before,
    retargetRow [] [] (.node (marked args.length head) [] :: args ++ tail) =
      front ++ retargetRow [] before tail ∧
    textOf (front.map (descend newline)) = line ∧
    before[args.length]? = some ((marked args.length head).setText (head.opener))

/-- A macro definition whose arguments become `ys`. -/
theorem fronts_define (hxs : header true xs = ys) (h : ∀ y ∈ ys, Steady y) (newline : Text) :
    Fronts newline xs .define (".MACRO" ++ textOf ys) := by
  intro tail
  have hlength : xs.length = ys.length := by
    rw [← hxs]
    exact (reworked_header true xs).length_eq
  have hdefinition : (definition (.node (marked xs.length .define) []) (xs ++ tail)).ahead =
      ys ++ tail := by
    have hleading : leading (marked xs.length .define) = xs.length := rfl
    rw [definition, Nest.value_node, hleading, take_left, drop_left]
    exact congrArg (· ++ tail) hxs
  have hkinds : ∀ y ∈ .node ((marked xs.length .define).setText macroDefinition) [] :: ys,
      y.value.kind ≠ .container := by
    refine forall_mem_cons.mpr ⟨by simp [marked], fun y hy => ?_⟩
    rcases h y hy with hkind | ⟨hkind, -⟩ <;> simp [hkind]
  refine ⟨.node ((marked xs.length .define).setText macroDefinition) [] :: ys,
    (ys.map value).reverse ++ [(marked xs.length .define).setText macroDefinition], ?_, ?_, ?_⟩
  · rw [cons_append, retargetRow_word _ _ _ rfl, word_marked]
    change node _ [] :: retargetRow [] _ (definition _ _).ahead = _
    rw [hdefinition, retargetRow_steady h]
    rfl
  · rw [map_descend_of_kind_ne hkinds, textOf_cons, text_leaf (by simp [marked])]
    rfl
  · rw [getElem?_append_right (by simp [hlength])]
    simp [hlength, Head.opener]

/-- A condition on the pass, whose one argument is a comma. -/
theorem fronts_pass {number : Text} (hword : head.opener = conditional)
    (hdirective : ∀ x ahead, directive [] [] x ahead head = pass number x ahead) (newline : Text) :
    Fronts newline (leaves [comma.ownedAt 0]) head (conditional ++ number) := by
  intro tail
  have hpass : pass number (.node (marked 1 head) []) (.node (comma.ownedAt 0) [] :: tail) =
      { self := .node ((marked 1 head).setText conditional) []
        ahead := .node ((comma.ownedAt 0).blanked.setText number) [] :: tail } := rfl
  refine ⟨leaves [(marked 1 head).setText conditional, (comma.ownedAt 0).blanked.setText number],
    [(comma.ownedAt 0).blanked.setText number, (marked 1 head).setText conditional], ?_, ?_, ?_⟩
  · change retargetRow [] [] (.node (marked 1 head) [] :: .node (comma.ownedAt 0) [] :: tail) = _
    rw [retargetRow_word _ _ _ rfl, word_marked, hdirective, hpass]
    change .node _ [] :: retargetRow [] [_] (.node _ [] :: tail) = _
    rw [retargetRow_whitespace (x := .node ((comma.ownedAt 0).blanked.setText number) []) _ _ _ rfl]
    rfl
  · rw [textOf_leaves (by simp [marked])]
    simp
  · rw [hword]
    rfl

/-- **The text of a directive with its body.** The body is retargeted as a row of its own. -/
theorem Fronts.textOf_directive {newline line : Text}
    (h : Fronts newline (ownedArguments xs) head line)
    (hargs : AwaitsBody (!head.bodyAfterComma) (xs.map value)) (hkind : g.kind = .container)
    (he : e.isNewline = true) (inside : List Item) :
    textOf (retarget newline [] (normal (.node (nameOf head.keyword) [] :: xs ++
        .node g inside :: leaves [e]))) =
      line ++ (newline ++ textOf (retarget newline [] (normal inside)) ++
        newline ++ closingLine head ++ e.text) := by
  have hend : e.kind = .whitespace := Piece.kind_of_isNewline he
  have hrest : normalAfter none [e] = [e] :=
    normalAfter_eq_self (forall_mem_singleton.mpr (inert_of_whitespace hend))
  have hclosing := closingKeyword?_opener head
  obtain ⟨front, before, hrow, htext, hbefore⟩ :=
    h (.node ((parenthesized g).ownedAt xs.length) (normal inside) :: leaves [e])
  rw [length_ownedArguments] at hrow hbefore
  rw [normal_directive (head?_nameOf head) hargs hkind, retarget_eq, hrest]
  change textOf ((retargetRow [] [] (.node (marked xs.length head) [] :: _ ++ _)).map _) = _
  rw [hrow, map_append, Item.textOf_append, htext]
  congr 1
  exact textOf_body (by simp [ownedAt, parenthesized, hkind]) rfl hbefore rfl rfl hclosing hend
    newline [] _

theorem isArgument_arguments (hc : Ordinary c) (head : Head) :
    ∀ p ∈ arguments c head, IsArgument p := by
  cases head <;> simp [arguments, isArgument_blank, isArgument_nameOf hc.1, isArgument_comma]

end Row

end Macro10
