import Macro10.Proofs.Literal
import Macro10.Proofs.Row.Conveyed
import Macro10.Proofs.Row.Respelling

/-!
# Messages told in another spelling

A message directive writes its statement into a string, which changes with the spelling of the
numerals in it. If the labels of a row ascend, and only early numerals are spelled in two ways
(`Respellable`), then only the strings of early messages differ. `Retold` says so of the walk along
a row, `Paired` of the row with all that is inside it.
-/

namespace Macro10.Row

open List

variable {ys xs : List Item} {p : Piece} {newline : Text}

open Nest (listing listing_cons values_eq)
open Item (blanked inside_respell made respell respell_made respell_node setText_respell text textOf
  text_eq value_respell value_respell_of_kind_ne)

variable {x : Item}

variable {σ : Option Nat → Option Text} {early told : Nat → Prop}

/-! ## Numerals with two spellings -/

/-- Both or none of the spellings of the numeral `p` is white space, and they are the same if `p` is
not early. -/
structure Spells (σ : Option Nat → Option Text) (early : Nat → Prop) (p : Piece) : Prop where
  spacing : Text.SameSpacing p.text ((σ p.label).getD p.text)
  same : ∀ l, p.label = some l → ¬early l → (σ p.label).getD p.text = p.text

/-- The labels ascend, only early numerals have two spellings, and early message directives may be
told in two ways. -/
structure Respellable (σ : Option Nat → Option Text) (early told : Nat → Prop)
    (xs : List Item) : Prop where
  labelled : ∀ p ∈ listing xs, p.label.isSome = true
  ascending : (labels xs).Pairwise (· < ·)
  numerals : ∀ p ∈ listing xs, p.kind = .number → Spells σ early p
  directives : ∀ p ∈ listing xs, p.kind = .identifier → p.upper = Keyword.message →
    ∀ l, p.label = some l → early l → told l

theorem respell_eq_of_spells (hnone : σ none = none)
    (h : p.kind = .number → Spells σ early p) (hlate : ∀ l, p.label = some l → ¬early l) :
    p.respell σ = p := by
  unfold Piece.respell
  split
  · next hkind =>
    have htext : (σ p.label).getD p.text = p.text := by
      cases hlabel : p.label with
      | none => rw [hnone]; rfl
      | some l =>
        simp only [Bool.and_eq_true, decide_eq_true_eq] at hkind
        rw [← hlabel]
        exact (h hkind.1).same l hlabel (hlate l hlabel)
    rw [htext]
    rfl
  · rfl

theorem item_respell_eq (h : ∀ p ∈ x.values, p.respell σ = p) : respell σ x = x := by
  induction x using Nest.induction with
  | node p cs ih =>
    rw [Nest.values_node] at h
    obtain ⟨hp, hcs⟩ := forall_mem_cons.mp h
    rw [respell_node, hp]
    refine congrArg _ ((map_congr_left fun c hc => ?_).trans (map_id cs))
    exact ih c hc fun q hq => hcs q (mem_flatMap.mpr ⟨c, hc, hq⟩)

theorem sameSpacing_textOf
    (h : ∀ x ∈ xs, Text.SameSpacing (text x) (text (respell σ x))) :
    Text.SameSpacing (textOf xs) (textOf (xs.map (respell σ))) := by
  induction xs with
  | nil => rfl
  | cons x xs ih =>
    obtain ⟨hx, hxs⟩ := forall_mem_cons.mp h
    rw [map_cons, Item.textOf_cons, Item.textOf_cons]
    exact hx.append (ih hxs)

/-- An item is white space in both spellings or in none. -/
theorem sameSpacing_text (h : ∀ p ∈ x.values, p.kind = .number → Spells σ early p) :
    Text.SameSpacing (text x) (text (respell σ x)) := by
  induction x using Nest.induction with
  | node p cs ih =>
    rw [Nest.values_node] at h
    obtain ⟨hp, hcs⟩ := forall_mem_cons.mp h
    rw [text_eq, text_eq, value_respell, Piece.kind_respell]
    split
    · have hinside := sameSpacing_textOf fun c hc =>
        ih c hc fun q hq => hcs q (mem_flatMap.mpr ⟨c, hc, hq⟩)
      rw [Piece.opening_respell, Piece.closing_respell, inside_respell]
      exact (Text.SameSpacing.append rfl hinside).append rfl
    · by_cases hkind : p.kind = .number
      · rw [Nest.value_node]
        unfold Piece.respell
        split
        · exact (hp hkind).spacing
        · rfl
      · rw [Nest.value_node, Piece.respell_of_kind_ne hkind]
        rfl

/-! ## Messages -/

theorem isGap_respell (x : Item) : isGap (respell σ x) = isGap x := by
  by_cases hkind : x.value.kind = .number
  · have hblank : x.value.isBlank = false := by
      simp [Piece.isBlank, Token.isBlank, Piece.token, hkind]
    simp [isGap, hblank]
  · rw [isGap, isGap, value_respell_of_kind_ne hkind]

theorem messageParts_respell (taken : List Item) (commented : Bool) :
    messageParts isGap (taken.map (respell σ)) commented =
      { separator := (messageParts isGap taken commented).separator.map (respell σ)
        content := (messageParts isGap taken commented).content.map (respell σ)
        trailing :=
          (messageParts isGap taken commented).trailing.map (respell σ) } := by
  have hgap : isGap ∘ respell σ = isGap := funext isGap_respell
  rw [messageParts_map, hgap]

theorem commented_respell (later : List Item) :
    (later.map (respell σ)).head?.any (·.value.kind = .comment) =
      later.head?.any (·.value.kind = .comment) := by
  simp [Option.any_map]

theorem map_respell_blanked (xs : List Item) :
    (xs.map blanked).map (respell σ) = xs.map blanked := by
  simp [Function.comp_def]

section Messages

variable {x : Item} {ahead : List Item}

theorem message_respell (hx : x.value.kind ≠ .number) :
    (message (respell σ x) (ahead.map (respell σ))).self =
        respell σ (message x ahead).self ∧
      (message (respell σ x) (ahead.map (respell σ))).taken = (message x ahead).taken ∧
      (message (respell σ x) (ahead.map (respell σ))).ahead =
        (message x ahead).ahead.map (respell σ) := by
  refine ⟨setText_respell hx _, ?_, ?_⟩
  · simp only [message, statement_respell, length_map]
  · simp only [message, statement_respell, length_map, ← map_drop, commented_respell,
      messageParts_respell]
    generalize messageParts isGap (statement ahead) _ = m
    simp [Function.comp_def, Option.toList_map]

/-- What a message shows is the same in both spellings but for the string, and the string differs
only if something in the statement does. -/
theorem shown_message_respell (hnone : σ none = none)
    (hsame : ∀ y ∈ statement ahead, Text.SameSpacing (text y) (text (respell σ y))) :
    (message (respell σ x) (ahead.map (respell σ))).shown =
        (message x ahead).shown.map (respell σ) ∨
      (∃ y ∈ statement ahead, respell σ y ≠ y) ∧
      ∃ front a b back, (message x ahead).shown = front ++ made .string a :: back ∧
        (message (respell σ x) (ahead.map (respell σ))).shown =
          front.map (respell σ) ++ made .string b :: back.map (respell σ) ∧
        ∀ y ∈ front, y.value.kind = .whitespace := by
  have hparted := parted_message ahead
  simp only [message, statement_respell, length_map, ← map_drop, commented_respell,
    messageParts_respell]
  generalize messageParts isGap (statement ahead) _ = m at hparted ⊢
  have hcontent := hparted.content
  have hblanks : (m.content.map (respell σ)).map blanked =
      m.content.map blanked := by simp [Function.comp_def]
  have hwords := (sameSpacing_textOf fun y hy => hsame y (hcontent y hy)).isEmpty_trim_eq
  rw [hblanks, hwords]
  split
  · -- nothing is said
    refine .inl ?_
    simp only [map_append, map_take, map_drop, map_respell_blanked, Option.toList_map]
  · by_cases hfixed : ∀ y ∈ statement ahead, respell σ y = y
    · refine .inl ?_
      have hsaid : m.content.map (respell σ) = m.content :=
        (map_congr_left fun y hy => hfixed y (hcontent y hy)).trans (map_id _)
      rw [hsaid]
      cases m.separator <;>
        simp [respell_made hnone, Option.toList_map, Function.comp_def]
    · have hfront : (m.separator.map (respell σ)).getD
            (made .whitespace [.char ' ']) :: m.content.map blanked =
          (m.separator.getD (made .whitespace [.char ' ']) ::
            m.content.map blanked).map (respell σ) := by
        rw [map_cons, map_respell_blanked]
        cases m.separator <;> simp [respell_made hnone]
      rw [hfront, Option.toList_map]
      refine .inr ⟨by simpa using hfixed, _, _, _, _, rfl, rfl, ?_⟩
      intro y hy
      rcases mem_cons.mp hy with rfl | hy
      · cases hseparator : m.separator with
        | none => rfl
        | some s => exact (hparted.gap s (by simp [hseparator])).2
      · obtain ⟨z, -, rfl⟩ := mem_map.mp hy
        rfl

end Messages

/-! ## What the walk leaves -/

/-- The row `ys` is `xs` in the other spelling, except that the strings of messages may differ whose
directive is told in two ways. -/
inductive Retold (σ : Option Nat → Option Text) (told : Nat → Prop) :
    List Item → List Item → Prop
  | nil : Retold σ told [] []
  | item (x : Item) {xs ys : List Item} (h : Retold σ told xs ys) :
      Retold σ told (x :: xs) (respell σ x :: ys)
  | message {k : Item} {l : Nat} {front xs ys : List Item} (a b : Text)
      (hkind : k.value.kind = .identifier) (htext : k.value.text = ".OUT")
      (hlabel : k.value.label = some l) (htold : told l)
      (hfront : ∀ y ∈ front, y.value.kind = .whitespace) (h : Retold σ told xs ys) :
      Retold σ told (k :: (front ++ made .string a :: xs))
        (respell σ k :: (front.map (respell σ) ++ made .string b :: ys))

theorem Retold.items (us : List Item) (h : Retold σ told xs ys) :
    Retold σ told (us ++ xs) (us.map (respell σ) ++ ys) := by
  induction us with
  | nil => exact h
  | cons u us ih => exact .item u ih

/-- The outcomes of a rule in the two spellings. -/
structure Outcome.Retold (σ : Option Nat → Option Text) (told : Nat → Prop)
    (r r' : Outcome) : Prop where
  self : r'.self = Item.respell σ r.self
  taken : r'.taken = r.taken
  ahead : r'.ahead = r.ahead.map (Item.respell σ)
  shown : ∀ {xs ys : List Item}, Row.Retold σ told xs ys →
    Row.Retold σ told (r.self :: r.shown ++ xs) (r'.self :: r'.shown ++ ys)

theorem Outcome.retold_respell (r : Outcome) : r.Retold σ told (r.respell σ) :=
  ⟨rfl, rfl, rfl, fun h => .items (r.self :: r.shown) h⟩

namespace Respellable

variable {y : Item}

variable {x : Item} {ahead : List Item}

theorem inside (h : Respellable σ early told xs) (hx : x ∈ xs) :
    Respellable σ early told x.inside := by
  have hsub : listing x.inside ⊆ listing xs :=
    (Nest.Within.inside hx .refl).listing_subset
  refine ⟨fun p hp => h.labelled p (hsub hp), ?_, fun p hp => h.numerals p (hsub hp),
    fun p hp => h.directives p (hsub hp)⟩
  obtain ⟨us, vs, rfl⟩ := append_of_mem hx
  refine h.ascending.sublist ?_
  rw [labels_append, labels_cons]
  exact (((sublist_append_right _ _).trans (sublist_append_left _ _))).trans
    (sublist_append_right _ _)

/-- What comes after a late item is late. -/
theorem respell_eq_of_late (h : Respellable σ early told (x :: ahead))
    (hnone : σ none = none) (hdown : ∀ {l m}, l < m → early m → early l) {l : Nat}
    (hl : x.value.label = some l) (hlate : ¬early l) (hy : y ∈ ahead) :
    respell σ y = y := by
  refine item_respell_eq fun p hp => ?_
  have hmem : p ∈ listing ahead := mem_flatMap.mpr ⟨y, hy, hp⟩
  refine respell_eq_of_spells hnone (h.numerals p ?_) fun m hm hearly => ?_
  · rw [listing_cons]
    exact mem_append_right _ hmem
  · have hascending := h.ascending
    rw [labels_cons, append_assoc, hl, Option.toList_some, singleton_append] at hascending
    have hlt : l < m := by
      refine (pairwise_cons.mp hascending).1 m (mem_append_right _ ?_)
      exact mem_filterMap.mpr ⟨p, hmem, hm⟩
    exact hlate (hdown hlt hearly)

theorem sameSpacing (h : Respellable σ early told (x :: ahead)) (hy : y ∈ ahead) :
    Text.SameSpacing (text y) (text (respell σ y)) := by
  refine sameSpacing_text fun p hp => h.numerals p ?_
  rw [listing_cons]
  exact mem_append_right _ (mem_flatMap.mpr ⟨y, hy, hp⟩)

end Respellable

section Words

variable {x : Item} {ahead : List Item} (h : Respellable σ early told (x :: ahead))
  (hnone : σ none = none) (hdown : ∀ {l m}, l < m → early m → early l)
  (hkind : x.value.kind = .identifier)
include h hnone hdown hkind

theorem retold_message (hmessage : x.value.upper = Keyword.message) :
    (message x ahead).Retold σ told (message (respell σ x) (ahead.map (respell σ))) := by
  have hne : x.value.kind ≠ .number := by simp [hkind]
  obtain ⟨hself, htaken, hahead⟩ := @message_respell σ x ahead hne
  refine ⟨hself, htaken, hahead, fun {xs ys} hrest => ?_⟩
  have htake : ∀ y ∈ statement ahead, y ∈ ahead := fun y hy =>
    (List.takeWhile_prefix _).subset hy
  have hmem : x.value ∈ listing (x :: ahead) := by
    rw [listing_cons]
    exact mem_append_left _ x.value_mem_values
  obtain ⟨l, hl⟩ := Option.isSome_iff_exists.mp (h.labelled x.value hmem)
  rw [hself]
  rcases shown_message_respell hnone fun y hy => h.sameSpacing (htake y hy) with
    hshown | ⟨⟨y, hy, hdiffers⟩, front, a, b, back, hshown, hshown', hfront⟩
  · rw [hshown]
    exact .items ((message x ahead).self :: (message x ahead).shown) hrest
  · -- the numeral that differs is early, so the directive before it is early too
    have hearly : early l := by
      by_contra hlate
      exact hdiffers (h.respell_eq_of_late hnone hdown hl hlate (htake y hy))
    rw [hshown, hshown']
    simp only [cons_append, append_assoc]
    exact .message a b hkind rfl hl (h.directives x.value hmem hkind hmessage l hl hearly) hfront
      (.items back hrest)

theorem retold_word (opening : Text) (before : List Piece) :
    (word opening before x ahead).Retold σ told
      (word opening (before.map (Piece.respell σ)) (respell σ x) (ahead.map (respell σ))) := by
  have hne : x.value.kind ≠ .number := by simp [hkind]
  by_cases hmessage : x.value.upper = Keyword.message
  · have hrespelled : (respell σ x).value.upper = Keyword.message := by
      rw [value_respell_of_kind_ne hne, hmessage]
    rw [word_message hmessage, word_message hrespelled]
    exact retold_message h hnone hdown hkind hmessage
  · rw [word_respell _ _ _ hnone hne hmessage]
    exact Outcome.retold_respell _

end Words

/-! ## The walk -/

section Left

theorem AgedRow.map_label_listing (h : AgedRow xs ys) :
    (listing ys).map Piece.label = (listing xs).map Piece.label := by
  induction h with
  | nil => rfl
  | @cons x y xs ys hx _ ih =>
    have hinside : Nest.inside y = Nest.inside x := hx.inside.symm
    rw [listing_cons, listing_cons, map_append, map_append, ih,
      values_eq, values_eq x, map_cons, map_cons, hx.label, hinside]

theorem AgedRow.labels_eq (h : AgedRow xs ys) : labels ys = labels xs := by
  have hfilter := congrArg (List.filterMap id) h.map_label_listing
  rwa [filterMap_map, filterMap_map] at hfilter

/-- A word of a row that has aged is a word of the row. -/
theorem AgedRow.exists_word (h : AgedRow xs ys) (hp : p ∈ listing ys)
    (hkind : p.kind = .identifier) :
    ∃ q ∈ listing xs, q.kind = .identifier ∧ q.upper = p.upper ∧ q.label = p.label := by
  obtain ⟨y, hy, hpy⟩ := mem_flatMap.mp hp
  obtain ⟨x, hx, hxy⟩ := exists_mem_of_forall₂ h hy
  rw [values_eq] at hpy
  rcases mem_cons.mp hpy with rfl | hpy
  · obtain ⟨hkind', hupper⟩ := hxy.upper_eq hkind
    exact ⟨x.value, mem_flatMap.mpr ⟨x, hx, x.value_mem_values⟩, hkind', hupper, hxy.label.symm⟩
  · refine ⟨p, mem_flatMap.mpr ⟨x, hx, ?_⟩, hkind, rfl, rfl⟩
    rw [values_eq, hxy.inside]
    exact mem_cons_of_mem _ hpy

/-- What the rules hand on holds of all pieces of the items that come from a row. -/
theorem Inherited.stems {P : Piece → Prop} (h : Inherited newline P)
    (hxs : ∀ p ∈ listing xs, P p) (hys : Stems xs ys) : ∀ p ∈ listing ys, P p := by
  intro p hp
  obtain ⟨y, hy, hpy⟩ := mem_flatMap.mp hp
  rw [values_eq] at hpy
  rcases mem_cons.mp hpy with rfl | hpy
  · refine h.arises (fun x hx => hxs _ ?_) (hys y hy)
    exact mem_flatMap.mpr ⟨x, hx, x.value_mem_values⟩
  have hmem : p ∈ listing (Nest.inside y) := hpy
  rcases (hys y hy).inside with hnil | ⟨x, hx, heq⟩
  · rw [hnil] at hmem
    cases hmem
  · rw [heq] at hmem
    exact hxs p ((Nest.Within.inside hx .refl).listing_subset hmem)

end Left

/-- What becomes of a numeral has the two spellings of the numeral. -/
theorem inherited_spells (hnone : σ none = none) (newline : Text) :
    Inherited newline fun p => p.kind = .number → Spells σ early p where
  turned := by
    intro x y hx hy hkind
    cases hy with
    | blanked => cases hkind
    | spaced hx' | respelled hx' | operator hx' | word hx' | immediate hx' =>
      cases hx'.symm.trans hkind
    | entered before =>
      obtain ⟨hspacing, hsame⟩ := hx ((kind_entered before x.value).symm.trans hkind)
      unfold enter entered
      split <;> exact ⟨hspacing, hsame⟩
    | braced =>
      unfold braced at hkind ⊢
      split at hkind
      · next hgroup =>
        simp only [Bool.and_eq_true, decide_eq_true_eq] at hgroup
        cases hgroup.1.1.symm.trans hkind
      · next hgroup =>
        rw [if_neg hgroup]
        exact hx hkind
  made := by
    intro kind text _ _
    refine ⟨?_, nofun⟩
    show Text.SameSpacing text ((σ none).getD text)
    rw [hnone]
    rfl
  message := fun _ hkind => by cases hkind
  newline := nofun
  closing := fun _ _ hkind => by cases hkind

theorem Respellable.left {ahead : List Item} (h : Respellable σ early told (x :: ahead))
    (hnone : σ none = none) {n : Nat} (haged : AgedRow (ahead.drop n) ys)
    (hstems : Stems (x :: ahead) ys) : Respellable σ early told ys := by
  have hsub : (listing (ahead.drop n)).Sublist (listing (x :: ahead)) := by
    conv_rhs => rw [← take_append_drop n ahead, ← cons_append, Nest.listing_append]
    exact sublist_append_right _ _
  refine ⟨fun p hp => ?_, ?_, (inherited_spells hnone []).stems h.numerals hstems,
    fun p hp hkind hmessage l hl => ?_⟩
  · have hmem := mem_map_of_mem (f := Piece.label) hp
    rw [haged.map_label_listing] at hmem
    obtain ⟨q, hq, heq⟩ := mem_map.mp hmem
    rw [← heq]
    exact h.labelled q (hsub.subset hq)
  · rw [haged.labels_eq]
    exact h.ascending.sublist (hsub.filterMap _)
  · obtain ⟨q, hq, hkind', hupper, hlabel⟩ := haged.exists_word hp hkind
    exact h.directives q (hsub.subset hq) hkind' (hupper.trans hmessage) l (hlabel.trans hl)

theorem isLiteral_respell (x : Item) : isLiteral (respell σ x) = isLiteral x := by
  simp [isLiteral]

/-- **What the walk along a row leaves in the other spelling** differs in the spelling only, but for
the strings of messages that are told in two ways. -/
theorem retold_retargetRow (hnone : σ none = none)
    (hdown : ∀ {l m}, l < m → early m → early l) (htame : Tame xs)
    (h : Respellable σ early told xs) (opening : Text) (before : List Piece) :
    Retold σ told (retargetRow opening before xs)
      (retargetRow opening (before.map (Piece.respell σ)) (xs.map (respell σ))) := by
  fun_induction retargetRow opening before xs with
  | case1 =>
    rw [map_nil, retargetRow]
    exact .nil
  | case2 before x ahead hkind r ih =>
    have hr := retold_word h hnone hdown hkind opening before
    have haged := (deals_word htame hkind opening before).agedRow_drop
    have hitems : Stems (x :: ahead) r.items := stems_word hkind opening before
    have hstems : Stems (x :: ahead) (r.ahead.drop r.taken) :=
      hitems.of_subset fun y hy => mem_append_right _ (drop_subset _ _ hy)
    rw [map_cons, retargetRow_word _ _ _ (by simpa using hkind)]
    dsimp only
    refine hr.shown ?_
    have hbefore : (((r.ahead.map (respell σ)).take r.taken).map Nest.value).reverse ++
          (respell σ r.self).value :: before.map (Piece.respell σ) =
        (((r.ahead.take r.taken).map Nest.value).reverse ++ r.self.value :: before).map
          (Piece.respell σ) := by
      simp [map_take, Function.comp_def]
    rw [hr.self, hr.taken, hr.ahead, hbefore, ← map_drop]
    exact ih (haged.tame (htame.tail.drop _)) (h.left hnone haged hstems)
  | case3 before x ahead hkind y ih =>
    have hafter := agedRow_after htame.tail.leafy x
    have hstems : Stems (x :: ahead) (after x ahead) :=
      (Stems.tail ahead).trans (reworked_after x ahead).stems
    have hkind' : (respell σ x).value.kind ≠ .identifier := by simpa using hkind
    rw [map_cons, retargetRow, if_neg hkind']
    dsimp only
    rw [isLiteral_respell, announcement_respell, written_respell, after_respell, value_respell,
      ← map_cons]
    have hrest := Retold.item y (ih (hafter.tame htame.tail)
      (h.left hnone (n := 0) (by rw [drop_zero]; exact hafter) hstems))
    split
    · have hannounced := Retold.items (announcement opening before) hrest
      rwa [map_respell_announcement _ _ hnone] at hannounced
    · exact hrest

/-! ## Rows inside rows -/

/-- The items `xs` and `ys`, with all that is inside them, differ in numerals and in the strings of
messages that are told in two ways. -/
inductive Paired (told : Nat → Prop) : List Item → List Item → Prop
  | nil : Paired told [] []
  | item {x y : Item} {xs ys : List Item} (hvalue : x.value.kind ≠ .number → y.value = x.value)
      (hinside : Paired told x.inside y.inside) (h : Paired told xs ys) :
      Paired told (x :: xs) (y :: ys)
  | message {k k' : Item} {l : Nat} {front front' xs ys : List Item} (a b : Text)
      (hkind : k.value.kind = .identifier) (htext : k.value.text = ".OUT")
      (hlabel : k.value.label = some l) (htold : told l)
      (hfront : ∀ y ∈ front, y.value.kind = .whitespace) (hvalue : k'.value = k.value)
      (hinside : Paired told k.inside k'.inside) (hblanks : Paired told front front')
      (h : Paired told xs ys) :
      Paired told (k :: (front ++ made .string a :: xs)) (k' :: (front' ++ made .string b :: ys))

namespace Paired

variable {us vs : List Item}

theorem append (h : Paired told xs ys) (h' : Paired told us vs) :
    Paired told (xs ++ us) (ys ++ vs) := by
  induction h with
  | nil => exact h'
  | item hvalue hinside _ _ ih => exact .item hvalue hinside ih
  | message a b hkind htext hlabel htold hfront hvalue hinside hblanks _ _ _ ih =>
    simp only [cons_append, append_assoc]
    exact .message a b hkind htext hlabel htold hfront hvalue hinside hblanks ih

theorem of_inside (h : ∀ x ∈ xs, Paired told x.inside (x.inside.map (respell σ))) :
    Paired told xs (xs.map (respell σ)) := by
  induction xs with
  | nil => exact .nil
  | cons x xs ih =>
    obtain ⟨hx, hxs⟩ := forall_mem_cons.mp h
    refine .item (fun hkind => ?_) ?_ (ih hxs)
    · exact value_respell_of_kind_ne hkind
    · rw [inside_respell]
      exact hx

theorem respell (σ : Option Nat → Option Text) (xs : List Item) :
    Paired told xs (xs.map (respell σ)) := by
  induction xs using Nest.inside_induction with
  | step xs ih => exact of_inside ih

theorem refill (h : Paired told xs ys) (newline : Text) (p : Piece) :
    Paired told (refill newline p xs).inside (Row.refill newline p ys).inside := by
  have hmade : ∀ (kind : Kind) (text : Text) {us vs : List Item}, Paired told us vs →
      Paired told (made kind text :: us) (made kind text :: vs) :=
    fun kind text _ _ h => .item (fun _ => rfl) .nil h
  unfold Row.refill
  split
  · exact h
  · next closing _ =>
    refine (hmade .whitespace newline h).append (hmade .whitespace newline ?_)
    cases closing with
    | none => exact .nil
    | some word => exact hmade .identifier word .nil

end Paired

section Descend

theorem paired_descend {x : Item}
    (h : ∀ opening, Paired told (retarget newline opening x.inside)
      (retarget newline opening (x.inside.map (respell σ)))) :
    Paired told (descend newline x).inside (descend newline (respell σ x)).inside := by
  by_cases hkind : x.value.kind = .container
  · have hvalue : (respell σ x).value = x.value :=
      value_respell_of_kind_ne (by simp [hkind])
    rw [descend, if_pos hkind, descend, hvalue, if_pos hkind, inside_respell]
    exact (h _).refill newline x.value
  · rw [descend_of_kind_ne hkind, descend_of_kind_ne (by simpa using hkind), inside_respell]
    exact .respell σ x.inside

theorem Retold.descend (h : Retold σ told xs ys)
    (hinside : ∀ x ∈ xs, ∀ opening, Paired told (retarget newline opening x.inside)
      (retarget newline opening (x.inside.map (respell σ)))) :
    Paired told (xs.map (Row.descend newline)) (ys.map (Row.descend newline)) := by
  induction h with
  | nil => exact .nil
  | item x _ ih =>
    obtain ⟨hx, hxs⟩ := forall_mem_cons.mp hinside
    refine .item (fun hkind => ?_) (paired_descend hx) (ih hxs)
    rw [value_descend] at hkind
    rw [value_descend, value_descend, value_respell_of_kind_ne hkind]
  | @message k l front xs ys a b hkind htext hlabel htold hfront _ ih =>
    have hne : k.value.kind ≠ .container := by simp [hkind]
    have hblank : ∀ y ∈ front, y.value.kind ≠ .container := by
      intro y hy
      rw [hfront y hy]
      decide
    have hblank' : ∀ y ∈ front.map (respell σ), y.value.kind ≠ .container := by
      intro y hy
      obtain ⟨z, hz, rfl⟩ := mem_map.mp hy
      simpa using hblank z hz
    have hstring : Kind.string ≠ .container := by decide
    simp only [map_cons, map_append, map_descend_of_kind_ne hblank,
      map_descend_of_kind_ne hblank', descend_made hstring, descend_of_kind_ne hne]
    rw [descend_of_kind_ne (by simpa using hne)]
    refine .message a b hkind htext hlabel htold hfront ?_ ?_ (.respell σ front)
      (ih fun x hx => hinside x (by simp [hx]))
    · exact value_respell_of_kind_ne (by simp [hkind])
    · rw [inside_respell]
      exact .respell σ k.inside

end Descend

/-- **A row in two spellings is retargeted in the same way**, but for the strings of messages that
are told in two ways. -/
theorem paired_retarget (hnone : σ none = none) (hdown : ∀ {l m}, l < m → early m → early l)
    (htame : Nest.Throughout Tame xs) (h : Respellable σ early told xs)
    (newline opening : Text) :
    Paired told (retarget newline opening xs) (retarget newline opening (xs.map (respell σ))) := by
  induction htame generalizing opening with
  | @intro xs row _ ih =>
    rw [retarget_eq, retarget_eq]
    refine (retold_retargetRow hnone hdown row h opening []).descend fun y hy opening' => ?_
    rcases (stems_retargetRow opening [] xs y hy).inside with hnil | ⟨x, hx, heq⟩
    · rw [hnil, map_nil, retarget_eq, retargetRow]
      exact .nil
    · rw [heq]
      exact ih x hx (h.inside hx) opening'

end Macro10.Row
