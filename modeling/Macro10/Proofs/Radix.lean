import Macro10.Proofs.Document.Matched
import Macro10.Proofs.Retargeted
import Macro10.Proofs.Source.Lockstep

/-!
# One source in two radixes

The radix that a conversion starts with matters for numerals only. Two conversions of one source
differ in the texts of numerals before the first line that sets the radix, and of messages there
(`converted_radixes`).

That the documents are alike follows from running the passes in lockstep. Which strings differ is
told by the rows, where the second run sees the row of the first in another spelling.
-/

namespace Macro10

open List
open Nest (list_map_map listing listing_map)

variable {P : Position → Prop} {f g : Forest} {cs cs' : List Cell} {v : Id × Piece} {p : Piece}
  {normal normal' : Document} {i : Id} {source : Text} {radix : Int} {w : List Visit}
  {positions : List Position} {t : Token}

/-! ## Normal forms -/

/-- The spelling in which all numerals are the same. -/
def noSpelling : Option Nat → Option Text := fun _ => some []

theorem Forest.Alike.items_eq (h : f.Alike P g) :
    g.items.map (Item.respell noSpelling) = f.items.map (Item.respell noSpelling) := by
  induction h with
  | nil => rfl
  | @leaf kind text text' position f g htext _ ih =>
    simp only [Forest.items, map_cons, ih, Item.respell_node]
    rcases htext with rfl | ⟨⟨rfl, -⟩, -⟩ <;> rfl
  | group _ _ ihinside ih =>
    simp only [Forest.items, map_cons, ih, Item.respell_node, ihinside]

/-- The spelling that the numerals have in the cells, which are labelled with their places. -/
def Cell.spelling (cs : List Cell) : Option Nat → Option Text
  | none => none
  | some l => (listing cs)[l]?.map (·.2.text)

theorem Cell.spelling_eq {n : Nat} (h : Cell.places cs = List.range n)
    (hv : v ∈ listing cs) : Cell.spelling cs (some v.1) = some v.2.text := by
  obtain ⟨i, hi, rfl⟩ := mem_iff_getElem.mp hv
  have hplace : (listing cs)[i].1 = i := by
    have heq := congrArg (fun ids => ids[i]?) h
    simp only [Cell.places, getElem?_map, getElem?_eq_getElem hi, Option.map_some] at heq
    obtain ⟨_, hrange⟩ := List.getElem?_eq_some_iff.mp heq.symm
    rw [getElem_range] at hrange
    exact hrange.symm
  rw [Cell.spelling, hplace, getElem?_eq_getElem hi]
  rfl

theorem Piece.respell_label {q : Piece} {spelling : Option Nat → Option Text} {l : Nat}
    (h : q.respell noSpelling = p.respell noSpelling)
    (hspelling : spelling (some l) = some q.text) :
    ({ p with label := some l } : Piece).respell spelling = { q with label := some l } := by
  have hkind : q.kind = p.kind := by simpa using congrArg Piece.kind h
  have hbody : q.body = p.body := by simpa using congrArg Piece.body h
  unfold Piece.respell at h ⊢
  rw [hkind, hbody] at h
  dsimp only
  split
  · next hnumber =>
    rw [if_pos hnumber, if_pos hnumber] at h
    obtain ⟨⟩ := p
    obtain ⟨⟩ := q
    simp_all [setText, noSpelling]
  · next hnumber =>
    rw [if_neg hnumber, if_neg hnumber] at h
    rw [h]

theorem Cell.items_labelled (cs : List Cell) : Cell.items (cs.map Cell.labelled) =
    cs.map (Nest.map fun v => { v.2 with label := some v.1 }) :=
  list_map_map _ _ cs

section Normal

variable {d e : Document}

/-- The normal forms of two forests that are alike differ in the spelling of numerals only. -/
theorem Normalized.items_respell (h : Normalized d f normal cs) (h' : Normalized e g normal' cs')
    (hfg : f.Alike P g) (hsize : normal'.tokens.size = normal.tokens.size) :
    Cell.items (cs'.map Cell.labelled) =
      (Cell.items (cs.map Cell.labelled)).map (Item.respell (Cell.spelling cs')) := by
  have hitems : (Cell.items cs').map (Item.respell noSpelling) =
      (Cell.items cs).map (Item.respell noSpelling) := by
    rw [h.items, h'.items, ← Row.normal_respell, ← Row.normal_respell, hfg.items_eq]
  have hform : cs'.map (Nest.map (Piece.respell noSpelling ∘ Prod.snd)) =
      cs.map (Nest.map (Piece.respell noSpelling ∘ Prod.snd)) := by
    rw [← list_map_map, ← list_map_map]
    exact hitems
  have hplaces : (listing cs').map Prod.fst = (listing cs).map Prod.fst := by
    have heq := h'.places
    rw [hsize, ← h.places] at heq
    exact heq
  have hpieces := congrArg listing hform
  rw [listing_map, listing_map] at hpieces
  rw [Cell.items_labelled, Cell.items_labelled]
  refine Eq.trans ?_ (list_map_map _ _ cs).symm
  refine Nest.map_eq_of_listing hform (ext_getElem ?_ fun i hi hi' => ?_)
  · simpa using congrArg List.length hplaces
  · rw [length_map] at hi hi'
    have hplace := congrArg (fun ids => ids[i]?) hplaces
    have hpiece := congrArg (fun ps => ps[i]?) hpieces
    simp only [getElem?_map, getElem?_eq_getElem hi, getElem?_eq_getElem hi',
      Option.map_some, Option.some.injEq, Function.comp_apply] at hplace hpiece
    rw [getElem_map, getElem_map, Function.comp_apply, ← hplace]
    exact (Piece.respell_label hpiece (Cell.spelling_eq h'.places (getElem_mem hi))).symm

end Normal

/-! ## Early tokens -/

/-- The token stands before the first line that sets the radix. -/
def Document.IsEarly (source : Text) (d : Document) (i : Id) : Prop :=
  ∃ t p, d.tokens[i]? = some t ∧ t.position = some p ∧ source.BeforeRadix p

/-- The token is a message directive before the first line that sets the radix. -/
def Document.IsEarlyMessage (source : Text) (d : Document) (i : Id) : Prop :=
  ∃ t p, d.tokens[i]? = some t ∧ t.kind = .identifier ∧ t.upper = Keyword.message ∧
    t.position = some p ∧ source.BeforeRadix p

section Early

variable {d e : Document}

theorem Record.isEarly_of_lt (h : Record source radix d f w positions) {j : Id} (hij : i < j)
    (hj : d.IsEarly source j) : d.IsEarly source i := by
  obtain ⟨u, q, hu, hq, hearly⟩ := hj
  have hlt : i < d.tokens.size := hij.trans (Document.lt_size_of_getElem? hu)
  have ht := Array.getElem?_eq_getElem hlt
  obtain ⟨p, hp⟩ := h.exists_position ht
  refine ⟨_, p, ht, hp, fun before content operand after hset => ?_⟩
  exact (hearly before content operand after hset).of_not_before (h.not_before ht hu hij hp hq)

/-- A token with two texts is early, unless it was made. -/
theorem Record.isEarly_of_varies (h : Record source radix d f w positions)
    (hevolves : d.Evolves false normal) (ht : normal.tokens[i]? = some t)
    (hkind : t.kind = .number) (hvaries : t.Varies source.HasBareRun) : d.IsEarly source i := by
  rcases hvaries with ⟨-, p, hp, hrun⟩ | ⟨hstring, -⟩
  · have hlt : i < d.tokens.size := by
      by_contra hge
      rw [hevolves.made (not_lt.mp hge) ht] at hp
      cases hp
    have hu := Array.getElem?_eq_getElem hlt
    obtain ⟨t', ht', htoken⟩ := hevolves.tokens hu
    cases ht'.symm.trans ht
    exact ⟨_, p, hu, htoken.position.symm.trans hp, h.beforeRadix hrun⟩
  · cases hkind.symm.trans hstring

theorem Normalized.spells (hrecord : Record source radix d f w positions)
    (h : Normalized d f normal cs) (h' : Normalized e g normal' cs')
    (hnormal : normal.Alike source.HasBareRun normal')
    (hv : v ∈ listing cs) (hkind : v.2.kind = .number) :
    Row.Spells (Cell.spelling cs') (d.IsEarly source) { v.2 with label := some v.1 } := by
  have hevolves := Edit.evolves_normalize h.edit
  obtain ⟨t, inside, ht, hshows⟩ := h.standing.exists_shows v hv
  -- the same place in the other normal form
  obtain ⟨v', hv', hplace⟩ : ∃ v' ∈ listing cs', v'.1 = v.1 := by
    have hmem : v.1 ∈ Cell.places cs' := by
      rw [h'.places, hnormal.size, ← h.places]
      exact mem_map_of_mem hv
    exact mem_map.mp hmem
  obtain ⟨t', inside', ht', hshows'⟩ := h'.standing.exists_shows v' hv'
  rw [hplace] at ht'
  have halike := hnormal.tokens ht ht'
  have hkind' : v'.2.kind = .number := by
    rw [← hshows'.kind, halike.kind, hshows.kind, hkind]
  have hspelling : Cell.spelling cs' (some v.1) = some v'.2.text := by
    rw [← hplace]
    exact Cell.spelling_eq h'.places hv'
  have hwords := hshows.words (by simp [hkind])
  have hwords' := hshows'.words (by simp [hkind'])
  rcases halike.text with htext | ⟨hvaries, hopens, hopens'⟩
  · have heq : v'.2.text = v.2.text := by
      rw [← hwords, ← hwords', Token.words, Token.words, htext]
    refine ⟨?_, fun l hl _ => ?_⟩ <;> simp only [hspelling, heq] <;> rfl
  · rw [hwords] at hopens
    rw [hwords'] at hopens'
    refine ⟨?_, fun l hl hlate => ?_⟩
    · simp only [hspelling]
      exact .of_opensLiteral hopens hopens'
    · cases hl
      exact absurd (hrecord.isEarly_of_varies hevolves ht (hshows.kind.trans hkind) hvaries) hlate

theorem Normalized.isEarlyMessage (h : Normalized d f normal cs) (hv : v ∈ listing cs)
    (hkind : v.2.kind = .identifier) (hmessage : v.2.upper = Keyword.message)
    (hearly : d.IsEarly source v.1) : d.IsEarlyMessage source v.1 := by
  obtain ⟨t, q, ht, hq, hbefore⟩ := hearly
  obtain ⟨p, hp, hsettles⟩ := h.exists_read hv
  obtain ⟨t', inside, ht', hshows⟩ := h.read.exists_shows _ hp
  obtain rfl := Option.some.inj (ht'.symm.trans ht)
  have hkind' : p.kind = .identifier := hsettles.of_kind_eq hkind (by decide)
  have htext : v.2.text = p.text := hsettles.text_eq (by simp [hkind'])
  refine ⟨t', q, ht', hshows.kind.trans hkind', ?_, hq, hbefore⟩
  rw [hshows.upper, ← hmessage]
  simp only [Piece.upper, Token.upper, Token.words, Piece.token, hkind, hkind', htext]

/-- The labels are places, and the places ascend in the order of the source. -/
theorem Normalized.respellable (hrecord : Record source radix d f w positions)
    (h : Normalized d f normal cs) (h' : Normalized e g normal' cs')
    (hnormal : normal.Alike source.HasBareRun normal') :
    Row.Respellable (Cell.spelling cs') (d.IsEarly source) (d.IsEarlyMessage source)
      (Cell.items (cs.map Cell.labelled)) := by
  have hlisting : ∀ p ∈ listing (Cell.items (cs.map Cell.labelled)),
      ∃ v ∈ listing cs, { v.2 with label := some v.1 } = p := by
    intro p hp
    rw [Cell.items_labelled, listing_map] at hp
    exact mem_map.mp hp
  refine ⟨fun p hp => ?_, ?_, fun p hp hkind => ?_, fun p hp hkind hmessage l hl hearly => ?_⟩
  · obtain ⟨v, -, rfl⟩ := hlisting p hp
    rfl
  · rw [Cell.labels_items_labelled, h.places]
    exact pairwise_lt_range
  · obtain ⟨v, hv, rfl⟩ := hlisting p hp
    exact h.spells hrecord h' hnormal hv hkind
  · obtain ⟨v, hv, rfl⟩ := hlisting p hp
    cases hl
    exact h.isEarlyMessage hv hkind hmessage hearly

end Early

/-! ## Conversions -/

/-- The token at `i` is the string of a message directive that stands before the first line that
sets the radix. It comes after the word, with white space between them; `original` is the document
as it was read. -/
def Document.TellsEarly (source : Text) (d original : Document) (i : Id) : Prop :=
  ∃ parent before k between after t, d.Scope parent (before ++ k :: (between ++ i :: after)) ∧
    d.tokens[k]? = some t ∧ t.kind = .identifier ∧ t.text = some (Text.ofString ".OUT") ∧
    (∀ j ∈ between, ∃ u, d.tokens[j]? = some u ∧ u.kind = .whitespace) ∧
    original.IsEarlyMessage source k

section Converted

variable {original original' target target' : Document}
  {out out' : List Cell}

theorem Retargeted.tellsEarly (h : Retargeted normal cs target out)
    (hi : Cell.Heralded (original.IsEarlyMessage source) out i) :
    target.TellsEarly source original i := by
  obtain ⟨before, front, after, k, c, l, hwithin, rfl, hkind, htext, hlabel, htold, hfront⟩ :=
    hi.exists_within
  have hk : k ∈ before ++ k :: (front ++ c :: after) := by simp
  obtain ⟨parent, t, hscope, ht, hshows⟩ := h.exists_token hwithin hk
  obtain rfl := h.id_eq_of_label hwithin hk hlabel
  refine ⟨parent, Cell.ids before, k.id, Cell.ids front, Cell.ids after, t, by simpa using hscope,
    ht, hshows.kind.trans hkind, ?_, fun j hj => ?_, htold⟩
  · rw [hshows.text, Piece.token, if_neg (by simp [hkind]), htext]
  · obtain ⟨b, hb, rfl⟩ := mem_map.mp hj
    obtain ⟨-, u, -, hu, hshows'⟩ := h.exists_token hwithin (c := b) (by simp [hb])
    exact ⟨u, hu, hshows'.kind.trans (hfront b hb)⟩

theorem Normalized.exists_position (hrecord : Record source radix original f w positions)
    (h : Normalized original f normal cs) (ht : normal.tokens[i]? = some t) :
    ∃ p, t.position = some p := by
  have hmem : i ∈ Cell.places cs := by
    rw [h.places]
    exact mem_range.mpr (Document.lt_size_of_getElem? ht)
  obtain ⟨v, hv, rfl⟩ := mem_map.mp hmem
  obtain ⟨p, hp, -⟩ := h.exists_read hv
  obtain ⟨u, -, hu, -⟩ := h.read.exists_shows _ hp
  obtain ⟨t', ht', hevolves⟩ := (Edit.evolves_normalize h.edit).tokens hu
  cases ht'.symm.trans ht
  rw [hevolves.position]
  exact hrecord.exists_position hu

theorem Retargeted.matched (hrecord : Record source radix original f w positions)
    (hnormal : Normalized original f normal cs) (hnormal' : Normalized original' g normal' cs')
    (hfg : f.Alike source.HasBareRun g) (hnormals : normal.Alike source.HasBareRun normal')
    (h : Retargeted normal cs target out) (h' : Retargeted normal' cs' target' out')
    (htargets : target.Alike source.HasBareRun target') (hi : i ∈ Cell.places out) :
    Cell.Matched (original.IsEarlyMessage source) out out' i := by
  have hpaired : Row.Paired (original.IsEarlyMessage source) (Cell.items out)
      (Cell.items out') := by
    rw [h.items, h'.items, hnormals.newline, hnormal.items_respell hnormal' hfg hnormals.size]
    exact Row.paired_retarget rfl hrecord.isEarly_of_lt h.tame
      (hnormal.respellable hrecord hnormal' hnormals) _ _
  have hids : Cell.ids out' = Cell.ids out := by rw [← h.outRoot, ← h'.outRoot, htargets.root]
  exact hpaired.matched (htargets.map_fst_eq h.outStanding h'.outStanding hids) hi

theorem Retargeted.text_eq (h : Retargeted normal cs target out) (hp : (i, p) ∈ listing out)
    (ht : target.tokens[i]? = some t) : t.kind = p.kind ∧ t.text = p.token.text := by
  obtain ⟨u, _, hu, hshows⟩ := h.outStanding.exists_shows _ hp
  cases hu.symm.trans ht
  exact ⟨hshows.kind, hshows.text⟩

end Converted

/-- What the radix of a conversion can change: `d` and `e` are converted from `source` in two
radixes, and `original` is the document that was read for `d`. -/
structure Document.RadixApart (source : Text) (d original e : Document) : Prop where
  size : e.tokens.size = d.tokens.size
  root : e.root = d.root
  newline : e.newline = d.newline
  lasting : e.lasting = d.lasting
  others : ∀ {i : Id} {t u : Token}, d.tokens[i]? = some t → e.tokens[i]? = some u →
    u = { t with text := u.text }
  texts : ∀ {i : Id} {t u : Token}, d.tokens[i]? = some t → e.tokens[i]? = some u →
    u.text = t.text ∨
      t.kind = .number ∧ (∃ p, t.position = some p ∧ source.HasBareRun p) ∨
      t.kind = .string ∧ t.position = none ∧ d.TellsEarly source original i

/-- **A source converted in two radixes.** The documents differ in the texts of digit strings
without a point and of messages, both before the first line that sets the radix, and in nothing else
but the warnings about digit strings. -/
theorem converted_radixes {source : Text} {radix radix' : Int} {d e : Document}
    (hd : convertDocument source radix = .ok d) (he : convertDocument source radix' = .ok e) :
    ∃ original, read source radix = .ok original ∧ d.RadixApart source original e := by
  rw [convertDocument, bind_eq_ok] at hd he
  obtain ⟨original, hread, hd⟩ := hd
  obtain ⟨original', hread', he⟩ := he
  obtain ⟨f, w, positions, g, w', positions', hrecord, hrecord', hfg, halike⟩ :=
    exists_alike_records hread hread'
  obtain ⟨normal, cs, hnormal⟩ := hrecord.exists_normalized hread
  obtain ⟨normal', cs', hnormal'⟩ := hrecord'.exists_normalized hread'
  obtain ⟨target, out, htarget, hout⟩ := hnormal.exists_retargeted
  obtain ⟨target', out', htarget', hout'⟩ := hnormal'.exists_retargeted
  rw [hnormal.converted_eq, htarget] at hd
  rw [hnormal'.converted_eq, htarget'] at he
  cases hd
  cases he
  obtain ⟨-, hnormals⟩ := Edit.evolves_alike (fun _ hc => Edit.Course.steady_normalize hc) halike
    hnormal.edit hnormal'.edit
  obtain ⟨-, htargets⟩ := Edit.evolves_alike (fun _ hc => Retarget.steady_retarget hc) hnormals
    htarget htarget'
  refine ⟨original, hread, htargets.size, htargets.root, htargets.newline, htargets.lasting,
    fun ht hu => (htargets.tokens ht hu).others, ?_⟩
  intro i t u ht hu
  rcases (htargets.tokens ht hu).text with htext | ⟨hnumber | ⟨hstring, hposition⟩, -⟩
  · exact .inl htext
  · exact .inr (.inl hnumber)
  -- a string that was made is among the cells of the target
  have hmem : i ∈ Cell.places out := by
    refine hout.houses i (not_lt.mp fun hlt => ?_) (Document.lt_size_of_getElem? ht)
    have hv := Array.getElem?_eq_getElem hlt
    obtain ⟨p, hp⟩ := hnormal.exists_position hrecord hv
    obtain ⟨t', ht', hevolves⟩ := hout.evolves.tokens hv
    cases ht'.symm.trans ht
    rw [hevolves.position, hp] at hposition
    cases hposition
  rcases hout.matched hrecord hnormal hnormal' hfg hnormals hout' htargets hmem with
    ⟨p, p', hp, hp', heq⟩ | hheralded
  · obtain ⟨hkind, htext⟩ := hout.text_eq hp ht
    rw [heq (by rw [← hkind, hstring]; decide)] at hp'
    exact .inl (by rw [(hout'.text_eq hp' hu).2, htext])
  · exact .inr (.inr ⟨hstring, hposition, hout.tellsEarly hheralded⟩)

/-- Only the numeral and the message before the line that sets the radix differ. -/
theorem converted_radixes_message :
    ∃ d e original,
      convertDocument "A=20\nPRINTX 20\nRADIX 10\nPRINTX 20\n" 8 = .ok d ∧
      convertDocument "A=20\nPRINTX 20\nRADIX 10\nPRINTX 20\n" 16 = .ok e ∧
      ((List.range d.tokens.size).filter fun i =>
        (d.tokens[i]?.map Token.text) ≠ (e.tokens[i]?.map Token.text)) = [2, 14] ∧
      d.RadixApart "A=20\nPRINTX 20\nRADIX 10\nPRINTX 20\n" original e := by
  obtain ⟨d, hd, hany⟩ := exists_eq_ok_of_any
    (x := convertDocument "A=20\nPRINTX 20\nRADIX 10\nPRINTX 20\n" 8)
    (p := fun d => (convertDocument
        "A=20\nPRINTX 20\nRADIX 10\nPRINTX 20\n" 16).toOption.any fun e =>
      ((List.range d.tokens.size).filter fun i =>
        (d.tokens[i]?.map Token.text) ≠ (e.tokens[i]?.map Token.text)) = [2, 14])
    (by decide +kernel)
  obtain ⟨e, he, hdiffer⟩ := exists_eq_ok_of_any hany
  obtain ⟨original, -, hapart⟩ := converted_radixes hd he
  exact ⟨d, e, original, hd, he, of_decide_eq_true hdiffer, hapart⟩

end Macro10
