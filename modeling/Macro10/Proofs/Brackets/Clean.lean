import Macro10.Proofs.Brackets.Loose
import Macro10.Proofs.Document.Walk
import Macro10.Proofs.Settled

/-!
# Brackets in the target

The brackets of the source become parentheses, braces or nothing, and no rule writes any. So a
bracket that is left in the code of the target is a loose bracket of the source, where it stood
(`converted_brackets`).
-/

namespace Macro10

open List
open Token (isLoose)

variable {p : Piece} {text : Text} {kind : Kind}

variable {t : Text} {w : List Visit} {positions : List Position} {d : Document}

/-- The text has no brackets. -/
def Text.Bracketless (t : Text) : Prop := ∀ s ∈ t, s.isBracket = false

instance (t : Text) : Decidable t.Bracketless :=
  inferInstanceAs (Decidable (∀ s ∈ t, s.isBracket = false))

theorem Text.bracketless_nil : Text.Bracketless [] := fun _ hs => nomatch hs

theorem Text.Bracketless.of_subset {u : Text} (h : t.Bracketless) (hs : u ⊆ t) :
    u.Bracketless := fun s hu => h s (hs hu)

theorem Text.bracketless_of_isPlain (h : ∀ s ∈ t, Segment.isPlain s = true) : t.Bracketless := by
  intro s hs
  obtain ⟨-, -, hopening, hclosing⟩ := Segment.isPlain_iff.mp (h s hs)
  simp [Symbol.isBracket, hopening, hclosing]

namespace Row

/-! ## Pieces of the target -/

/-- The piece shows brackets in a comment or a string, in a comparison, or where `loose` allows it
for its label and text. -/
structure Clean (loose : Nat → Text → Prop) (p : Piece) : Prop where
  opening : p.opening.Bracketless
  closing : p.closing.Bracketless
  role : ∀ word, p.role = .body (some word) → word.Bracketless
  text : p.text.Bracketless ∨ p.kind = .comment ∨ p.kind = .string ∨
    p.kind = .operator ∧ (p.text = "<>" ∨ p.text = " <> " ∨ ∃ l, p.label = some l ∧ loose l p.text)

variable {loose : Nat → Text → Prop}

theorem Clean.setText (h : Clean loose p) (htext : text.Bracketless) :
    Clean loose (p.setText text) :=
  ⟨h.opening, h.closing, h.role, .inl htext⟩

theorem Clean.entered (h : Clean loose p) (before : List Piece) :
    Clean loose (entered before p) := by
  unfold Row.entered
  split
  · exact ⟨h.opening, h.closing, nofun, h.text⟩
  · next closing hrole =>
    refine ⟨Text.bracketless_nil, Text.bracketless_nil, fun word hword => ?_, h.text⟩
    obtain rfl := Role.body.inj hword
    exact (by decide : ∀ t ∈ closingTexts, t.Bracketless) _ (mem_closingTexts_of_roleAfter hrole)

theorem Clean.turned {x y : Item} (h : Clean loose x.value) (hy : Turns x y) :
    Clean loose y.value := by
  cases hy with
  | blanked => exact ⟨Text.bracketless_nil, Text.bracketless_nil, h.role, .inl Text.bracketless_nil⟩
  | spaced hkind htext =>
    exact h.setText ((by decide : ∀ t ∈ blankTexts, t.Bracketless) _ htext)
  | respelled hkind => exact ⟨h.opening, h.closing, h.role, .inr (.inr (.inl hkind))⟩
  | @operator text hkind htext =>
    have hcases : ∀ t ∈ operatorTexts, t.Bracketless ∨ t = "<>" := by decide
    rcases hcases text htext with hfree | rfl
    · exact h.setText hfree
    · exact ⟨h.opening, h.closing, h.role, .inr (.inr (.inr ⟨hkind, .inl rfl⟩))⟩
  | word hkind htext => exact h.setText ((by decide : ∀ t ∈ wordTexts, t.Bracketless) _ htext)
  | immediate hkind =>
    -- A word has no brackets, so it has none without its last letter.
    refine h.setText ?_
    rcases h.text with hfree | hcomment | hstring | ⟨hoperator, -⟩
    · exact hfree.of_subset (dropLast_subset _)
    · rw [hkind] at hcomment
      cases hcomment
    · rw [hkind] at hstring
      cases hstring
    · rw [hkind] at hoperator
      cases hoperator
  | entered before => exact h.entered before
  | braced =>
    unfold braced
    split
    · have hopening : Text.Bracketless [.char '{'] := by decide
      have hclosing : Text.Bracketless [.char '}'] := by decide
      exact ⟨hopening, hclosing, h.role, h.text⟩
    · exact h

theorem clean_made (h : text.Bracketless) : Clean loose (.made kind text) :=
  ⟨Text.bracketless_nil, Text.bracketless_nil, nofun, .inl h⟩

theorem inherited_clean {newline : Text} (hnewline : newline.Bracketless) :
    Inherited newline (Clean loose) where
  turned := Clean.turned
  made := by
    intro kind text hmade
    have hcases : ∀ m ∈ madePieces, m.2.Bracketless ∨ m = (.operator, (" <> " : Text)) := by
      decide
    rcases hcases _ hmade with hfree | heq
    · exact clean_made hfree
    · obtain ⟨rfl, rfl⟩ := Prod.mk.inj heq
      exact ⟨Text.bracketless_nil, Text.bracketless_nil, nofun,
        .inr (.inr (.inr ⟨rfl, .inr (.inl rfl)⟩))⟩
  message := fun _ => ⟨Text.bracketless_nil, Text.bracketless_nil, nofun, .inr (.inr (.inl rfl))⟩
  newline := clean_made hnewline
  closing := fun hp hrole => clean_made (hp.role _ hrole)

/-! ## Pieces of the source -/

/-- How a piece looks that was read. -/
structure Raw (p : Piece) : Prop where
  role : p.role = .inline
  brackets : p.kind ≠ .container → p.opening = [] ∧ p.closing = []
  text : p.text.Bracketless ∨ p.kind = .comment ∨ p.kind = .string ∨
    p.kind = .operator ∧ (p.text = "<" ∨ p.text = ">")

/-- The normal form of a piece shows brackets only where the piece is a loose bracket. -/
theorem Raw.clean {q : Piece} (h : Raw p) (hq : Settles p q)
    (hloose : q.kind = .operator → p.kind = .operator → q.text = p.text →
      (q.text = "<" ∨ q.text = ">") →
      ∃ l, q.label = some l ∧ loose l q.text) : Clean loose q := by
  refine ⟨?_, ?_, ?_, ?_⟩
  · by_cases hgroup : p.kind = .container
    · rw [(hq.brackets hgroup).1]
      split <;> decide
    · rcases hq.opening hgroup with heq | heq
      · rw [heq, (h.brackets hgroup).1]
        decide
      · rw [heq]
        decide
  · by_cases hgroup : p.kind = .container
    · rw [(hq.brackets hgroup).2]
      split <;> decide
    · rcases hq.closing hgroup with heq | heq
      · rw [heq, (h.brackets hgroup).2]
        decide
      · rw [heq]
        decide
  · rw [hq.role, h.role]
    nofun
  · rcases hq.text with heq | ⟨-, htext⟩
    · rcases h.text with hfree | hcomment | hstring | ⟨hoperator, htext⟩
      · rw [heq]
        exact .inl hfree
      · exact .inr (.inl ((hq.kind_eq (by simp [hcomment])).trans hcomment))
      · exact .inr (.inr (.inl ((hq.kind_eq (by simp [hstring])).trans hstring)))
      · rcases hq.kind with hkind | ⟨-, -, hempty⟩
        · have hqkind : q.kind = .operator := hkind.trans hoperator
          exact .inr (.inr (.inr ⟨hqkind, .inr (.inr (hloose hqkind hoperator heq
            (by rw [heq]; exact htext)))⟩))
        · rw [hempty]
          exact .inl (by decide)
    · exact .inl ((by decide : ∀ t ∈ ["!=", "|", ""].map Text.ofString, t.Bracketless) _ htext)

end Row

/-! ## Tokens of a source -/

/-- What is read from a visit shows brackets only in comments and strings, or is a bracket. -/
theorem Visit.Reads.raw {v : Visit} {mark : Bool}
    (h : v.Reads mark kind text) (hproper : v.stretch.Proper) : Row.Raw { kind, text } := by
  refine ⟨rfl, fun _ => ⟨rfl, rfl⟩, ?_⟩
  have hnumeral {t : Text} (ht : ∀ s ∈ t, Numeral.isNumeralSymbol s = true) : t.Bracketless :=
    Text.bracketless_of_isPlain fun s hs => Segment.isPlain_of (by decide) (ht s hs)
  have hname {t : Text} (ht : ∃ s rest, t = s :: rest ∧ s.isLetter = true ∧
      ∀ u ∈ rest, u.isNameSymbol = true) : t.Bracketless := by
    obtain ⟨s, rest, rfl, hs, hrest⟩ := ht
    exact Text.bracketless_of_isPlain (forall_mem_cons.mpr
      ⟨Segment.isPlain_of (by decide) hs, fun u hu => Segment.isPlain_of (by decide) (hrest u hu)⟩)
  have hshows := h.shows
  generalize v.stretch = s at hshows hproper
  cases hshows with
  | lexeme l =>
    cases l with
    | comment => exact .inr (.inl rfl)
    | string => exact .inr (.inr (.inl rfl))
    | blank blank =>
      exact .inl (Text.bracketless_of_isPlain fun s hs =>
        Segment.isPlain_of (by decide) (hproper.2 s hs))
    | operator operator =>
      rcases hproper with rfl | ⟨s, rfl⟩
      · exact .inl (by decide)
      · by_cases hbracket : s.isBracket = true
        · refine .inr (.inr (.inr ⟨rfl, ?_⟩))
          simpa [Lexeme.text, Symbol.isBracket, Text.ofString] using hbracket
        · exact .inl (forall_mem_singleton.mpr (Bool.not_eq_true _ ▸ hbracket))
    | digits => exact .inl (hnumeral (Numeral.IsRun.isNumeralSymbol hproper))
    | name => exact .inl (hname hproper)
  | numeral hjudge => exact .inl (hnumeral (Numeral.IsRun.of_judgeNumber hproper hjudge).2)
  | terminator t => exact .inl (by cases t <;> decide)
  | remark | setRadix => exact .inr (.inl rfl)

theorem Forest.Spells.raw
    (h : Forest.Spells w positions p) (hproper : ∀ v ∈ w, v.stretch.Proper) : Row.Raw p := by
  cases h with
  | leaf hv h => exact h.raw (hproper _ hv)
  | mark => exact ⟨rfl, fun _ => ⟨rfl, rfl⟩, .inl Text.bracketless_nil⟩
  | numeral h =>
    refine ⟨rfl, fun _ => ⟨rfl, rfl⟩, .inl (Text.bracketless_of_isPlain fun s hs => ?_)⟩
    exact Segment.isPlain_of (by decide) (h s hs)
  | group => exact ⟨rfl, fun hne => absurd rfl hne, .inl Text.bracketless_nil⟩

/-! ## Tokens of the target -/

/-- The token at `i` shows brackets in a comment or a string, in a comparison, or because it is a
loose bracket that `d` has there. -/
structure Token.Unbracketed (t : Token) (d : Document) (i : Id) : Prop where
  opening : t.opening.Bracketless
  closing : t.closing.Bracketless
  text : ∀ text, t.text = some text → text.Bracketless ∨ t.kind = .comment ∨ t.kind = .string ∨
    t.kind = .operator ∧ (text = "<>" ∨ text = " <> " ∨
      t.isLoose = true ∧ ∃ u, d.tokens[i]? = some u ∧ u.isLoose = true ∧ u.text = t.text)

/-- There is a loose bracket with the given text at the place. -/
def Document.LooseAt (d : Document) (i : Id) (text : Text) : Prop :=
  ∃ u, d.tokens[i]? = some u ∧ u.isLoose = true ∧ u.text = some text

theorem Row.Clean.unbracketed (h : Row.Clean d.LooseAt p) {t : Token}
    {children : List Id} (hshows : t.Shows p children) {i : Id}
    (hlabel : ∀ l, p.label = some l → l = i) : t.Unbracketed d i := by
  refine ⟨hshows.opening ▸ h.opening, hshows.closing ▸ h.closing, fun text htext => ?_⟩
  rw [hshows.kind]
  have hsame : p.kind ≠ .container → p.text = text := by
    intro hne
    rw [hshows.text, Piece.token, if_neg hne] at htext
    exact Option.some.inj htext
  by_cases hgroup : p.kind = .container
  · rw [hshows.text, Piece.token, if_pos hgroup] at htext
    cases htext
  obtain rfl := hsame hgroup
  rcases h.text with hfree | hcomment | hstring | ⟨hoperator, htexts⟩
  · exact .inl hfree
  · exact .inr (.inl hcomment)
  · exact .inr (.inr (.inl hstring))
  · refine .inr (.inr (.inr ⟨hoperator, ?_⟩))
    rcases htexts with hcompare | hspaced | ⟨l, hl, u, hu, hloose, hutext⟩
    · exact .inl hcompare
    · exact .inr (.inl hspaced)
    · obtain rfl := hlabel l hl
      refine .inr (.inr ⟨?_, u, hu, hloose, hutext.trans htext.symm⟩)
      rw [isLoose, hutext, Bool.and_eq_true] at hloose
      rw [isLoose, htext, hshows.kind, hoperator, hloose.2]
      rfl

/-- The pieces of a normal form show brackets only where the source has loose ones. -/
theorem Normalized.clean {source : Text} {radix : Int} {normal : Document} {f : Forest}
    {cs : List Cell} (h : Normalized d f normal cs)
    (hrecord : Record source radix d f w positions) :
    ∀ p ∈ Nest.listing (Cell.items (cs.map Cell.labelled)), Row.Clean d.LooseAt p := by
  intro q hq
  obtain ⟨l, p, hlabel, hplace, hp, hsettles⟩ := h.exists_settled hq
  have hraw : Row.Raw p := (hrecord.spelled.spells p hp).raw fun u hu =>
    Text.proper_of_mem_stretches (hrecord.stretches ▸ mem_map_of_mem hu)
  refine hraw.clean hsettles fun _ hkind htext hbracket => ⟨l, hlabel, ?_⟩
  -- The operator stood at the same place with the same text when it was read.
  obtain ⟨t, children, ht, hshows⟩ := h.read.exists_shows _ hplace
  have htoken : t.text = some q.text := by
    rw [hshows.text, Piece.token, if_neg (by simp [hkind])]
    exact congrArg some htext.symm
  refine ⟨t, ht, ?_, htoken⟩
  rw [isLoose, htoken, hshows.kind, hkind]
  simpa using hbracket

/-- **Brackets in the target.** A document that was read has loose brackets if and only if a line of
its source leaks. In the target, brackets are met in comments and strings, in comparisons, and where
there was a loose bracket. -/
theorem converted_brackets {source : Text} {radix : Int} {d : Document}
    (h : read source radix = .ok d) :
    (d.tokens.any isLoose = true ↔ source.Leaks) ∧
      ∃ target parts, d.converted = .ok target ∧ target.Walk target.root parts ∧
        ∀ i, Part.token i ∈ parts → ∃ t, target.tokens[i]? = some t ∧ t.Unbracketed d i := by
  obtain ⟨f, w, positions, hrecord⟩ := exists_record h
  obtain ⟨normal, cs, hnormal⟩ := hrecord.exists_normalized h
  obtain ⟨target, out, htarget, hout⟩ := hnormal.exists_retargeted
  refine ⟨hrecord.any_isLoose, target, Cell.parts out, hnormal.converted_eq.trans htarget,
    hout.outRoot ▸ hout.outStanding.walk, fun i hi => ?_⟩
  have hplace : i ∈ Cell.places out := by
    rw [← Cell.filterMap_token?_parts]
    exact mem_filterMap.mpr ⟨_, hi, rfl⟩
  obtain ⟨v, hv, rfl⟩ := mem_map.mp hplace
  obtain ⟨t, children, ht, hshows⟩ := hout.outStanding.exists_shows v hv
  have hnewline : normal.newline.Bracketless := by
    obtain ⟨t, ht⟩ := hnormal.newline
    rw [ht]
    cases t <;> decide
  have hclean : Row.Clean d.LooseAt v.2 := by
    refine (Row.inherited_clean hnewline).retarget (hnormal.clean hrecord) [] v.2 ?_
    rw [← hout.items, Cell.listing_items]
    exact mem_map_of_mem hv
  refine ⟨t, ht, hclean.unbracketed hshows fun l hl => ?_⟩
  rw [Cell.label_of_traced hout.traced hnormal.standing.lt_size hv] at hl
  split at hl
  · exact (Option.some.inj hl).symm
  · cases hl

/-- Brackets in a comment, in a string, around a body and around an operand, and a comparison that
is made. -/
theorem converted_brackets_body :
    ∃ d, read "IFN A,<LDA \"<\"> ;<\nB=<C+<D>>\n" 8 = .ok d ∧
      (d.tokens.any isLoose = true ↔
        Text.Leaks "IFN A,<LDA \"<\"> ;<\nB=<C+<D>>\n") ∧
        ∃ target parts, d.converted = .ok target ∧ target.Walk target.root parts ∧
          ∀ i, Part.token i ∈ parts → ∃ t, target.tokens[i]? = some t ∧ t.Unbracketed d i :=
  exists_eq_ok_and (by decide +kernel) converted_brackets

/-- A line that starts with a word of listing control and a bracket is taken for code, and the
bracket stays in the target. -/
theorem converted_bracket_leaks :
    ∃ d target, read "PAGE<x\n" 8 = .ok d ∧ d.tokens.any isLoose = true ∧
      d.converted = .ok target ∧ target.render = .ok "PAGE<x\n" := by
  obtain ⟨d, hd, hloose⟩ := exists_eq_ok_of_any (x := read "PAGE<x\n" 8)
    (p := fun d => d.tokens.any isLoose && d.converted.toOption.any fun target =>
      target.render.toOption.any (· = ("PAGE<x\n" : Text))) (by decide +kernel)
  rw [Bool.and_eq_true] at hloose
  obtain ⟨target, htarget, hrender⟩ := exists_eq_ok_of_any hloose.2
  obtain ⟨text, htext, heq⟩ := exists_eq_ok_of_any hrender
  exact ⟨d, target, hd, hloose.1, htarget, of_decide_eq_true heq ▸ htext⟩

end Macro10
