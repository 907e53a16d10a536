import Macro10.Proofs.Brackets.Loose
import Macro10.Proofs.Diagnostics
import Macro10.Proofs.Row.Message

/-!
# Plain text

A line is plain if its first word does not make it a comment, and if nothing before its own comment
means anything to the rules (`Line.IsPlain`). A source of plain lines is converted to itself, and
nothing is reported (`convert_plain`).
-/

namespace Macro10

open List

variable {s : Symbol} {line : Line} {r : Reader}

open Row (leaves)
open Macro10.Symbol (isNameSymbol)

theorem Symbol.isNameSymbol_of_isSpace (h : s.isSpace = true) : s.isNameSymbol = false := by
  cases s with
  | stray b => cases h
  | char c =>
    obtain ⟨r, hr, hlow, hhigh⟩ := Text.exists_of_inRanges h
    have hall : ∀ r ∈ Text.spaceRanges, ∀ n ∈ List.range' r.1 (r.2 + 1 - r.1),
        isNameSymbol (.char (Char.ofNat n)) = false := by decide +kernel
    have hmem : c.toNat ∈ List.range' r.1 (r.2 + 1 - r.1) := mem_range'_1.mpr (by omega)
    simpa only [Char.ofNat_toNat] using hall r hr c.toNat hmem

/-! ## Text that means nothing -/

namespace Text

/-- The part of a line before its comment. -/
def beforeComment (t : Text) : Text := t.takeWhile (· ≠ .char ';')

/-- The symbols that mean something wherever they stand. -/
def specials : Text := "<>\"=!.%,^"

/-- The text is a name that means nothing: its first symbol is no digit, and it is no keyword. -/
def IsPlainName (t : Text) : Prop := t.head?.any Symbol.isDigit = false ∧ Row.Ordinary t
deriving Decidable

/-- Before its comment the text holds no special symbols, and between other symbols than letters and
digits there are only names that mean nothing. -/
@[mk_iff]
structure IsIdle (t : Text) : Prop where
  symbols : ∀ s ∈ t.beforeComment, s ∉ specials
  names : ∀ run ∈ t.beforeComment.splitOnP (!·.isNameSymbol), run = [] ∨ IsPlainName run

instance (t : Text) : Decidable t.IsIdle := decidable_of_iff _ (isIdle_iff t).symm

theorem beforeComment_append {u : Text} (hu : ∀ s ∈ u, s ≠ .char ';') (t : Text) :
    beforeComment (u ++ t) = u ++ beforeComment t :=
  takeWhile_append_of_pos fun s hs => decide_eq_true (hu s hs)

namespace IsIdle

variable {u t : Text}

theorem tail (h : IsIdle (s :: t)) (hs : s.isNameSymbol = false) (hcomment : s ≠ .char ';') :
    IsIdle t := by
  obtain ⟨hsymbols, hnames⟩ := h
  have hcode : beforeComment (s :: t) = s :: beforeComment t :=
    beforeComment_append (u := [s]) (forall_mem_singleton.mpr hcomment) t
  rw [hcode] at hsymbols hnames
  refine ⟨fun a ha => hsymbols a (mem_cons_of_mem _ ha), fun run hrun => ?_⟩
  refine hnames run ?_
  rw [← nil_append (s :: _),
    splitOnP_append_cons_of_forall_mem (forall_mem_nil _) s (by simp [hs])]
  exact mem_cons_of_mem _ hrun

theorem of_append_blanks (h : IsIdle (u ++ t)) (hu : ∀ s ∈ u, s.isBlank = true) : IsIdle t := by
  induction u with
  | nil => exact h
  | cons s u ih =>
    obtain ⟨hs, hu⟩ := forall_mem_cons.mp hu
    refine ih (h.tail (Symbol.isNameSymbol_of_isSpace (Symbol.isSpace_of_isBlank hs)) ?_) hu
    rintro rfl
    cases hs

/-- A name at the start means nothing, and nothing after it does. -/
theorem of_append_name (h : IsIdle (u ++ t)) (hne : u ≠ []) (hu : ∀ s ∈ u, s.isNameSymbol = true)
    (ht : t.head?.any isNameSymbol = false) : IsPlainName u ∧ IsIdle t := by
  have hcomment : ∀ s ∈ u, s ≠ .char ';' := by
    rintro s hs rfl
    exact absurd (hu _ hs) (by decide)
  have hsep : ∀ s ∈ u, (!s.isNameSymbol) = false := by simpa using hu
  obtain ⟨hsymbols, hnames⟩ := h
  rw [beforeComment_append hcomment] at hsymbols hnames
  have hsymbols' : ∀ s ∈ t.beforeComment, s ∉ specials :=
    fun s hs => hsymbols s (mem_append_right _ hs)
  cases hcode : t.beforeComment with
  | nil =>
    rw [hcode, append_nil, splitOnP_eq_singleton hsep] at hnames
    refine ⟨(hnames u mem_cons_self).resolve_left hne, ⟨hsymbols', ?_⟩⟩
    rw [hcode]
    exact forall_mem_singleton.mpr (.inl rfl)
  | cons x code =>
    have hx : (!x.isNameSymbol) = true := by
      cases t with
      | nil => cases hcode
      | cons y t =>
        rw [beforeComment, takeWhile_cons] at hcode
        split at hcode
        · obtain ⟨rfl, -⟩ := List.cons.inj hcode
          simpa using ht
        · cases hcode
    rw [hcode, splitOnP_append_cons_of_forall_mem hsep x hx] at hnames
    obtain ⟨hname, hnames⟩ := forall_mem_cons.mp hnames
    refine ⟨hname.resolve_left hne, ⟨hsymbols', ?_⟩⟩
    rw [hcode, ← nil_append (x :: code),
      splitOnP_append_cons_of_forall_mem (forall_mem_nil _) x hx]
    exact forall_mem_cons.mpr ⟨.inl rfl, hnames⟩

end IsIdle

end Text

/-! ## Lexemes -/

namespace Lexeme

/-- The lexeme means nothing to the rules. -/
def IsIdle : Lexeme → Prop
  | comment _ | blank _ => True
  | name text => Row.Ordinary text
  | operator text => ∃ s, text = [s] ∧ s ∉ Text.specials
  | string .. | digits .. => False

variable {t rest tail : Text}

theorem isIdle_first (h : Text.IsIdle (s :: rest))
    (htail : (first s rest).source ++ tail = s :: rest) :
    (first s rest).IsIdle ∧ Text.IsIdle tail := by
  generalize hl : first s rest = l at htail ⊢
  unfold first at hl
  split at hl
  · subst hl
    obtain rfl : tail = [] := by simpa [source] using htail
    exact ⟨trivial, by decide⟩
  next hcomment =>
  have hspecial : s ∉ Text.specials := by
    refine h.symbols s ?_
    rw [Text.beforeComment, takeWhile_cons, if_pos (by simpa using hcomment)]
    exact mem_cons_self
  split at hl
  · next hquote => exact absurd (by rw [hquote]; decide) hspecial
  split at hl
  · next hblank =>
    subst hl
    rw [← htail] at h
    refine ⟨trivial, h.of_append_blanks (forall_mem_cons.mpr ⟨hblank, ?_⟩)⟩
    exact all_eq_true.mp all_takeWhile
  -- a letter or a digit starts a name, and a name starts with no digit
  have hname (hs : s.isNameSymbol = true) :
      Text.IsPlainName (s :: rest.takeWhile isNameSymbol) ∧
        Text.IsIdle (rest.dropWhile isNameSymbol) := by
    rw [← takeWhile_append_dropWhile (p := isNameSymbol) (l := rest)] at h
    refine Text.IsIdle.of_append_name h (cons_ne_nil _ _) (forall_mem_cons.mpr ⟨hs,
      all_eq_true.mp all_takeWhile⟩) ?_
    have hstop := head?_dropWhile_not isNameSymbol rest
    cases hrest : (rest.dropWhile isNameSymbol).head? with
    | none => rfl
    | some a =>
      rw [hrest] at hstop
      simpa using hstop
  split at hl
  · next hdigit =>
    have hstart := (hname (by simp [isNameSymbol, hdigit])).1.1
    exact absurd hdigit (by simpa using hstart)
  next hdigit =>
  split at hl
  · next hletter =>
    subst hl
    obtain ⟨hplain, hrest⟩ := hname (Symbol.isNameSymbol_of_isLetter hletter)
    obtain rfl : tail = rest.dropWhile isNameSymbol :=
      append_cancel_left ((List.cons.inj htail).2.trans takeWhile_append_dropWhile.symm)
    exact ⟨hplain.2, hrest⟩
  · next hletter =>
    have hoperator : ofOperator s rest = operator [s] := by
      unfold ofOperator
      split
      · exact absurd (by decide) hspecial
      · rfl
    rw [hoperator] at hl
    subst hl
    obtain ⟨-, rfl⟩ := List.cons.inj htail
    exact ⟨⟨s, rfl, hspecial⟩, h.tail (by simp [isNameSymbol, hletter, hdigit]) hcomment⟩

theorem isIdle_of_mem_lexemes (h : t.IsIdle) : ∀ l ∈ lexemes t, l.IsIdle := by
  induction t using lexemes_induction with
  | nil => simp
  | cons s rest tail htail ih =>
    obtain ⟨hfirst, hrest⟩ := isIdle_first h htail
    rw [lexemes_of_source htail]
    exact forall_mem_cons.mpr ⟨hfirst, ih hrest⟩

end Lexeme

/-! ## Rows -/

/-- The piece means nothing to the rules. -/
inductive Piece.IsIdle : Piece → Prop
  | comment (text : Text) : IsIdle (.made .comment text)
  | space (text : Text) : IsIdle (.made .whitespace text)
  | name {text : Text} (h : Row.Ordinary text) : IsIdle (.made .identifier text)
  | operator {s : Symbol} (h : s ∉ Text.specials) : IsIdle (.made .operator [s])

theorem Lexeme.IsIdle.piece {l : Lexeme} (h : l.IsIdle) : Piece.IsIdle (.made l.kind l.text) := by
  cases l with
  | comment text => exact .comment text
  | blank text => exact .space text
  | name text => exact .name h
  | operator text =>
    obtain ⟨s, rfl, hs⟩ := h
    exact .operator hs
  | string | digits => cases h

theorem Piece.IsIdle.isReported_eq_false {p : Piece} (h : p.IsIdle) (hkind : p.kind = .identifier) :
    Keyword.isReported p.upper = false := by
  cases h with
  | @name text hname =>
    show Keyword.isReported (Text.upper text) = false
    rw [Keyword.isReported, hname.2.2.2.1, Bool.false_or]
    exact decide_eq_false hname.2.2.2.2
  | comment | space | operator => cases hkind

namespace Row

theorem listing_leaves (ps : List Piece) : Nest.listing (leaves ps) = ps := by
  induction ps with
  | nil => rfl
  | cons p ps ih => rw [leaves_cons, Nest.listing_cons, ih, Nest.values_node]; rfl

variable {ps : List Piece} (h : ∀ p ∈ ps, p.IsIdle)
include h

theorem normalAfter_idle : normalAfter none ps = ps := by
  refine normalAfter_eq_self fun p hp => ?_
  cases h p hp with
  | name hname => exact (isArgument_nameOf hname.1).toInert
  | comment => exact ⟨nofun, rfl, rfl⟩
  | space => exact inert_of_whitespace rfl
  | operator hs =>
    refine ⟨nofun, rfl, decide_eq_false ?_⟩
    rintro ⟨⟩
    exact hs (by decide)

theorem retargetRow_idle (before : List Piece) : retargetRow [] before (leaves ps) = leaves ps := by
  induction ps generalizing before with
  | nil => rw [leaves, map_nil, retargetRow]
  | cons p ps ih =>
    obtain ⟨hp, hps⟩ := forall_mem_cons.mp h
    have hrest (before : List Piece) : Nest.node p [] :: retargetRow [] before (leaves ps) =
        leaves (p :: ps) := congrArg (_ :: ·) (ih hps before)
    rw [leaves_cons]
    cases hp with
    | comment text => rw [retargetRow, if_neg (by simp)]; exact hrest _
    | space text => rw [retargetRow_whitespace _ _ _ rfl]; exact hrest _
    | name hname =>
      rw [retargetRow_word _ _ _ rfl, word_of_ordinary hname rfl]
      exact hrest _
    | @operator s hs =>
      have hne {c : Char} (hc : .char c ∈ Text.specials) : s ≠ .char c := by
        rintro rfl
        exact hs hc
      have hwritten : written Retarget.quoteSingle [] before (.node (.made .operator [s]) [])
          (leaves ps) = .node (.made .operator [s]) [] := by
        show operator [] _ _ = _
        simp [operator, Text.ofString, hne (c := '=') (by decide), hne (c := '.') (by decide),
          hne (c := '%') (by decide), hne (c := ',') (by decide)]
      have hafter : after (.node (.made .operator [s]) []) (leaves ps) = leaves ps := by
        simp [after, afterOperator, Text.ofString, hne (c := '=') (by decide)]
      rw [retargetRow, if_neg (by simp), hwritten, hafter]
      exact hrest _

end Row

/-! ## Lines -/

/-- The line is code, and it means nothing to the rules. -/
@[mk_iff]
structure Line.IsPlain (line : Line) : Prop extends Text.IsIdle line.content where
  dollar : line.content.head? ≠ some (.char '$')
  word : ∀ w ∈ (Text.words line.content).head?,
    Text.upper w ∉ Keyword.commentBlock :: Keyword.setRadix :: Keyword.listing

instance (line : Line) : Decidable line.IsPlain := decidable_of_iff _ (Line.isPlain_iff line).symm

/-- What a line of code is read as. -/
def Line.pieces (line : Line) : List Piece :=
  (Lexeme.lexemes line.content).map (fun l => .made l.kind l.text) ++
    (line.terminator.map fun t => .made .whitespace t.text).toList

namespace Line.IsPlain

variable (h : line.IsPlain)
include h

theorem segments_eq : Segment.segments line.content = [⟨1, line.content, .lineEnd⟩] := by
  have hcode : ∀ s ∈ line.content.beforeComment, Segment.isPlain s = true := by
    intro s hs
    have hcomment : s ≠ .char ';' := of_decide_eq_true (all_eq_true.mp all_takeWhile s hs)
    have hspecial := h.symbols s hs
    simp only [Text.specials, Text.ofString] at hspecial
    simp_all [Segment.isPlain, Symbol.is]
  have hsplit : line.content.beforeComment ++ line.content.dropWhile (· ≠ .char ';') =
      line.content := takeWhile_append_dropWhile
  rw [Segment.segments]
  nth_rewrite 1 [← hsplit]
  rw [Segment.segmentsFrom_append hcode]
  cases hrest : line.content.dropWhile (· ≠ .char ';') with
  | nil =>
    rw [hrest, append_nil] at hsplit
    rw [Segment.segmentsFrom, append_nil, reverse_reverse, hsplit]
  | cons s rest =>
    obtain rfl : s = .char ';' := by
      have hhead := head?_dropWhile_not (fun s : Symbol => decide (s ≠ .char ';')) line.content
      rw [hrest] at hhead
      simpa using hhead
    rw [Segment.segmentsFrom, if_neg (by decide), if_pos rfl, Segment.segmentsFrom_verbatim,
      append_nil, reverse_cons, reverse_reverse, append_assoc,
      singleton_append, ← hrest, hsplit]

theorem ofSegment_eq : LineClass.ofSegment ⟨1, line.content, .lineEnd⟩ = .code := by
  have hdollar := h.dollar
  have hword := h.word
  have hkept : Keyword.isSuppressed line.content = false := by
    unfold Keyword.isSuppressed
    split
    · next rest heq => exact absurd (by rw [heq]; rfl) hdollar
    · split
      · rfl
      · next w _ hwords =>
        rw [hwords] at hword
        simpa using (not_mem_of_not_mem_cons (not_mem_of_not_mem_cons (hword w rfl)))
  unfold LineClass.ofSegment
  rw [if_neg (by simp)]
  cases hwords : Text.words line.content with
  | nil => rfl
  | cons w operands =>
    rw [hwords] at hword
    have hkeyword := hword w rfl
    simp only [mem_cons, not_or] at hkeyword
    obtain _ | ⟨marker, _ | ⟨_, _⟩⟩ := operands <;> simp [hkeyword.1, hkeyword.2.1, hkept]

theorem isIdle_pieces : ∀ p ∈ line.pieces, p.IsIdle := by
  refine forall_mem_append.mpr ⟨forall_mem_map.mpr fun l hl => ?_, ?_⟩
  · exact (Lexeme.isIdle_of_mem_lexemes h.toIsIdle l hl).piece
  · cases line.terminator with
    | none => exact forall_mem_nil _
    | some t => exact forall_mem_singleton.mpr (.space t.text)

theorem flatMap_text_pieces : line.pieces.flatMap Piece.text = line.text := by
  have hcode : (Lexeme.lexemes line.content).flatMap Lexeme.text = line.content := by
    refine (flatMap_congr fun l hl => ?_).trans (Lexeme.flatMap_source_lexemes line.content)
    have hidle := Lexeme.isIdle_of_mem_lexemes h.toIsIdle l hl
    cases l with
    | comment | blank | name | operator => rfl
    | string | digits => cases hidle
  rw [pieces, flatMap_append, flatMap_map]
  refine congrArg₂ (· ++ ·) hcode ?_
  rw [ending]
  cases line.terminator with
  | none => rfl
  | some t => exact append_nil _

end Line.IsPlain

namespace Reader

theorem readLexemes_idle {lexemes : List Lexeme} (h : ∀ l ∈ lexemes, l.IsIdle)
    (hmark : r.afterMark = false) (line column : Nat) :
    ∃ scope, r.readLexemes line column lexemes = .ok { r with scope } ∧
      ({ r with scope } : Reader).afterMark = false ∧
      scope.items = (leaves (lexemes.map fun l => .made l.kind l.text)).reverse ++
        r.scope.items := by
  induction lexemes generalizing r column with
  | nil => exact ⟨r.scope, rfl, hmark, rfl⟩
  | cons l lexemes ih =>
    obtain ⟨hl, hlexemes⟩ := forall_mem_cons.mp h
    have hread : r.readLexeme ⟨line, column⟩ l = .ok (r.put l.kind l.text ⟨line, column⟩) := by
      cases l with
      | comment | blank | operator => rfl
      | name text =>
        rw [readLexeme, judgeName, hmark]
        rfl
      | string | digits => cases hl
    have hput : (r.put l.kind l.text ⟨line, column⟩).afterMark = false := by
      rw [afterMark_eq]
      cases l with
      | comment | blank | name => rfl
      | operator text =>
        obtain ⟨s, rfl, hs⟩ := hl
        refine decide_eq_false ?_
        rintro ⟨⟩
        exact hs (by decide)
      | string | digits => cases hl
    obtain ⟨scope, hscope, hmark, hitems⟩ := ih hlexemes hput (column + l.source.length)
    refine ⟨scope, ?_, hmark, ?_⟩
    · rw [readLexemes, hread]
      exact hscope
    · rw [hitems, map_cons, Row.leaves_cons, reverse_cons, append_assoc]
      rfl

theorem readSegments_plain (h : line.IsPlain) (hmark : r.afterMark = false)
    (number : Nat) (later : List Line) :
    ∃ scope, r.readSegments number line later (Segment.segments line.content) =
        .ok ({ r with scope }, none) ∧
      ({ r with scope } : Reader).afterMark = false ∧
      scope.items = (leaves line.pieces).reverse ++ r.scope.items := by
  obtain ⟨scope, hscope, hafter, hitems⟩ := readLexemes_idle
    (Lexeme.isIdle_of_mem_lexemes h.toIsIdle) hmark number 1
  have hcode : r.readCode number 1 line.content = .ok { r with scope } := hscope
  rw [h.segments_eq, readSegments]
  simp only [endLine, h.ofSegment_eq, hcode]
  rw [Line.pieces, Row.leaves_append, reverse_append, append_assoc, ← hitems]
  cases line.terminator with
  | none => exact ⟨scope, rfl, hafter, rfl⟩
  | some t => exact ⟨_, rfl, rfl, rfl⟩

theorem readLines_plain {lines : List Line} (h : ∀ line ∈ lines, line.IsPlain)
    (hmark : r.afterMark = false) (number : Nat) :
    ∃ scope, r.readLines number none lines = .ok { r with scope } ∧
      scope.items = (leaves (lines.flatMap Line.pieces)).reverse ++ r.scope.items := by
  induction lines generalizing r number with
  | nil => exact ⟨r.scope, rfl, rfl⟩
  | cons line lines ih =>
    obtain ⟨hline, hlines⟩ := forall_mem_cons.mp h
    obtain ⟨scope, hscope, hafter, hitems⟩ := readSegments_plain hline hmark number lines
    obtain ⟨scope', hscope', hitems'⟩ := ih hlines hafter (number + 1)
    refine ⟨scope', ?_, ?_⟩
    · rw [readLines, hscope]
      exact hscope'
    · rw [hitems', flatMap_cons, Row.leaves_append, reverse_append, append_assoc,
        ← hitems]

end Reader

/-! ## Conversion -/

/-- A complaint is about a word among the pieces that were read. -/
theorem Diagnostic.Complains.exists_piece {f : Forest} (hplain : f.Plain) {newline : Text}
    {diagnostics : List Diagnostic} {i : Id} {t : Token} {g : Diagnostic} (hg : g.Complains t)
    (ht : (Document.ofForest f newline diagnostics).tokens[i]? = some t) :
    ∃ p ∈ Nest.listing f.items, p.kind = .identifier ∧ Keyword.isReported p.upper = true := by
  have hplace : i ∈ Cell.places (f.cells 0) := by
    rw [Forest.places_cells, ← range_eq_range', ← Document.size_tokens_ofForest f newline
      diagnostics]
    exact mem_range.mpr (Document.lt_size_of_getElem? ht)
  obtain ⟨v, hv, rfl⟩ := mem_map.mp hplace
  obtain ⟨t', children, ht', hshows⟩ :=
    (Document.standing_ofForest hplain newline diagnostics).exists_shows v hv
  cases ht'.symm.trans ht
  refine ⟨v.2, ?_, hshows.kind.symm.trans hg.kind, hshows.upper ▸ hg.isReported⟩
  rw [← f.items_cells 0]
  exact Nest.listing_map Prod.snd (f.cells 0) ▸ mem_map_of_mem hv

/-- Nothing is reported if nothing is while the source is read, and no word of it can be complained
about. -/
theorem diagnostics_eq_nil {source : Text} {radix : Int} {d : Document}
    (hr : Reader.Reads (some radix) source r)
    (hreading : (r.endGroups r.frames).diagnostics = [])
    (hwords : ∀ p ∈ Nest.listing r.forest.items, p.kind = .identifier →
      Keyword.isReported p.upper = false)
    (hd : convertDocument source radix = .ok d) : d.diagnostics = [] := by
  obtain ⟨d₀, hread, hconverted⟩ := bind_eq_ok.mp hd
  obtain ⟨normal, hnormal, htarget⟩ := bind_eq_ok.mp hconverted
  obtain ⟨r', hr', hplain, rfl⟩ := exists_forest_of_read hread
  cases hr.symm.trans hr'
  refine eq_nil_iff_forall_not_mem.mpr fun g hg => ?_
  rcases (Edit.evolves_normalize hnormal).reports_trans
    (Retarget.evolves_retarget htarget) g hg with
    hg | ⟨i, t, ht, hcomplains⟩
  · exact not_mem_nil (hreading ▸ hg)
  · obtain ⟨p, hp, hkind, hreported⟩ := hcomplains.exists_piece hplain ht
    exact Bool.false_ne_true ((hwords p hp hkind).symm.trans hreported)

/-- **Plain text is converted to itself,** in any radix, and nothing is reported. -/
theorem convert_plain {source : Text} (h : ∀ line ∈ Line.split source, line.IsPlain) (radix : Int) :
    convert source [] radix = .ok source ∧
      ∃ d, convertDocument source radix = .ok d ∧ d.diagnostics = [] := by
  obtain ⟨scope, hr, hitems⟩ := Reader.readLines_plain (r := { radix := some radix }) h rfl 1
  have hforest : scope.reverse.items = leaves ((Line.split source).flatMap Line.pieces) := by
    rw [Forest.items_reverse, hitems]
    exact (congrArg _ (append_nil _)).trans (reverse_reverse _)
  have hidle : ∀ p ∈ (Line.split source).flatMap Line.pieces, p.IsIdle := by
    intro p hp
    obtain ⟨line, hline, hp⟩ := mem_flatMap.mp hp
    exact (h line hline).isIdle_pieces p hp
  have hkinds : ∀ p ∈ (Line.split source).flatMap Line.pieces, p.kind ≠ .container := by
    intro p hp
    cases hidle p hp <;> simp
  have htext : ((Line.split source).flatMap Line.pieces).flatMap Piece.text = source := by
    rw [flatMap_assoc, flatMap_congr fun line hline => (h line hline).flatMap_text_pieces]
    exact Line.flatten_split source
  have hconvert : convert source [] radix = .ok source := by
    rw [convert_of_readLines hr]
    show Except.ok (Item.textOf (Row.retarget _ [] (Row.normal scope.reverse.items))) = _
    rw [hforest, Row.normal_leaves, Row.normalAfter_idle hidle, Row.retarget_eq,
      Row.retargetRow_idle hidle, Row.textOf_leaves hkinds, htext]
  obtain ⟨d, hd, -⟩ := bind_eq_ok.mp hconvert
  refine ⟨hconvert, d, hd, diagnostics_eq_nil hr rfl (fun p hp => ?_) hd⟩
  have hmem : p ∈ Nest.listing scope.reverse.items := hp
  rw [hforest, Row.listing_leaves] at hmem
  exact (hidle p hmem).isReported_eq_false

/-- Plain lines have labels, operands in parentheses, and comments with anything in them. -/
def plainSource : Text := "loop:\tsta (ptr)+ix ;IFE \"9\" <=>\r\n\u017falt: NOP2\r\u2028 ;"

theorem convert_plainSource :
    (Line.split plainSource).length = 3 ∧ (∀ line ∈ Line.split plainSource, line.IsPlain) ∧
      convert plainSource [] 8 = .ok plainSource ∧
      ∃ d, convertDocument plainSource 8 = .ok d ∧ d.diagnostics = [] := by
  have h : ∀ line ∈ Line.split plainSource, line.IsPlain := by decide +kernel
  exact ⟨by decide +kernel, h, convert_plain h 8⟩

end Macro10
