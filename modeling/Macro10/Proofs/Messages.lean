import Macro10.Proofs.Operands
import Macro10.Proofs.Row.Message

/-!
# Messages

A message is read as code, so its numerals and exclamation marks are converted before it is printed
as a text. It prints what its line shows in normal form, and that is the message itself if it has no
numerals and no operators that are written in another way (`convert_message`).
-/

namespace Macro10

open List
open Piece (IsSaid isClear text)
open Text (ofString trim)
open Macro10.Symbol (isBlank isSpace)
open Keyword (message)
open Row (leaves nameOf)
open Lexeme (kind lexemes)

/-! ## Reading a message -/

theorem Stretch.Shows.isSaid {l : Lexeme} {kind : Kind} {text : Text}
    (h : (Stretch.lexeme l).Shows kind text) (hproper : l.Proper) (hcomment : l.kind ≠ .comment) :
    IsSaid (.made kind text) ∧
      isClear (.made kind text) = l.source.all isSpace := by
  have hdigits {digits : Text} (hrun : Numeral.IsRun digits) (point : Bool) :
      (Lexeme.digits digits point).source.all isSpace = false := by
    have hsolid := Numeral.all_isSpace_of_isNumeralSymbol ⟨hrun.1, hrun.isNumeralSymbol⟩
    cases point with
    | true => rw [Lexeme.source, if_pos rfl, all_append, hsolid, Bool.false_and]
    | false => exact hsolid
  have hword (kind : Kind) (text : Text) (hkind : kind ≠ .container ∧ kind ≠ .comment ∧
      kind ≠ .whitespace) : IsSaid (.made kind text) :=
    ⟨hkind.1, hkind.2.1, Piece.isNewline_eq_false hkind.2.2⟩
  cases h with
  | numeral hjudge =>
    rw [hdigits hproper]
    refine ⟨hword _ _ (by decide), ?_⟩
    exact Numeral.all_isSpace_of_isNumeralSymbol (hproper.of_judgeNumber hjudge)
  | lexeme =>
    cases l with
    | comment text => exact absurd rfl hcomment
    | blank text =>
      exact ⟨⟨by simp [kind], by simp [kind], Stretch.isNewline_of_isBlank hproper.2⟩, rfl⟩
    | digits text point =>
      rw [hdigits hproper]
      exact ⟨hword _ _ (by simp [kind]), hdigits hproper false⟩
    | string | name | operator => exact ⟨hword _ _ (by simp [kind]), rfl⟩

/-- **What a message is read as** shows something if the message does. -/
theorem Forest.Spelled.exists_said {top mark : Bool} {f : Forest} {w : List Visit}
    {positions : List Position} (h : Forest.Spelled top mark f w positions)
    (hw : ∀ v ∈ w, ∃ l, v.stretch = .lexeme l ∧ l.Proper ∧ l.kind ≠ .comment) :
    ∃ ps, f.items = leaves ps ∧ (∀ p ∈ ps, p.IsSaid) ∧
      ps.all isClear = (w.flatMap fun v => v.stretch.source).all isSpace := by
  induction h with
  | nil => exact ⟨[], rfl, forall_mem_nil _, rfl⟩
  | silent hv =>
    obtain ⟨l, hl, -⟩ := hw _ mem_cons_self
    rcases hv with ⟨marker, heq, -⟩ | ⟨-, heq, -⟩ <;> cases hl.symm.trans heq
  | @leaf top mark f w positions v kind text hv h ih =>
    obtain ⟨⟨l, hl, hproper, hcomment⟩, hw⟩ := forall_mem_cons.mp hw
    obtain ⟨ps, hps, hsaid, hclear⟩ := ih hw
    obtain ⟨hp, hpclear⟩ := (hl ▸ hv.shows).isSaid hproper hcomment
    refine ⟨.made kind text :: ps, ?_, forall_mem_cons.mpr ⟨hp, hsaid⟩, ?_⟩
    · rw [Forest.items, hps]
      rfl
    · rw [all_cons, hpclear, hclear, flatMap_cons, hl, all_append]
      rfl
  | @pair top mark f w w' positions m v new hm hsilent hv h ih =>
    obtain ⟨ps, hps, hsaid, -⟩ := ih fun v hv => hw v (by simp [hv])
    obtain ⟨name, radix, -, hjudge, -⟩ := hv
    have hnumeral : IsSaid (.made .number new) :=
      ⟨by simp, by simp, Piece.isNewline_eq_false (by simp)⟩
    have hspent : IsSaid (.made .whitespace []) := ⟨by simp, by simp, by decide⟩
    -- The mark shows something, and so does the numeral.
    have hmark : m.stretch.source.all isSpace = false := by
      rw [hm.1]
      decide
    have hnew : isClear (.made .number new) = false :=
      Numeral.all_isSpace_of_isNumeralSymbol (Numeral.isNumeralSymbol_of_judgeMarked hjudge)
    refine ⟨.made .whitespace [] :: .made .number new :: ps, ?_, ?_, ?_⟩
    · rw [Forest.items, Forest.items, hps]
      rfl
    · exact forall_mem_cons.mpr ⟨hspent, forall_mem_cons.mpr ⟨hnumeral, hsaid⟩⟩
    · rw [all_cons, all_cons, hnew, flatMap_cons, all_append, hmark,
        Bool.false_and, Bool.false_and, Bool.and_false]
  | group hv | unclosed hv =>
    obtain ⟨l, hl, -⟩ := hw _ mem_cons_self
    cases hl.symm.trans hv.1

/-! ## Messages of a source -/

/-- The text of a source in normal form. -/
def normalText (source : Text) (radix : Int) : Except Failure Text := do
  (← (← read source radix).edit Edit.normalize).render

theorem normalText_of_readLines {source : Text} {radix : Int} {r : Reader}
    (h : Reader.Reads (some radix) source r) :
    normalText source radix = .ok (Item.textOf (Row.normal r.forest.items)) := by
  have hread : read source radix = .ok (r.finish (Line.newline (Line.split source))).document :=
    read_eq_ok.mpr ⟨_, Reading.ofSource_eq_ok.mpr ⟨r, h, rfl⟩, rfl⟩
  obtain ⟨normal, cs, hnormal⟩ := (Reader.plain_forest h).exists_normalized
    (Line.exists_newline_eq (Line.split source)) (r.endGroups r.frames).diagnostics
  have hedit : (r.finish (Line.newline (Line.split source))).document.edit Edit.normalize =
      .ok normal := hnormal.edit
  rw [normalText, hread, ← hnormal.items]
  change _ >>= Document.render = _
  rw [hedit]
  exact hnormal.standing.render_eq hnormal.root

/-- The text can be told on the line of a message: it starts with no blank, and neither a comment
nor a group is in it. -/
structure Text.IsMessage (m : Text) : Prop where
  symbols : ∀ s ∈ m, s.endsLine = false ∧ s ≠ .char ';' ∧ s ≠ .char '<' ∧ s ≠ .char '>'
  start : m.head?.any (fun s => !s.isBlank) = true

namespace Text.IsMessage

variable {radix : Int} {r : Reader}

variable {m : Text} (h : m.IsMessage)
include h

theorem head?_isBlank : m.head?.any isBlank = false := by
  have hstart := h.start
  cases m with
  | nil => rfl
  | cons s m => simpa using hstart

theorem all_isSpace : m.all isSpace = false := by
  obtain ⟨hsymbols, hstart⟩ := h
  cases m with
  | nil => cases hstart
  | cons s m =>
    have hline := (hsymbols s mem_cons_self).1
    simp [isBlank, hline] at hstart
    rw [all_cons, hstart, Bool.false_and]

theorem lexemes_cases : ∀ l ∈ lexemes m, l.Proper ∧ l.kind ≠ .comment := by
  intro l hl
  have hproper := Lexeme.proper_of_mem_lexemes hl
  refine ⟨hproper, fun hkind => ?_⟩
  cases l with
  | comment text =>
    have hmem : .char ';' ∈ m := by
      rw [← Lexeme.flatMap_source_lexemes m]
      exact mem_flatMap.mpr ⟨_, hl, mem_of_mem_head? hproper⟩
    exact (h.symbols _ hmem).2.1 rfl
  | string | blank | digits | name | operator => cases hkind

theorem cut_eq : Stretch.cut [] m = (lexemes m).map .lexeme :=
  Stretch.cut_of_no_bracket (fun s hs => (h.symbols s hs).2.2) []

theorem follows : Line.Follows message m := by
  have hopens : Line.Opens message :=
    ⟨by decide, Line.startsCode_of_words (fun t => ⟨_, rfl⟩) ⟨_, _, rfl, by decide⟩ (by decide)⟩
  exact hopens.follows_of_no_bracket (fun s hs => (h.symbols s hs).1)
    (fun s hs => (h.symbols s hs).2.2) h.head?_isBlank

theorem exists_codeOf
    (hr : ({ radix := some radix } : Reader).takeAll 1 1 (Stretch.cut [] m) = .ok r) :
    ∃ ps, m.CodeOf radix (leaves ps) ∧ (∀ p ∈ ps, p.IsSaid) ∧ ps.all isClear = false := by
  have hdepth : Stretch.depthAfter ({ radix := some radix } : Reader).frames.length
      (Stretch.cut [] m) = some 0 := by
    have hcode := Stretch.depthAfter_ofCode 0 m []
    rwa [append_nil, Stretch.ofCode, ← h.cut_eq] at hcode
  have hframes : r.frames = [] :=
    length_eq_zero_iff.mp (Reader.length_frames_takeAll hdepth hr)
  obtain ⟨w, hstretches, hspelled⟩ :=
    Reader.exists_spelled_takeAll (Stretch.proper_cut m) hframes hr
  rw [h.cut_eq] at hstretches
  have hsource : (w.flatMap fun v => v.stretch.source) = m := by
    rw [← flatMap_map Visit.stretch Stretch.source, hstretches, flatMap_map]
    exact Lexeme.flatMap_source_lexemes m
  obtain ⟨ps, hitems, hsaid, hclear⟩ := hspelled.exists_said fun v hv => by
    have hmem : v.stretch ∈ (lexemes m).map .lexeme := hstretches ▸ mem_map_of_mem hv
    obtain ⟨l, hl, heq⟩ := mem_map.mp hmem
    exact ⟨l, heq.symm, h.lexemes_cases l hl⟩
  rw [hsource, h.all_isSpace] at hclear
  refine ⟨ps, ⟨r, hr, ?_⟩, hsaid, hclear⟩
  rw [Reader.rows, hframes, ← hitems, Forest.items_reverse, reverse_reverse, map_nil]

/-- **The line of a message, in normal form and for the target.** -/
theorem exists_normalText
    (hr : Reader.Reads (some radix) (message ++ .char ' ' :: m ++ [.char '\n']) r) :
    ∃ t, normalText (message ++ .char ' ' :: m ++ [.char '\n']) radix =
        .ok (message ++ .char ' ' :: t ++ [.char '\n']) ∧
      convert (message ++ .char ' ' :: m ++ [.char '\n']) [] radix =
        .ok (ofString ".OUT " ++ Row.printed t ++ [.char '\n']) := by
  obtain ⟨r₀, hr₀⟩ := Reader.exists_takeAll_cut h.follows (Reader.readLines_split_eq_ok.mp hr)
  obtain ⟨ps, hcode, hsaid, hsolid⟩ := h.exists_codeOf hr₀
  obtain ⟨r', hr', hitems⟩ := hcode.exists_readLines_word h.follows
  obtain rfl : r = r' := Except.ok.inj (hr.symm.trans hr')
  obtain ⟨us, e, hnormal, hus, hclear, he, htext⟩ := Row.exists_normal_said
    (w := message) (e := .made .whitespace [.char '\n']) (by decide) hsaid hsolid rfl rfl
  rw [← Row.leaves_append, ← Row.leaves_append] at hitems
  have hline : ∀ s ∈ message ++ .char ' ' :: m, s.endsLine = false :=
    forall_mem_append.mpr ⟨by decide, forall_mem_cons.mpr
      ⟨by decide, fun s hs => (h.symbols s hs).1⟩⟩
  have hkinds : ∀ p ∈ [nameOf message, Row.blank] ++ us ++ [e], p.kind ≠ .container := by
    refine forall_mem_append.mpr ⟨forall_mem_append.mpr
      ⟨by decide, fun p hp => (hus p hp).container⟩, forall_mem_singleton.mpr ?_⟩
    rw [Piece.kind_of_isNewline he]
    decide
  refine ⟨us.flatMap text, ?_, ?_⟩
  · rw [normalText_of_readLines hr, hitems, hnormal, Row.flatMap_text_leaves hkinds]
    simp [ofString, htext]
  · rw [convert_line hline hr, hitems, hnormal, Row.textOf_message (by decide) hus hclear he, htext]
    rfl

theorem exists_readLines_lasting (hlasting : ∀ l ∈ lexemes m, l.IsLasting radix) :
    ∃ r, Reader.Reads (some radix) (message ++ .char ' ' :: m ++ [.char '\n']) r ∧
      normalText (message ++ .char ' ' :: m ++ [.char '\n']) radix =
        .ok (message ++ .char ' ' :: m ++ [.char '\n']) := by
  let ps : List Piece := (lexemes m).map fun l => .made l.kind l.text
  have hcode : m.CodeOf radix (leaves ps) := .lasting (fun s hs => (h.symbols s hs).2.2) hlasting
  obtain ⟨r, hr, hitems⟩ := hcode.exists_readLines_word h.follows
  rw [← Row.leaves_append, ← Row.leaves_append] at hitems
  have hps : ∀ p ∈ ps, p.kind ≠ .container ∧ p.isOperator "!" = false := by
    refine forall_mem_map.mpr fun l hl => ?_
    have hl := hlasting l hl
    cases l with
    | operator text => exact ⟨by simp [kind], by simpa [Piece.isOperator, Token.isOperator,
        Piece.token, Piece.made, kind, Lexeme.text] using hl.2⟩
    | comment | string | blank | digits | name => exact ⟨by simp [kind], rfl⟩
  have hpieces : ∀ p ∈ [nameOf message, Row.blank] ++ ps ++ [.made .whitespace [.char '\n']],
      p.kind ≠ .container ∧ p.isOperator "!" = false :=
    forall_mem_append.mpr ⟨forall_mem_append.mpr ⟨by decide, hps⟩, by decide⟩
  have hkinds : ∀ q ∈ Row.normalAfter none ([nameOf message, Row.blank] ++ ps ++
      [.made .whitespace [.char '\n']]), q.kind ≠ .container := fun q hq hkind => by
    obtain ⟨p, hp, hsettles⟩ := Row.exists_mem_of_forall₂ (Row.settles_normalAfter ..) hq
    exact (hpieces p hp).1 (hsettles.of_kind_eq hkind (by decide))
  have htexts : ps.flatMap text = m := by
    rw [flatMap_map]
    exact (flatMap_congr fun l hl => (hlasting l hl).text_eq).trans
      (Lexeme.flatMap_source_lexemes m)
  refine ⟨r, hr, ?_⟩
  rw [normalText_of_readLines hr, hitems, Row.normal_leaves, Row.flatMap_text_leaves hkinds,
    Row.flatMap_text_normalAfter fun p hp => (hpieces p hp).2]
  simp [htexts, ofString]

end Text.IsMessage

/-- **What a message prints.** Its text is taken from the line of the message in normal form. This
is the text in the source if each of its lexemes is written in the same way in the target. -/
theorem convert_message {m : Text}
    (hline : ∀ s ∈ m, s.endsLine = false ∧ s ≠ .char ';' ∧ s ≠ .char '<' ∧ s ≠ .char '>')
    (hstart : m.head?.any (fun s => !s.isBlank) = true) (radix : Int) :
    let source := ofString "PRINTX " ++ m ++ ofString "\n"
    let printed (t : Text) := ofString ".OUT \"" ++
      Text.replaceSymbol (.char '"') (.char '\'') (trim t) ++ ofString "\"\n"
    (∀ out, convert source [] radix = .ok out ↔ ∃ t, out = printed t ∧
      normalText source radix = .ok (ofString "PRINTX " ++ t ++ ofString "\n")) ∧
    ((∀ l ∈ Lexeme.lexemes m, l.IsLasting radix) → convert source [] radix = .ok (printed m)) := by
  have h : m.IsMessage := ⟨hline, hstart⟩
  have hprinted (t : Text) : ofString ".OUT " ++ Row.printed t ++ [.char '\n'] =
      ofString ".OUT \"" ++ Text.replaceSymbol (.char '"') (.char '\'') (trim t) ++
        ofString "\"\n" := by
    simp [Row.printed, ofString]
  have hsource (t : Text) : Keyword.message ++ .char ' ' :: t ++ [.char '\n'] =
      ofString "PRINTX " ++ t ++ ofString "\n" := by
    simp [Keyword.message, ofString]
  intro source printed
  have htold {r : Reader} (hr : ({ radix := some radix } : Reader).readLines 1 none
      (Line.split source) = .ok r) :
      ∃ t, normalText source radix = .ok (ofString "PRINTX " ++ t ++ ofString "\n") ∧
        convert source [] radix = .ok (printed t) := by
    obtain ⟨t, hnormal, hconvert⟩ := h.exists_normalText (by rw [hsource]; exact hr)
    rw [hsource, hsource] at hnormal
    rw [hsource, hprinted] at hconvert
    exact ⟨t, hnormal, hconvert⟩
  have hunique {t u : Text} (htu : (.ok (ofString "PRINTX " ++ t ++ ofString "\n") :
      Except Failure Text) = .ok (ofString "PRINTX " ++ u ++ ofString "\n")) : t = u :=
    append_cancel_left (append_cancel_right (Except.ok.inj htu))
  refine ⟨fun out => ⟨fun hout => ?_, ?_⟩, fun hlasting => ?_⟩
  · obtain ⟨r, hr⟩ := exists_readLines_of_convert hout
    obtain ⟨t, hnormal, hconvert⟩ := htold hr
    exact ⟨t, Except.ok.inj (hout.symm.trans hconvert), hnormal⟩
  · rintro ⟨t, rfl, hnormal⟩
    obtain ⟨d, hd, -⟩ := bind_eq_ok.mp hnormal
    obtain ⟨r, hr, -, -⟩ := exists_forest_of_read hd
    obtain ⟨u, hnormal', hconvert⟩ := htold hr
    rw [hunique (hnormal.symm.trans hnormal'), hconvert]
  · obtain ⟨r, hr, hsame⟩ := h.exists_readLines_lasting hlasting
    rw [hsource] at hr hsame
    obtain ⟨t, hnormal, hconvert⟩ := htold hr
    rw [hconvert, hunique (hnormal.symm.trans hsame)]

/-- A message with a string and a numeral that the target writes in the same way. -/
theorem convert_message_step :
    let m := ofString "Step 5: \"done\"  "
    (∀ s ∈ m, s.endsLine = false ∧ s ≠ .char ';' ∧ s ≠ .char '<' ∧ s ≠ .char '>') ∧
      convert (ofString "PRINTX " ++ m ++ ofString "\n") [] 8 =
        .ok (ofString ".OUT \"Step 5: 'done'\"\n") := by
  have hline : ∀ s ∈ ofString "Step 5: \"done\"  ", s.endsLine = false ∧ s ≠ .char ';' ∧
      s ≠ .char '<' ∧ s ≠ .char '>' := by decide
  exact ⟨hline, (convert_message hline (by decide) 8).2 (by decide)⟩

/-- A numeral in a message is written in the notation of the target. -/
theorem message_with_numeral :
    let m := ofString "20"
    (∀ s ∈ m, s.endsLine = false ∧ s ≠ .char ';' ∧ s ≠ .char '<' ∧ s ≠ .char '>') ∧
      m.head?.any (fun s => !s.isBlank) = true ∧
      (convert (ofString "PRINTX " ++ m ++ ofString "\n") [] 8).toOption =
        some (ofString ".OUT \"$10\"\n") := by
  decide +kernel

end Macro10
