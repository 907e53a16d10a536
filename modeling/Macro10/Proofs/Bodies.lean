import Macro10.Proofs.Composition
import Macro10.Proofs.Row.Rewriters
import Macro10.Proofs.Source.Code

/-!
# Bodies of directives

The body of a directive is converted as if it were a source of its own (`convert_directive`): the
brackets around it change neither how its lines are read nor what becomes of them.
-/

namespace Macro10

open List
open Stretch (linesAfter ofCode)
open Row (arguments leaves nameOf)
open Lexeme (lexemes)

/-- The line that starts a directive that is about the name `c`, or one that needs no name, up to
the bracket that opens its body. -/
def Head.sourceLine (c : Text) : Head → Text
  | .ifZero => "IFE " ++ c ++ ","
  | .ifNotZero => "IFN " ++ c ++ ","
  | .ifFirstPass => "IF1,"
  | .ifSecondPass => "IF2,"
  | .define => "DEFINE " ++ c

namespace Head

variable {c : Text}

theorem sourceLine_eq (c : Text) (head : Head) :
    head.sourceLine c = head.keyword ++ (arguments c head).flatMap Piece.text := by
  cases head <;> simp [sourceLine, keyword, arguments, Text.ofString]

theorem lexemes_sourceLine (hc : Lexeme.IsName c) (radix : Int) (head : Head) :
    (lexemes (head.sourceLine c)).map (fun l => Piece.made l.kind l.text) =
        nameOf head.keyword :: arguments c head ∧
      ∀ l ∈ lexemes (head.sourceLine c), l.IsLasting radix := by
  have hkeyword : Lexeme.IsName head.keyword := by cases head <;> decide
  have hcomma : ∀ l ∈ lexemes [.char ','], l.IsLasting radix :=
    forall_mem_singleton.mpr ⟨by decide, by decide⟩
  rw [sourceLine_eq]
  cases head with
  | ifZero | ifNotZero =>
    change (lexemes (_ ++ (.char ' ' :: (c ++ [.char ','])))).map _ = _ ∧
      ∀ l ∈ lexemes (_ ++ (.char ' ' :: (c ++ [.char ',']))), _
    rw [hkeyword.lexemes_append rfl, Lexeme.lexemes_space (hc.head?_isBlank _),
      hc.lexemes_append rfl]
    exact ⟨rfl, forall_mem_cons.mpr ⟨trivial, forall_mem_cons.mpr
      ⟨trivial, forall_mem_cons.mpr ⟨trivial, hcomma⟩⟩⟩⟩
  | ifFirstPass | ifSecondPass =>
    change (lexemes (_ ++ [.char ','])).map _ = _ ∧ ∀ l ∈ lexemes (_ ++ [.char ',']), _
    rw [hkeyword.lexemes_append rfl]
    exact ⟨rfl, forall_mem_cons.mpr ⟨trivial, hcomma⟩⟩
  | define =>
    change (lexemes (_ ++ (.char ' ' :: (c ++ [])))).map _ = _ ∧
      ∀ l ∈ lexemes (_ ++ (.char ' ' :: (c ++ []))), _
    rw [hkeyword.lexemes_append rfl, Lexeme.lexemes_space (hc.head?_isBlank _),
      hc.lexemes_append rfl]
    exact ⟨rfl, forall_mem_cons.mpr ⟨trivial, forall_mem_cons.mpr
      ⟨trivial, forall_mem_cons.mpr ⟨trivial, forall_mem_nil _⟩⟩⟩⟩

theorem isPlain_sourceLine (hc : Lexeme.IsName c) (head : Head) :
    ∀ s ∈ head.sourceLine c, Segment.isPlain s = true ∧ s.endsLine = false := by
  have hname : ∀ s ∈ c, Segment.isPlain s = true ∧ s.endsLine = false := fun s hs =>
    Segment.isPlain_of_isNameSymbol (hc.isNameSymbol s hs)
  cases head with
  | ifZero | ifNotZero =>
    exact forall_mem_append.mpr ⟨forall_mem_append.mpr ⟨by decide, hname⟩, by decide⟩
  | ifFirstPass | ifSecondPass =>
    rw [sourceLine]
    decide
  | define => exact forall_mem_append.mpr ⟨by decide, hname⟩

theorem isSuppressed_sourceLine (c : Text) (head : Head) :
    Keyword.isSuppressed (head.sourceLine c) = false := by
  cases head <;> rfl

end Head

theorem Line.exists_split_directive {b x : Text} (hb : Whole b)
    (hstart : b.head?.any Symbol.endsLine = true) (hx : ∀ s ∈ x, s.endsLine = false)
    (t : Terminator) :
    ∃ t₀ lines, split b = ⟨[], some t₀⟩ :: lines ++ [empty] ∧
      (∀ line ∈ lines, line.terminator.isSome) ∧
      split (x ++ (b ++ .char '>' :: t.text)) =
        ⟨x, some t₀⟩ :: lines ++ [⟨[.char '>'], some t⟩, empty] := by
  have hmerges : ¬Merges b (.char '>' :: t.text) := fun h => by cases h.2
  obtain ⟨lines, hsplit, happend, hlines⟩ := exists_split_append hb hmerges
  obtain ⟨t₀, rest, hfirst⟩ := exists_split_eq_cons hstart
  have hclosing : split (.char '>' :: t.text) = [⟨[.char '>'], some t⟩, empty] := by
    cases t <;> rfl
  cases lines with
  | nil => cases hsplit.symm.trans hfirst
  | cons line lines =>
    obtain ⟨rfl, -⟩ := List.cons.inj (hsplit.symm.trans hfirst)
    refine ⟨t₀, lines, hsplit, (forall_mem_cons.mp hlines).2, ?_⟩
    rw [hclosing] at happend
    rw [split_append_of_not_endsLine hx happend, append_nil]
    rfl

theorem Line.allStretches_directive {x : Text} (hplain : ∀ s ∈ x, Segment.isPlain s = true)
    (hcode : Keyword.isSuppressed x = false) {t₀ : Terminator} {lines : List Line}
    (hlines : ∀ line ∈ lines, line.terminator.isSome)
    (hended : ∀ m, .unended m ∉ allStretches none (⟨[], some t₀⟩ :: lines ++ [empty]))
    (t : Terminator) :
    allStretches none (⟨x ++ [.char '<'], some t₀⟩ :: lines ++ [⟨[.char '>'], some t⟩, empty]) =
      ofCode x ++ .opening :: (allStretches none (⟨[], some t₀⟩ :: lines ++ [empty]) ++
        [.closing, .terminator t]) := by
  have hfirst (later : List Line) :
      allStretches none (⟨[], some t₀⟩ :: later) = .terminator t₀ :: allStretches none later := rfl
  have hopening (later : List Line) : allStretches none (⟨x ++ [.char '<'], some t₀⟩ :: later) =
      ofCode x ++ .opening :: .terminator t₀ :: allStretches none later := by
    have hclass : LineClass.ofSegment ⟨x.length + 2, [], .lineEnd⟩ = .code := by
      rw [LineClass.ofSegment, if_pos (by simp)]
    simp only [allStretches, Segment.segments_opening hplain hcode, stretches, endStretches, hclass]
    simp [ofCode, ended]
  rw [cons_append, hfirst] at hended
  obtain ⟨xs, -, hxs⟩ := exists_allStretches_append hlines (fun _ h => by cases h) fun m hm =>
    hended m (mem_cons_of_mem _ hm)
  rw [cons_append, cons_append, hopening, hfirst, hxs, hxs]
  simp
  rfl

namespace Reader

variable {r : Reader} {c : Text} {radix : Int}

theorem forest_of_rows {row : List Item} (h : r.rows = [row]) : r.forest.items = row.reverse := by
  obtain ⟨hscope, hframes⟩ := List.cons.inj h
  rw [forest_of_frames (map_eq_nil_iff.mp hframes), Forest.items_reverse, hscope]

theorem exists_takeAll_closing {row row' : List Item} (hrows : r.rows = [row, row'])
    (line column : Nat) (t : Terminator) :
    ∃ s, r.takeAll line column [.closing, .terminator t] = .ok s ∧
      s.rows = [Item.made .whitespace t.text :: closedGroup row.reverse :: row'] := by
  refine ⟨_, rfl, ?_⟩
  rw [rows_put, rows_closeGroup hrows (cons_ne_nil _ _)]
  rfl

/-- A directive around stretches that leave nothing open is read as a group with what the stretches
alone are read as. -/
theorem exists_takeAll_directive (hc : Lexeme.IsName c) (head : Head) {xs : List Stretch}
    (hframes : r.frames = []) (hquiet : r.Quiet)
    (h : ({ radix := some radix } : Reader).takeAll 1 1 xs = .ok r) (t : Terminator) :
    ∃ s, ({ radix := some radix } : Reader).takeAll 1 1
        (ofCode (head.sourceLine c) ++ .opening :: (xs ++ [.closing, .terminator t])) =
          .ok s ∧
      s.forest.items = leaves (nameOf head.keyword :: arguments c head) ++
        closedGroup r.forest.items :: leaves [.made .whitespace t.text] := by
  obtain ⟨hpieces, hlasting⟩ := head.lexemes_sourceLine hc radix
  obtain ⟨s₀, hs₀, hradix, hframes₀, hitems⟩ := exists_takeAll_lasting
    (r := { radix := some radix }) rfl rfl
    (fun l hl => ⟨Lexeme.proper_of_mem_lexemes hl, hlasting l hl⟩) 1 1
  generalize hrow : leaves (nameOf head.keyword :: arguments c head) = row
  have hitems₀ : s₀.scope.items = row.reverse := by
    rw [hitems, ← hrow, ← hpieces, leaves, List.map_map]
    exact append_nil _
  rw [takeAll_append, ofCode, hs₀]
  generalize linesAfter 1 _ = line, Stretch.columnsAfter 1 _ = column
  change ∃ s, (s₀.openGroup ⟨line, column⟩).takeAll line (column + 1) _ = .ok s ∧ _
  -- What the stretches are read as comes to stand inside the group.
  have hover : Over [] [row.reverse] { radix := some radix } (s₀.openGroup ⟨line, column⟩) :=
    ⟨hradix, by rw [rows_openGroup, rows, hframes₀, hitems₀]; rfl⟩
  obtain ⟨s₁, hs₁, hover₁⟩ := hover.exists_takeAll rfl h (.inr hquiet) line (column + 1)
  have hrows₁ : s₁.rows = [r.scope.items, row.reverse] := by
    rw [hover₁.rows, rows, hframes, map_nil, stacked, append_nil]
  obtain ⟨s, hs, hrows⟩ := exists_takeAll_closing hrows₁ (linesAfter line xs)
    (Stretch.columnsAfter (column + 1) xs) t
  refine ⟨s, ?_, ?_⟩
  · rw [takeAll_append, hs₁]
    exact hs
  · rw [forest_of_rows hrows, forest_of_frames hframes, Forest.items_reverse]
    simp [leaves, Item.made]

end Reader

/-- **The body of a directive is converted as a source of its own.** -/
theorem convert_directive (head : Head) {c b : Text} {radix : Int} {reading : Reading}
    (hname : Lexeme.IsName c) (hc : Row.Ordinary c) (hwhole : Line.Whole b)
    (hstart : b.head?.any Symbol.endsLine = true)
    (hreading : Reading.ofSource b (some radix) = .ok reading) (hclosed : reading.Closed)
    (hquiet : ∀ d ∈ reading.document.diagnostics, d.problem ≠ .unmatchedClose)
    {newline : Text} (hnewline : Line.newline (Line.split b) = newline) :
    ∃ out, convert b [] radix = .ok out ∧
      convert (head.sourceLine c ++ [.char '<'] ++ b ++ [.char '>'] ++ newline) [] radix =
        .ok (Row.targetLine c head ++ newline ++ out ++ newline ++ Row.closingLine head ++
          newline) := by
  obtain ⟨r, hr, rfl⟩ := Reading.ofSource_eq_ok.mp hreading
  have hquiet' : r.Quiet := fun d hd =>
    hquiet d ((Reader.diagnostics_endGroups r r.frames).subset hd)
  obtain ⟨t, ht⟩ := Line.exists_newline_eq (Line.split b)
  have hx : ∀ s ∈ head.sourceLine c ++ [.char '<'], s.endsLine = false :=
    forall_mem_append.mpr ⟨fun s hs => (Head.isPlain_sourceLine hname head s hs).2, by decide⟩
  obtain ⟨t₀, lines, hsplit, hlines, hsource⟩ := Line.exists_split_directive hwhole hstart hx t
  have htake := Reader.readLines_split_eq_ok.mp hr
  have hended := Reader.not_unended_of_closed hclosed htake
  obtain ⟨s, hs, hitems⟩ := Reader.exists_takeAll_directive hname head
    (Reader.frames_of_closed hclosed) hquiet' htake t
  rw [Text.stretches, hsplit] at hs hended
  rw [← Line.allStretches_directive (fun s hs => (Head.isPlain_sourceLine hname head s hs).1)
    (Head.isSuppressed_sourceLine c head) hlines hended, ← hsource] at hs
  have hs := Reader.readLines_split_eq_ok.mpr hs
  have hsource' : head.sourceLine c ++ [.char '<'] ++ b ++ [.char '>'] ++ newline =
      head.sourceLine c ++ [.char '<'] ++ (b ++ .char '>' :: t.text) := by
    rw [← hnewline, ht]
    simp
  refine ⟨_, convert_of_readLines hr [], ?_⟩
  have hnewline' : Line.newline (Line.split
      (head.sourceLine c ++ [.char '<'] ++ (b ++ .char '>' :: t.text))) = t.text := by
    rw [hsource]
    refine (Line.newline_congr ?_).trans (Line.newline_append (hsplit ▸ ht) [.char '>'])
    rfl
  obtain rfl : t.text = newline := ht.symm.trans hnewline
  have hend : (Piece.made .whitespace t.text).isNewline = true := by cases t <;> decide
  rw [hsource', convert_of_readLines hs, hnewline', hnewline, Forest.converted, hitems,
    Reader.closedGroup, Row.textOf_directive head hc rfl hend]
  simp [Forest.converted]

/-- A body with a macro and a bare numeral in it, and lines that end with two characters. -/
theorem convert_directive_ifNotZero :
    ∃ out, convert "\r\nDEFINE ONE<17>\r\n\r\n 17\r\n" [] 8 = .ok out ∧
      convert "IFN DEBUG,<\r\nDEFINE ONE<17>\r\n\r\n 17\r\n>\r\n" [] 8 =
        .ok (".IF DEBUG <> 0" ++ "\r\n" ++ out ++ "\r\n" ++ ".ENDIF" ++ "\r\n") := by
  obtain ⟨reading, hreading, h⟩ := exists_eq_ok_of_any
    (x := Reading.ofSource "\r\nDEFINE ONE<17>\r\n\r\n 17\r\n" (some 8))
    (p := fun reading => decide (reading.Closed ∧
      ∀ d ∈ reading.document.diagnostics, d.problem ≠ .unmatchedClose)) (by decide +kernel)
  obtain ⟨hclosed, hquiet⟩ := of_decide_eq_true h
  exact convert_directive .ifNotZero (c := "DEBUG") (by decide) (by decide)
    (by decide) (by decide) hreading hclosed hquiet (by decide)

end Macro10
