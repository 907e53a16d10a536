import Macro10.Proofs.Source.Code
import Macro10.Proofs.Source.Lower
import Macro10.Proofs.Source.Occurrence
import Macro10.Proofs.Totality

/-!
# Comment blocks

Each line of a comment block is one comment, whatever stands in it, and what comes after the block
is read as if it were a source of its own, below the comments (`Reading.ofSource_commentBlock`).
-/

namespace Macro10

open List
open Text (contains ofString upper words)
open Line (blockEnd flatten newline split)

variable {front : List Simple} {line : Line} {later : List Line}

/-! ## Documents with tokens in front -/

/-- A token without brackets: its kind, its text and its position. -/
abbrev Simple := Kind × Text × Position

/-- The token at the place `i` of a row of `size` tokens without a parent. -/
def Simple.token (size i : Nat) (x : Simple) : Token where
  kind := x.1
  text := some x.2.1
  position := some x.2.2
  prev := if i = 0 then none else some (i - 1)
  next := if i + 1 < size then some (i + 1) else none

/-- The token `n` places further on and `k` lines further down. -/
def Token.moved (n k : Nat) (t : Token) : Token :=
  { t with
    position := t.position.map (·.lower k)
    children := t.children.map (·.map (· + n))
    prev := t.prev.map (· + n)
    next := t.next.map (· + n)
    parent := t.parent.map (· + n)
    owner := t.owner.map (· + n)
    parts := t.parts.map (·.map (· + n))
    body := t.body.map (· + n) }

/-- The document `k` lines further down, linked to tokens in front of it. -/
def Document.after (front : List Simple) (k : Nat) (newline : Text) (d : Document) : Document where
  tokens := (front.mapIdx (Simple.token (front.length + d.tokens.size)) ++
    (d.tokens.toList.map (Token.moved front.length k)).modifyHead
      ({ · with prev := some (front.length - 1) })).toArray
  root := List.range front.length ++ d.root.map (· + front.length)
  newline
  diagnostics := d.diagnostics.map (·.lower k)

/-- The reading `k` lines further down, with tokens in front of its document. -/
def Reading.after (front : List Simple) (k : Nat) (newline : Text) (reading : Reading) :
    Reading where
  document := reading.document.after front k newline
  radix := reading.radix
  changes := reading.changes.map (·.lower k)

namespace Forest

/-- The forest with tokens in front of it. -/
def after (front : List Simple) (f : Forest) : Forest :=
  front.foldr (fun x f => .leaf x.1 x.2.1 x.2.2 f) f

@[simp]
theorem after_cons (x : Simple) (front : List Simple) (f : Forest) :
    after (x :: front) f = .leaf x.1 x.2.1 x.2.2 (after front f) := rfl

@[simp]
theorem size_after (front : List Simple) (f : Forest) :
    (after front f).size = front.length + f.size := by
  induction front with
  | nil => simp [after]
  | cons x front ih => rw [after_cons, size, ih, length_cons]; omega

theorem head?_eq (f : Forest) (first : Nat) :
    f.head? first = if 0 < f.size then some first else none := by
  cases f <;> simp [head?, size]

theorem ids_after (front : List Simple) (f : Forest) (first : Nat) :
    (after front f).ids first = List.range' first front.length ++ f.ids (first + front.length) := by
  induction front generalizing first with
  | nil => simp [after]
  | cons x front ih =>
    rw [after_cons, ids, ih, length_cons, range'_succ, cons_append,
      Nat.add_assoc first, Nat.add_comm 1]

theorem tokens_after (front : List Simple) (f : Forest) (first : Nat) (prev : Option Id) :
    (after front f).tokens none first prev =
      front.mapIdx (fun i x =>
        { kind := x.1, text := some x.2.1, position := some x.2.2,
          prev := if i = 0 then prev else some (first + i - 1),
          next := if i + 1 < front.length + f.size then some (first + i + 1) else none }) ++
      f.tokens none (first + front.length)
        (if front.length = 0 then prev else some (first + front.length - 1)) := by
  induction front generalizing first prev with
  | nil => simp [after]
  | cons x front ih =>
    rw [after_cons, tokens, ih, mapIdx_cons, cons_append, head?_eq, size_after]
    have hlast : (if front.length = 0 then some first else some (first + 1 + front.length - 1)) =
        if (x :: front).length = 0 then prev else some (first + (x :: front).length - 1) := by
      split <;> simp_all
    rw [hlast, length_cons, Nat.add_assoc first, Nat.add_comm 1 front.length]
    congr 1
    · congr 1
      exact if_congr (by omega) rfl rfl
    · congr 2
      funext i y
      congr 1
      · cases i with
        | zero => rfl
        | succ i => simp [Nat.add_assoc, Nat.add_comm 1]
      · exact if_congr (by omega) (by rw [Nat.add_assoc first, Nat.add_comm 1]) rfl

@[simp]
theorem size_lower (k : Nat) (f : Forest) : (f.lower k).size = f.size := by
  induction f with
  | nil => rfl
  | leaf kind text position rest ih => rw [lower, size, size, ih]
  | group position closed children rest ihc ih => rw [lower, size, size, ihc, ih]

theorem ids_lower (n k : Nat) (f : Forest) (first : Nat) :
    (f.lower k).ids (first + n) = (f.ids first).map (· + n) := by
  induction f generalizing first with
  | nil => rfl
  | leaf kind text position rest ih =>
    rw [lower, ids, ids, map_cons, ← ih, Nat.add_right_comm]
  | group position closed children rest _ ih =>
    have hafter : first + n + children.size + 1 = first + children.size + 1 + n := by omega
    rw [lower, ids, ids, map_cons, ← ih, size_lower, hafter]

theorem tokens_lower (n k : Nat) (f : Forest) (parent : Option Id) (first : Nat)
    (prev : Option Id) :
    (f.lower k).tokens (parent.map (· + n)) (first + n) (prev.map (· + n)) =
      (f.tokens parent first prev).map (Token.moved n k) := by
  induction f generalizing parent first prev with
  | nil => rfl
  | leaf kind text position rest ih =>
    have hnext : (rest.lower k).head? (first + n + 1) = (rest.head? (first + 1)).map (· + n) := by
      rw [head?_eq, head?_eq, size_lower]
      split <;> simp [Nat.add_right_comm]
    have hrest := ih parent (first + 1) (some first)
    rw [Nat.add_right_comm first 1 n] at hrest
    rw [lower, tokens, tokens, map_cons, ← hrest, hnext]
    rfl
  | group position closed children rest ihc ih =>
    have hafter : first + n + children.size + 1 = first + children.size + 1 + n := by omega
    have hnext : (rest.lower k).head? (first + children.size + 1 + n) =
        (rest.head? (first + children.size + 1)).map (· + n) := by
      rw [head?_eq, head?_eq, size_lower]
      split <;> rfl
    have hchildren := ihc (some first) (first + 1) none
    have hids := ids_lower n k children (first + 1)
    rw [Nat.add_right_comm first 1 n] at hchildren hids
    simp only [lower, tokens, size_lower, hafter, hnext, hids, map_cons, map_append]
    rw [← hchildren, ← ih parent (first + children.size + 1) (some first)]
    rfl

/-- The sibling before the first token shows in that token only. -/
theorem tokens_with_prev (f : Forest) (parent : Option Id) (first : Nat) (prev prev' : Option Id) :
    f.tokens parent first prev' =
      (f.tokens parent first prev).modifyHead ({ · with prev := prev' }) := by
  cases f <;> rfl

end Forest

theorem Document.ofForest_after (hfront : front ≠ []) (k : Nat) (f : Forest)
    (newline newline' : Text) (diagnostics : List Diagnostic) :
    ofForest (Forest.after front (f.lower k)) newline (diagnostics.map (·.lower k)) =
      (ofForest f newline' diagnostics).after front k newline := by
  have hlength : front.length ≠ 0 := by simpa using hfront
  have htokens := Forest.tokens_lower front.length k f none 0 none
  have hids := Forest.ids_lower front.length k f 0
  rw [Nat.zero_add] at htokens hids
  simp only [ofForest, after, Forest.ids_after, Forest.tokens_after, Forest.size_lower,
    Nat.zero_add, hids, range_eq_range', hlength, if_false, size_toArray,
    Forest.length_tokens]
  rw [Forest.tokens_with_prev _ _ _ none, ← htokens]
  rfl

/-! ## Reading a block -/

/-- Each line as a comment, with its terminator after it; the first one has the given number. -/
def Line.remarks (number : Nat) : List Line → List Simple
  | [] => []
  | line :: lines =>
    (.comment, .char ';' :: line.content, ⟨number, 1⟩) ::
      (line.terminator.toList.map fun t =>
        (.whitespace, t.text, ⟨number, line.content.length + 1⟩)) ++
      remarks (number + 1) lines

namespace Forest

/-- Tokens on top of a forest whose last tree comes first. -/
def onTop (front : List Simple) (base : Forest) : Forest :=
  front.foldl (fun f x => .leaf x.1 x.2.1 x.2.2 f) base

theorem reverseOnto_onTop (front : List Simple) (base done : Forest) :
    (onTop front base).reverseOnto done = base.reverseOnto (after front done) := by
  induction front generalizing base with
  | nil => rfl
  | cons x front ih => exact ih _

end Forest

theorem Line.kind_of_mem_remarks {number : Nat} {lines : List Line} {x : Simple}
    (h : x ∈ remarks number lines) : x.1 = .comment ∨ x.1 = .whitespace := by
  induction lines generalizing number with
  | nil => cases h
  | cons line lines ih =>
    rcases mem_append.mp h with h | h
    · rcases mem_cons.mp h with rfl | h
      · exact .inl rfl
      · obtain ⟨t, -, rfl⟩ := mem_map.mp h
        exact .inr rfl
    · exact ih h

theorem Line.not_isMark_remarks (number : Nat) (lines : List Line) :
    (Forest.onTop (remarks number lines) .nil).items.head?.any Reader.isMark = false := by
  rcases eq_nil_or_concat (remarks number lines) with hnil | ⟨front, x, hfront⟩
  · rw [hnil]
    rfl
  · have hx : x ∈ remarks number lines := by simp [hfront]
    rw [hfront, concat_eq_append, Forest.onTop, foldl_append]
    rcases kind_of_mem_remarks hx with hkind | hkind <;> simp [Forest.items, Reader.isMark, hkind]

namespace Reader

theorem putCommentLine_eq (r : Reader) (number : Nat) (line : Line) :
    r.putCommentLine number line =
      { r with scope := Forest.onTop (Line.remarks number [line]) r.scope } := by
  rw [putCommentLine]
  cases ht : line.terminator <;> simp [putTerminator, put, Forest.onTop, Line.remarks, ht]

theorem putBlockLine_eq (r : Reader) (number : Nat) (h : line.text ≠ []) :
    r.putBlockLine number line =
      { r with scope := Forest.onTop (Line.remarks number [line]) r.scope } := by
  rw [putBlockLine, if_neg, putCommentLine_eq]
  intro hempty
  rw [Bool.and_eq_true, List.isEmpty_iff, Option.isNone_iff_eq_none] at hempty
  exact h (by rw [Line.text, Line.ending, hempty.1, hempty.2]; rfl)

theorem readLines_block {m : Text} {before : List Line} (r : Reader) (number : Nat)
    (hbefore : ∀ l ∈ before, contains m l.content = false)
    (hline : contains m line.content = true)
    (htext : ∀ l ∈ before ++ [line], l.text ≠ []) (later : List Line) :
    r.readLines number (some m) (before ++ line :: later) =
      { r with scope := Forest.onTop (Line.remarks number (before ++ [line])) r.scope }.readLines
        (number + (before ++ [line]).length) none later := by
  induction before generalizing r number with
  | nil =>
    rw [nil_append, readLines, if_pos hline, putBlockLine_eq r number (htext line (by simp))]
    rfl
  | cons first before ih =>
    obtain ⟨hfirst, hbefore⟩ := forall_mem_cons.mp hbefore
    obtain ⟨hfirstText, htext⟩ := forall_mem_cons.mp htext
    rw [cons_append, readLines, if_neg (by simp [hfirst]), putBlockLine_eq r number hfirstText,
      ih _ _ hbefore htext]
    simp [Line.remarks, Forest.onTop, foldl_append, Nat.add_assoc, Nat.add_comm 1]

theorem readLines_of_split {rest : Text} (hrest : rest = flatten later)
    (hlater : later ≠ [] → split (flatten later) = later) (r : Reader) (number : Nat) :
    r.readLines number none later = r.readLines number none (split rest) := by
  by_cases hnil : later = []
  · subst hnil hrest
    rfl
  · rw [hrest, hlater hnil]

end Reader

theorem Reading.ofSource_eq (source : Text) (radix : Option Int) :
    ofSource source radix = (({ radix } : Reader).readLines 1 none (split source)).map
      (·.finish (newline (split source))) := by
  rw [ofSource]
  cases ({ radix } : Reader).readLines 1 none (split source) <;> rfl

theorem Reader.finish_lower (hfront : front ≠ []) (k : Nat) (r : Reader) (newline newline' : Text) :
    (r.lower k (Forest.onTop front .nil)).finish newline =
      (r.finish newline').after front k newline := by
  have hforest := forest_lower k (Forest.onTop front .nil) r
  rw [Forest.reverseOnto_onTop, Forest.reverseOnto] at hforest
  rw [finish, finish, hforest, diagnostics_lower, Document.ofForest_after hfront k _ _ newline']
  have hends := endGroups_lower k (Forest.onTop front .nil) r r.frames
  exact congrArg (fun r' : Reader => Reading.mk _ r'.radix r'.changes) hends

/-- The line that opens a comment block is a comment, and the block is read next. -/
theorem Reader.readLines_opening {opening word marker : Text}
    (hopening : ∀ s ∈ opening, s ≠ .char '<' ∧ s ≠ .char '>')
    (hwords : words opening = [word, marker]) (hword : upper word = Keyword.commentBlock)
    (hmarker : later.any fun l => contains marker l.content)
    (r : Reader) (number : Nat) (terminator : Option Terminator) :
    r.readLines number none (⟨opening, terminator⟩ :: later) =
      { r with scope :=
        Forest.onTop (Line.remarks number [⟨opening, terminator⟩]) r.scope }.readLines
        (number + 1) (some marker) later := by
  have hclass : LineClass.ofSegment ⟨1, opening, .lineEnd⟩ = .commentBlock marker := by
    simp [LineClass.ofSegment, hwords, hword]
  have hsegments : Segment.segments opening = [⟨1, opening, .lineEnd⟩] :=
    Segment.segmentsFrom_of_no_bracket 1 [] .code hopening
  simp only [readLines, hsegments, readSegments, endLine, hclass, hmarker, if_true,
    putCommentLine_eq]

/-- **A comment block is opaque.** If a source starts with the line of a comment block, then each
line up to the end of the block is a comment, and the rest of the source is read as if it were a
source of its own, some lines further down. -/
theorem Reading.ofSource_commentBlock {opening word marker body : Text} {terminator : Terminator}
    (hopening : ∀ s ∈ opening, s.endsLine = false ∧ s ≠ .char '<' ∧ s ≠ .char '>')
    (hwords : words opening = [word, marker]) (hword : upper word = Keyword.commentBlock)
    (hterminator : terminator = .carriageReturn → body.head? ≠ some (.char '\n'))
    (hmarker : contains marker body = true) (radix : Option Int) :
    let source := opening ++ terminator.text ++ body
    let block := body.take (blockEnd marker body)
    let lines := ⟨opening, some terminator⟩ :: (split block).filter (·.text ≠ [])
    ofSource source radix =
      ((ofSource (body.drop (blockEnd marker body)) radix).mapError
        (Interruption.lower lines.length)).map
        (Reading.after (Line.remarks 1 lines) lines.length (newline (split source))) := by
  intro source block lines
  have hmem : marker ∈ words opening := by simp [hwords]
  have hne : marker ≠ [] := Text.ne_nil_of_mem_words hmem
  have hends : ∀ s ∈ marker, s.endsLine = false := fun s hs =>
    (hopening s ((Text.infix_of_mem_words hmem).subset hs)).1
  obtain ⟨before, line, later, hblock⟩ := Line.exists_block hne hends hmarker
  have hsplit : split body = (before ++ [line]) ++ later := by simp [hblock.lines]
  have htext := hblock.text_ne_nil hne
  obtain ⟨htake, hdrop⟩ := hblock.take_eq
  have hlines : lines = ⟨opening, some terminator⟩ :: (before ++ [line]) := by
    show _ :: List.filter _ (split block) = _
    rw [show block = flatten (before ++ [line]) from htake,
      Line.filter_split_flatten hsplit (by simpa using htext line (by simp))]
  have hsource : split source = ⟨opening, some terminator⟩ :: split body :=
    Line.split_text_append (fun s hs => (hopening s hs).1) hterminator
  have hread : ({ radix } : Reader).readLines 1 none (split source) =
      (({ radix } : Reader).lower lines.length (Forest.onTop (Line.remarks 1 lines) .nil)).readLines
        (1 + lines.length) none later := by
    rw [hsource, Reader.readLines_opening (fun s hs => (hopening s hs).2) hwords hword (by
        simp [hblock.lines, hblock.found]), hblock.lines,
      Reader.readLines_block _ 2 hblock.missing hblock.found htext, hlines]
    simp [Line.remarks, Forest.onTop, Reader.lower, Reader.lowerRow, Reader.lowerFrames,
      Forest.lower, Forest.append, Nat.add_comm, Nat.add_left_comm]
  have hrest := Reader.readLines_of_split hdrop (Line.split_flatten_rest hsplit) { radix } 1
  rw [Reading.ofSource_eq, Reading.ofSource_eq, hread,
    Reader.readLines_lower _ (Line.not_isMark_remarks _ _), hrest]
  cases ({ radix } : Reader).readLines 1 none
      (split (body.drop (blockEnd marker body))) with
  | error interruption => rfl
  | ok r => exact congrArg Except.ok (Reader.finish_lower (by simp [hlines, Line.remarks]) _ r _ _)

/-- Neither the radix directive nor the bracket and the quote of the block count. -/
theorem Reading.ofSource_commentBlock_quoted :
    let opening := ofString "comment *"
    let body := ofString "RADIX 2 <\n\"x *y\r\nLDA 9\n"
    contains (ofString "*") body = true ∧
      ofSource (opening ++ Terminator.lineFeed.text ++ body) (some 8) =
        ((ofSource (ofString "LDA 9\n") (some 8)).mapError (Interruption.lower 3)).map
          (Reading.after (Line.remarks 1 [⟨opening, some .lineFeed⟩,
            ⟨ofString "RADIX 2 <", some .lineFeed⟩, ⟨ofString "\"x *y", some .both⟩])
            3 (ofString "\n")) := by
  intro opening body
  have hopening : ∀ s ∈ opening, s.endsLine = false ∧ s ≠ .char '<' ∧ s ≠ .char '>' := by decide
  have hwords : words opening = ["comment", "*"] := by decide
  have hword : upper "comment" = Keyword.commentBlock := by decide
  have hterminator : Terminator.lineFeed = .carriageReturn → body.head? ≠ some (.char '\n') := nofun
  have hmarker : contains "*" body = true := by decide
  have hdrop : body.drop (blockEnd "*" body) = "LDA 9\n" := by
    decide
  have hlines : (split (body.take (blockEnd "*" body))).filter
      (·.text ≠ []) = [⟨"RADIX 2 <", some .lineFeed⟩,
        ⟨"\"x *y", some .both⟩] := by decide
  have hnewline : newline (split (opening ++ Terminator.lineFeed.text ++ body)) =
      "\n" := by decide
  have hblock := ofSource_commentBlock hopening hwords hword hterminator hmarker (some 8)
  simp only [hlines, hdrop, hnewline] at hblock
  exact ⟨hmarker, hblock⟩

end Macro10
