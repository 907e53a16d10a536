import Macro10.Proofs.Operands

/-!
# Macro definitions

The name of a macro and its parameters become a line of words with one blank between them, whatever
their number and whatever blanks stand before the body (`convert_definition`).
-/

namespace Macro10

open List
open Piece (made text)
open Text (ofString)
open Lexeme (IsName lexemes)

namespace Row

variable {n : Text} {ps : List Text} {gaps : List Piece}

/-! ## The arguments of a definition -/

section Lists

variable {p : Item → Bool} {g : Item → Item} {x : Item} {us vs : List Item}

theorem modifyFirst_append (hus : ∀ y ∈ us, p y = false) (hx : p x = true) :
    modifyFirst p g (us ++ x :: vs) = us ++ g x :: vs := by
  induction us with
  | nil => simp [modifyFirst, hx]
  | cons y us ih =>
    obtain ⟨hy, hus⟩ := forall_mem_cons.mp hus
    rw [cons_append, modifyFirst, hy, ih hus]
    rfl

theorem modifyLast_append (hvs : ∀ y ∈ vs, p y = false) (hx : p x = true) :
    modifyLast p g (us ++ x :: vs) = us ++ g x :: vs := by
  rw [modifyLast, reverse_append, reverse_cons, append_assoc, singleton_append,
    modifyFirst_append (by simpa using hvs) hx]
  simp

end Lists

/-- Blanks at the end go, up to a piece that is no blank. -/
theorem blankLeading_reverse {p : Piece} {vs : List Piece} (hp : p.isBlank = false)
    (hvs : ∀ q ∈ vs, q.isBlank = true) (us : List Piece) :
    (blankLeading (leaves (us ++ [p] ++ vs)).reverse).reverse =
      leaves (us ++ [p] ++ vs.map Piece.blanked) := by
  have hleading {ws : List Piece} (hws : ∀ q ∈ ws, q.isBlank = true) (rest : List Item) :
      blankLeading (leaves ws ++ .node p [] :: rest) =
        leaves (ws.map Piece.blanked) ++ .node p [] :: rest := by
    induction ws with
    | nil => exact if_neg (by simp [hp])
    | cons q ws ih =>
      obtain ⟨hq, hws⟩ := forall_mem_cons.mp hws
      exact (if_pos hq).trans (congrArg (.node q.blanked [] :: ·) (ih hws))
  have hreverse (vs : List Piece) : (leaves (us ++ [p] ++ vs)).reverse =
      leaves vs.reverse ++ .node p [] :: (leaves us).reverse := by
    simp [leaves]
  rw [hreverse, hleading (by simpa using hvs), ← reverse_reverse (leaves (_ ++ List.map _ _)),
    hreverse, map_reverse]

/-- The parameters, each as `name` gives it, with separators between them. -/
def parameters {α : Type} (separator : α) (name : Text → α) : List Text → List α
  | [] => []
  | p :: ps => name p :: ps.flatMap fun q => [separator, name q]

section Parameters

variable {α β : Type} {separator : α} {name : Text → α}

theorem map_parameters (f : α → β) (ps : List Text) :
    (parameters separator name ps).map f = parameters (f separator) (f ∘ name) ps := by
  cases ps <;> simp [parameters, map_flatMap]

theorem eq_of_mem_parameters {x : α} (h : x ∈ parameters separator name ps) :
    x = separator ∨ ∃ p ∈ ps, x = name p := by
  cases ps with
  | nil => cases h
  | cons p ps =>
    simp only [parameters, mem_cons, mem_flatMap, not_mem_nil, or_false] at h
    rcases h with rfl | ⟨q, hq, rfl | rfl⟩
    · exact .inr ⟨p, by simp, rfl⟩
    · exact .inl rfl
    · exact .inr ⟨q, by simp [hq], rfl⟩

/-- Parameters end with a name. -/
theorem exists_parameters_eq (separator : α) (name : Text → α) (p : Text) (ps : List Text) :
    ∃ front last, parameters separator name (p :: ps) = front ++ [name last] := by
  rcases eq_nil_or_concat ps with rfl | ⟨qs, q, rfl⟩
  · exact ⟨[], p, rfl⟩
  · exact ⟨name p :: qs.flatMap (fun q => [separator, name q]) ++ [separator], q,
      by simp [parameters]⟩

end Parameters

theorem flatMap_text_parameters (separator : Piece) (ps : List Text) :
    (parameters separator nameOf ps).flatMap text = List.intercalate separator.text ps := by
  cases ps with
  | nil => rfl
  | cons p ps =>
    induction ps generalizing p with
    | nil => simp [parameters]
    | cons q ps ih =>
      rw [intercalate_cons_cons, ← ih]
      simp [parameters]

/-- The arguments of the definition of a macro; `gaps` is what stands before the body. -/
def definitionArguments (n : Text) (ps : List Text) (gaps : List Piece) : List Piece :=
  [blank, nameOf n, .made .operator "("] ++ parameters comma nameOf ps ++
    .made .operator ")" :: gaps

theorem isArgument_definitionArguments (hgaps : ∀ p ∈ gaps, p.isBlank = true)
    (hordinary : ∀ w ∈ n :: ps, Ordinary w) :
    ∀ p ∈ definitionArguments n ps gaps, IsArgument p := by
  obtain ⟨hn, hps⟩ := forall_mem_cons.mp hordinary
  have hparenthesis : IsArgument (.made .operator "(") ∧ IsArgument (.made .operator ")") :=
    ⟨⟨⟨nofun, by decide, by decide⟩, by decide⟩, ⟨nofun, by decide, by decide⟩, by decide⟩
  refine forall_mem_append.mpr ⟨forall_mem_append.mpr ⟨?_, fun p hp => ?_⟩,
    forall_mem_cons.mpr ⟨hparenthesis.2, fun p hp => ?_⟩⟩
  · simp [isArgument_blank, isArgument_nameOf hn.1, hparenthesis.1]
  · rcases eq_of_mem_parameters hp with rfl | ⟨w, hw, rfl⟩
    · exact isArgument_comma
    · exact isArgument_nameOf (hps w hw).1
  · exact ⟨inert_of_whitespace (Piece.kind_of_isBlank (hgaps p hp)),
      Piece.isNewline_of_isBlank (hgaps p hp)⟩

/-- A blank in the place of an operator. -/
abbrev spacedOf (text : Text) : Piece := (made .operator text).blanked.setText " "

theorem separated_definition (hgaps : ∀ p ∈ gaps, p.kind = .whitespace) :
    separated (·.value.isOperator) spaced Item.blanked (leaves (definitionArguments n ps gaps)) =
      leaves ([blank, nameOf n, spacedOf "("] ++ parameters (spacedOf ",") nameOf ps ++
        (made .operator ")").blanked :: gaps) := by
  have hgap : ∀ y ∈ leaves gaps, ∀ text, y.value.isOperator text = false := by
    rintro y hy text
    obtain ⟨p, hp, rfl⟩ := mem_map.mp hy
    exact Piece.isOperator_of_kind_ne (by simp [hgaps p hp]) text
  have hfirst : modifyFirst (·.value.isOperator "(") spaced
      (leaves (definitionArguments n ps gaps)) =
        leaves ([blank, nameOf n, spacedOf "("] ++ parameters comma nameOf ps) ++
          .node (.made .operator ")") [] :: leaves gaps := by
    rw [definitionArguments, leaves_append, leaves_append]
    rfl
  have hparameters : (leaves (parameters comma nameOf ps)).map
      (fun x => if x.value.isOperator "," then spaced x else x) =
        leaves (parameters (spacedOf ",") nameOf ps) := by
    rw [leaves, map_parameters, map_parameters, leaves, map_parameters]
    rfl
  have hspaces : (leaves gaps).map (fun x => if x.value.isOperator "," then spaced x else x) =
      leaves gaps :=
    (map_congr_left fun y hy => if_neg (by simp [hgap y hy])).trans (List.map_id' _)
  rw [separated, hfirst, modifyLast_append (hgap · · _) rfl, leaves_append, map_append,
    map_append, map_cons, hparameters, hspaces, leaves_append, leaves_append]
  rfl

/-- The words that are left of the arguments, and the blanks after them. -/
theorem exists_words (n : Text) (ps : List Text) :
    ∃ front last blanks, [blank, nameOf n, spacedOf "("] ++ parameters (spacedOf ",") nameOf ps =
        front ++ [nameOf last] ++ blanks ∧ (∀ q ∈ blanks, q.isBlank = true) ∧
      (front ++ [nameOf last]).flatMap text = " " ++ List.intercalate " " (n :: ps) ∧
      ∀ q ∈ front ++ [nameOf last], q.kind = .whitespace ∨ ∃ w ∈ n :: ps, q = nameOf w := by
  cases ps with
  | nil => exact ⟨[blank], n, [spacedOf "("], rfl, by decide, by simp, by simp⟩
  | cons p ps =>
    obtain ⟨front, last, hlast⟩ := exists_parameters_eq (spacedOf ",") nameOf p ps
    refine ⟨[blank, nameOf n, spacedOf "("] ++ front, last, [], by simp [hlast], by simp, ?_⟩
    rw [append_assoc, ← hlast]
    constructor
    · rw [flatMap_append, flatMap_text_parameters, intercalate_cons_cons]
      simp
    · refine forall_mem_append.mpr ⟨by simp, fun q hq => ?_⟩
      rcases eq_of_mem_parameters hq with rfl | ⟨w, hw, rfl⟩
      · exact .inl rfl
      · exact .inr ⟨w, mem_cons_of_mem _ hw, rfl⟩

theorem exists_header_definition (n : Text) (ps : List Text)
    (hgaps : ∀ p ∈ gaps, p.isBlank = true) :
    ∃ qs, header true (leaves (definitionArguments n ps gaps)) = leaves qs ∧
      qs.flatMap text = " " ++ List.intercalate " " (n :: ps) ∧
      ∀ q ∈ qs, q.kind = .whitespace ∨ ∃ w ∈ n :: ps, q = nameOf w := by
  obtain ⟨front, last, blanks, hsplit, hblanks, htext, hwords⟩ := exists_words n ps
  have htrimmed := blankLeading_reverse (p := nameOf last) rfl (forall_mem_append.mpr ⟨hblanks,
    forall_mem_cons.mpr ⟨Piece.isBlank_blanked (.made .operator ")"), hgaps⟩⟩) front
  rw [← append_assoc, ← hsplit] at htrimmed
  rw [header_eq, separated_definition fun p hp => Piece.kind_of_isBlank (hgaps p hp)]
  refine ⟨_, htrimmed, ?_, ?_⟩
  · rw [flatMap_append, htext]
    simp [flatMap_map]
  · refine forall_mem_append.mpr ⟨hwords, fun q hq => .inl ?_⟩
    obtain ⟨p, -, rfl⟩ := mem_map.mp hq
    rfl

theorem textOf_map_bare (xs : List Item) : Item.textOf (xs.map bare) = Item.textOf xs := by
  rw [Item.textOf, Item.textOf, flatMap_map]
  exact flatMap_congr fun x _ => by simp [Item.text_eq, bare]

/-- The walk leaves one line of a macro definition. -/
theorem fronts_definition (hgaps : ∀ p ∈ gaps, p.isBlank = true)
    (hordinary : ∀ w ∈ n :: ps, Ordinary w) (newline : Text) :
    Fronts newline (ownedArguments (leaves (definitionArguments n ps gaps))) .define
      (".MACRO " ++ List.intercalate " " (n :: ps)) := by
  obtain ⟨qs, hheader, htext, hwords⟩ := exists_header_definition n ps hgaps
  have hnormal : normal (leaves (definitionArguments n ps gaps)) =
      leaves (definitionArguments n ps gaps) := by
    rw [normal_leaves, normalAfter_eq_self fun p hp =>
      (isArgument_definitionArguments hgaps hordinary p hp).toInert]
  -- owners change nothing but themselves
  have hbare : (header true (ownedArguments (leaves (definitionArguments n ps gaps)))).map bare =
      (leaves qs).map bare := by
    rw [← hheader, ← header_map (f := bare) (fun _ _ => rfl) (fun _ => rfl) (fun _ => rfl)
      (fun _ => rfl), ← header_map (f := bare) (fun _ _ => rfl) (fun _ => rfl) (fun _ => rfl)
      (fun _ => rfl), map_bare_ownedArguments, hnormal]
  have hkinds : ∀ q ∈ qs, q.kind ≠ .container := by
    intro q hq
    rcases hwords q hq with hkind | ⟨w, -, rfl⟩ <;> simp [*]
  have hsteady : ∀ y ∈ header true (ownedArguments (leaves (definitionArguments n ps gaps))),
      Steady y := by
    intro y hy
    have hmem := mem_map_of_mem (f := bare) hy
    rw [hbare] at hmem
    obtain ⟨x, hx, heq⟩ := mem_map.mp hmem
    obtain ⟨q, hq, rfl⟩ := mem_map.mp hx
    have hsame : Steady y ↔ Steady (.node q []) := by
      rw [← show Steady (bare y) ↔ Steady y from .rfl, ← heq]
      rfl
    rw [hsame]
    rcases hwords q hq with hkind | ⟨w, hw, rfl⟩
    · exact .inl hkind
    · exact .inr ⟨rfl, hordinary w hw⟩
  have hfronts := fronts_define rfl hsteady newline
  rw [← textOf_map_bare, hbare, textOf_map_bare, flatMap_text_leaves hkinds, htext] at hfronts
  exact hfronts

end Row

/-! ## The source of a definition -/

namespace Lexeme

variable {ps : List Text} {gap : Text}

theorem lexemes_parameters (hps : ∀ p ∈ ps, IsName p) (rest : Text) :
    lexemes (List.intercalate "," ps ++ .char ')' :: rest) =
      Row.parameters (.operator ",") .name ps ++ .operator ")" :: lexemes rest := by
  have hclosing : lexemes (.char ')' :: rest) = .operator ")" :: lexemes rest :=
    lexemes_of_source rfl
  cases ps with
  | nil => exact hclosing
  | cons p ps =>
    induction ps generalizing p with
    | nil =>
      rw [intercalate_singleton, (hps p (by simp)).lexemes_append rfl, hclosing]
      rfl
    | cons q ps ih =>
      obtain ⟨hp, hps⟩ := forall_mem_cons.mp hps
      have hcomma : lexemes (.char ',' :: (List.intercalate "," (q :: ps) ++ .char ')' :: rest)) =
          .operator "," :: _ := lexemes_of_source rfl
      rw [intercalate_cons_cons, append_assoc, append_assoc, hp.lexemes_append rfl]
      exact congrArg (.name p :: ·) (hcomma.trans (congrArg _ (ih q hps)))

theorem lexemes_blanks (h : ∀ s ∈ gap, s.isBlank = true) : ∀ l ∈ lexemes gap, l = .blank gap := by
  cases gap with
  | nil => exact forall_mem_nil _
  | cons s t =>
    obtain ⟨hs, ht⟩ := forall_mem_cons.mp h
    have hne {c : Char} (hc : (Symbol.char c).isBlank = false) : s ≠ .char c := by
      rintro rfl
      cases hs.symm.trans hc
    have hfirst : first s t = .blank (s :: t) := by
      rw [first, if_neg (hne (by decide)), if_neg (hne (by decide)), if_pos hs,
        takeWhile_eq_self_iff.mpr ht]
    rw [@lexemes_of_source s t [] (by rw [hfirst]; simp [source]), hfirst]
    simp [lexemes, lexemesAfter]

end Lexeme

/-- What stands between the directive of a definition and its body. -/
def definitionCode (n : Text) (ps : List Text) (gap : Text) : Text :=
  n ++ .char '(' :: (List.intercalate "," ps ++ .char ')' :: gap)

section Code

variable {n gap : Text} {ps : List Text} (hnames : ∀ w ∈ n :: ps, IsName w)
  (hgap : ∀ s ∈ gap, s.isBlank = true)
include hnames hgap

theorem isPlain_definitionCode :
    ∀ s ∈ definitionCode n ps gap, Segment.isPlain s = true ∧ s.endsLine = false := by
  obtain ⟨hn, hps⟩ := forall_mem_cons.mp hnames
  have hname {w : Text} (hw : IsName w) :
      ∀ s ∈ w, Segment.isPlain s = true ∧ s.endsLine = false :=
    fun s hs => Segment.isPlain_of_isNameSymbol (hw.isNameSymbol s hs)
  refine forall_mem_append.mpr ⟨hname hn, forall_mem_cons.mpr ⟨by decide,
    forall_mem_append.mpr ⟨fun s hs => ?_, forall_mem_cons.mpr ⟨by decide, fun s hs => ?_⟩⟩⟩⟩
  · rw [← Piece.text_made .operator ",", ← Row.flatMap_text_parameters] at hs
    obtain ⟨q, hq, hs⟩ := mem_flatMap.mp hs
    rcases Row.eq_of_mem_parameters hq with rfl | ⟨w, hw, rfl⟩
    · exact (by decide : ∀ s ∈ ofString ",", Segment.isPlain s = true ∧
        s.endsLine = false) s hs
    · exact hname (hps w hw) s hs
  · have hblank := hgap s hs
    rw [Symbol.isBlank, Bool.and_eq_true, Bool.not_eq_true'] at hblank
    exact ⟨Segment.isPlain_of (by decide) (hgap s hs), hblank.2⟩

theorem exists_codeOf_definition (radix : Int) :
    ∃ gaps, (∀ p ∈ gaps, p.isBlank = true) ∧ Text.CodeOf radix (definitionCode n ps gap)
      (Row.leaves ((Row.definitionArguments n ps gaps).tail)) := by
  obtain ⟨hn, hps⟩ := forall_mem_cons.mp hnames
  have hlexemes : lexemes (definitionCode n ps gap) =
      .name n :: .operator "(" :: (Row.parameters (.operator ",") .name ps ++
        .operator ")" :: lexemes gap) := by
    have hopening (rest : Text) :
        lexemes (.char '(' :: rest) = .operator "(" :: lexemes rest :=
      Lexeme.lexemes_of_source rfl
    rw [definitionCode, hn.lexemes_append rfl, hopening, Lexeme.lexemes_parameters hps]
  have hblanks := Lexeme.lexemes_blanks hgap
  have hlasting : ∀ l ∈ lexemes (definitionCode n ps gap), l.IsLasting radix := by
    rw [hlexemes]
    refine forall_mem_cons.mpr ⟨trivial, forall_mem_cons.mpr ⟨⟨by decide, by decide⟩,
      forall_mem_append.mpr ⟨fun l hl => ?_, forall_mem_cons.mpr
        ⟨⟨by decide, by decide⟩, fun l hl => hblanks l hl ▸ trivial⟩⟩⟩⟩
    rcases Row.eq_of_mem_parameters hl with rfl | ⟨w, -, rfl⟩
    · exact ⟨by decide, by decide⟩
    · trivial
  have hcode := Text.CodeOf.lasting (fun s hs => ?_) hlasting
  · rw [hlexemes, map_cons, map_cons, map_append, Row.map_parameters,
      map_cons] at hcode
    refine ⟨(lexemes gap).map fun l : Lexeme => .made l.kind l.text,
      forall_mem_map.mpr fun l hl => ?_, hcode⟩
    rw [hblanks l hl]
    have hline (t : Terminator) : gap ≠ t.text := by
      rintro rfl
      revert hgap
      cases t <;> decide
    simp [Piece.isBlank, Token.isBlank, Token.isNewline, Piece.token, made, Lexeme.kind,
      Lexeme.text, hline]
  · exact (Segment.isPlain_iff.mp (isPlain_definitionCode hnames hgap s hs).1).2.2

end Code

/-- **A macro definition with any number of parameters.** -/
theorem convert_definition {n gap : Text} {ps : List Text}
    (hnames : ∀ w ∈ n :: ps, IsName w ∧ Row.Ordinary w)
    (hgap : ∀ s ∈ gap, s.isBlank = true) (radix : Int) :
    convert ("DEFINE " ++ n ++ "(" ++ List.intercalate "," ps ++ ")" ++ gap ++ "<NOP>\n") [] radix =
      .ok (".MACRO " ++ List.intercalate " " (n :: ps) ++ "\nNOP\n.ENDMACRO\n") := by
  have hisName : ∀ w ∈ n :: ps, IsName w := fun w hw => (hnames w hw).1
  have hordinary : ∀ w ∈ n :: ps, Row.Ordinary w := fun w hw => (hnames w hw).2
  have hopens : Line.Opens (Head.keyword .define) :=
    ⟨by decide, Line.startsCode_of_words (fun t => ⟨_, rfl⟩) ⟨_, _, rfl, by decide⟩ (by decide)⟩
  have hplain := isPlain_definitionCode hisName hgap
  have hisCode : ∀ s ∈ definitionCode n ps gap, s.isCode = true := by
    intro s hs
    obtain ⟨hquote, hsemicolon, -⟩ := Segment.isPlain_iff.mp (hplain s hs).1
    exact Symbol.isCode_of_ne hsemicolon hquote
  have hsource : ofString "DEFINE " ++ n ++ ofString "(" ++
      List.intercalate (ofString ",") ps ++ ofString ")" ++ gap ++
      ofString "<NOP>\n" = Head.keyword .define ++
        .char ' ' :: (definitionCode n ps gap ++ ofString "<NOP>") ++ [.char '\n'] := by
    simp [definitionCode, ofString, Head.keyword]
  have hline : ∀ s ∈ Head.keyword .define ++ .char ' ' :: (definitionCode n ps gap ++
      ofString "<NOP>"), s.endsLine = false :=
    forall_mem_append.mpr ⟨by decide, forall_mem_cons.mpr ⟨by decide,
      forall_mem_append.mpr ⟨fun s hs => (hplain s hs).2, by decide⟩⟩⟩
  obtain ⟨gaps, hgaps, hcode⟩ := exists_codeOf_definition hisName hgap radix
  obtain ⟨r, hr, hitems⟩ := hcode.exists_readLines_body hopens
    (fun s hs => ⟨hisCode s hs, (hplain s hs).2⟩) ((hisName n (by simp)).head?_isBlank _)
  have hnop : Row.Ordinary "NOP" := by decide
  have hawaits : Row.AwaitsBody true
      ((Row.leaves (Row.definitionArguments n ps gaps)).map Nest.value) := by
    rw [Row.map_value_leaves]
    exact Row.awaitsBody_of_isArgument (Row.isArgument_definitionArguments hgaps hordinary) rfl
  have htext := (Row.fronts_definition hgaps hordinary [.char '\n']).textOf_directive hawaits
    (g := { kind := .container, opening := [.char '<'], closing := [.char '>'] })
    (e := .made .whitespace [.char '\n']) rfl (by decide) (Row.leaves [Row.nameOf "NOP"])
  rw [Row.textOf_name hnop] at htext
  rw [hsource, convert_line hline hr, hitems, Reader.closedGroup]
  refine congrArg _ (htext.trans ?_)
  simp [ofString, Row.closingLine, made]

theorem convert_definition_two :
    convert "DEFINE ADD(A,B) \t<NOP>\n" [] 8 = .ok ".MACRO ADD A B\nNOP\n.ENDMACRO\n" :=
  @convert_definition "ADD" " \t" ["A", "B"] (by decide) (by decide) 8

end Macro10
