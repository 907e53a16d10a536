import Macro10.Proofs.Row.Uniform
import Macro10.Proofs.Terminators

/-!
# Documents with one line terminator

If all terminators of a text are the same, then every symbol that ends a line is in a copy of it
(`Text.rules_iff`). If all lines of a source end with `e`, then so do those of the target, unless
`e` is a carriage return: lines that are added then end with a line feed (`convert_endedBy`).
-/

namespace Macro10

open List
open Line (split)

variable {e : Terminator}

/-! ## Texts -/

namespace Text

/-- All terminators of the text are `e`. -/
def EndedBy (t : Text) (e : Terminator) : Prop :=
  ∀ line ∈ split t, ∀ e' ∈ line.terminator, e' = e

instance (t : Text) (e : Terminator) : Decidable (t.EndedBy e) :=
  inferInstanceAs (Decidable (∀ line ∈ split t, ∀ e' ∈ line.terminator, e' = e))

variable {t u : Text}

theorem endedBy_append (hu : ∀ s ∈ u, s.endsLine = false) : (u ++ t).EndedBy e ↔ t.EndedBy e := by
  obtain ⟨line, later, hsplit⟩ := Line.exists_split_eq t
  rw [EndedBy, EndedBy, Line.split_append_of_not_endsLine hu hsplit, hsplit,
    forall_mem_cons, forall_mem_cons]

theorem endedBy_terminator {e' : Terminator}
    (h : e' = .carriageReturn → t.head? ≠ some (.char '\n')) :
    (e'.text ++ t).EndedBy e ↔ e' = e ∧ t.EndedBy e := by
  rw [EndedBy, EndedBy, Line.split_terminator_append h, forall_mem_cons]
  simp

/-- **The terminators of a text are its line breaks.** -/
theorem rules_iff : e.text.Rules t ↔ t.EndedBy e := by
  constructor
  · intro h
    induction h with
    | nil => simp [EndedBy, split]
    | symbol hs _ ih => exact (endedBy_append (forall_mem_singleton.mpr hs)).mpr ih
    | line h ih =>
      refine (endedBy_terminator fun hreturn hhead => ?_).mpr ⟨rfl, ih⟩
      have hfeed := h.mem_of_endsLine (mem_of_mem_head? hhead) (by decide)
      rw [hreturn] at hfeed
      exact absurd hfeed (by decide)
  · intro h
    fun_induction split t with
    | case1 => exact .nil
    | case2 rest ih =>
      have hboth : (Terminator.both.text ++ rest).EndedBy e := h
      obtain ⟨rfl, hrest⟩ := (endedBy_terminator (by simp)).mp hboth
      exact .line (ih hrest)
    | case3 rest hne ih =>
      have hhead : rest.head? ≠ some (.char '\n') := by
        intro hhead
        obtain ⟨tail, rfl⟩ := List.head?_eq_some_iff.mp hhead
        exact hne tail rfl
      obtain ⟨rfl, hrest⟩ := (endedBy_terminator fun _ => hhead).mp
        (show (Terminator.carriageReturn.text ++ rest).EndedBy e from h)
      exact .line (ih hrest)
    | case4 rest ih =>
      have hfeed : (Terminator.lineFeed.text ++ rest).EndedBy e := h
      obtain ⟨rfl, hrest⟩ := (endedBy_terminator (by simp)).mp hfeed
      exact .line (ih hrest)
    | case5 s rest hboth hreturn hfeed ih =>
      have hs : s.endsLine = false := Symbol.endsLine_eq_false.mpr ⟨hfeed, hreturn⟩
      exact .symbol hs (ih ((endedBy_append (forall_mem_singleton.mpr hs)).mp h))

end Text

theorem Line.newline_of_endedBy {t : Text} (h : t.EndedBy e)
    (hsome : ∃ line ∈ split t, line.terminator = some e) :
    newline (split t) = if e = .carriageReturn then Terminator.lineFeed.text else e.text := by
  unfold newline
  split
  · next line hfind =>
    have hterminator : line.terminator = some .both ∨ line.terminator = some .lineFeed := by
      simpa using find?_some hfind
    have hsame := h line (mem_of_find?_eq_some hfind)
    rcases hterminator with hline | hline
    · obtain rfl := hsame _ hline
      simp [ending, hline]
    · obtain rfl := hsame _ hline
      simp [ending, hline]
  · next hfind =>
    obtain ⟨line, hmem, hline⟩ := hsome
    have hother := find?_eq_none.mp hfind line hmem
    cases e with
    | carriageReturn => rfl
    | lineFeed | both => simp [hline] at hother

/-! ## Documents -/

theorem Stretch.Tidy.eq_of_endedBy {xs : List Stretch} (h : Tidy xs)
    (hends : Text.EndedBy (xs.flatMap source) e) : ∀ t, terminator t ∈ xs → t = e := by
  induction xs with
  | nil => exact fun t ht => (not_mem_nil ht).elim
  | cons s xs ih =>
    rw [flatMap_cons] at hends
    intro t ht
    by_cases hs : ∀ t, s ≠ terminator t
    · rcases mem_cons.mp ht with heq | ht
      · exact absurd heq.symm (hs t)
      · exact ih h.2 ((Text.endedBy_append (h.endsLine_eq_false hs)).mp hends) t ht
    · obtain ⟨e', he'⟩ := not_forall.mp hs
      obtain rfl := not_not.mp he'
      obtain ⟨rfl, hrest⟩ := (Text.endedBy_terminator h.1).mp hends
      rcases mem_cons.mp ht with heq | ht
      · exact terminator.inj heq
      · exact ih h.2 hrest t ht

theorem Row.Neat.settled {e : Text} {p q : Piece} (h : Neat e p) (hq : Settles p q) : Neat e q := by
  refine ⟨h.toBounded.settled hq, ?_⟩
  rcases h.text with htext | ⟨hkind, htext⟩ | ⟨hkind, htext⟩
  · exact .inl (hq.breaks_text htext)
  · have hne : p.kind ≠ .operator := by simp [hkind]
    exact .inr (.inl ⟨(hq.kind_eq hne).trans hkind, (hq.text_eq hne).trans htext⟩)
  · have hne : p.kind ≠ .operator := by simp [hkind]
    exact .inr (.inr ⟨(hq.kind_eq hne).trans hkind, (hq.text_eq hne).symm ▸ htext⟩)

theorem Normalized.neat {source : Text} {radix : Int} {d normal : Document} {f : Forest}
    {w : List Visit} {positions : List Position} {cs : List Cell} (h : Normalized d f normal cs)
    (hrecord : Record source radix d f w positions) (hends : source.EndedBy e) :
    ∀ p ∈ Nest.listing (Cell.items (cs.map Cell.labelled)), Row.Neat e.text p := by
  intro q hq
  obtain ⟨-, p, -, -, hp, hsettles⟩ := h.exists_settled hq
  have hspells := hrecord.spelled.spells p hp
  refine Row.Neat.settled ⟨hspells.bounded, ?_⟩ hsettles
  rcases hspells.breaks_or hrecord.single with htext | ⟨t, ht, hkind, htext⟩
  · exact .inl htext
  · rw [hrecord.stretches] at ht
    obtain rfl := Stretch.Tidy.eq_of_endedBy
      (Line.tidy_allStretches none (Line.apart_split source))
      ((Text.flatMap_source_stretches source).symm ▸ hends) t ht
    exact .inr (.inl ⟨hkind, htext⟩)

theorem rules_below_includes {e newline body : Text} {includes : List Text}
    (hnames : ∀ name ∈ includes, ∀ s ∈ name, s.endsLine = false)
    (hnewline : includes = [] ∨ e.Rules newline) (hbody : e.Rules body) :
    e.Rules (includes.flatMap (fun name => Document.includeDirective name ++ newline) ++ body) := by
  refine .append (.flatMap fun name hname => ?_) hbody
  rcases hnewline with rfl | hnewline
  · cases hname
  · refine .append (.of_breaks (.of_not_endsLine fun s hs => ?_)) hnewline
    have hquotes : ∀ t ∈ [(".INCLUDE \"" : Text), ("\"" : Text)],
        ∀ s ∈ t, s.endsLine = false := by decide
    rw [Document.includeDirective, mem_append, mem_append] at hs
    rcases hs with (hs | hs) | hs
    · exact hquotes _ (by simp) s hs
    · exact hnames name hname s hs
    · exact hquotes _ (by simp) s hs

/-- **The line terminator of a source is kept,** except that the lines that a conversion adds to a
source with carriage returns end with a line feed. These are the lines that include files, and the
first and the last line of each body. -/
theorem convert_endedBy {source : Text} {e : Terminator} (hends : source.EndedBy e)
    (hsome : ∃ line ∈ split source, line.terminator = some e) {includes : List Text}
    (hnames : ∀ name ∈ includes, ∀ s ∈ name, s.endsLine = false) {radix : Int} {text : Text}
    (h : convert source includes radix = .ok text) :
    ∃ target parts, convertDocument source radix = .ok target ∧ target.Walk target.root parts ∧
      (text.EndedBy e ↔ (e = .carriageReturn →
        includes = [] ∧ (parts.filterMap Part.token?).countP target.isBody = 0)) := by
  obtain ⟨target, hdocument, htext⟩ := bind_eq_ok.mp h
  obtain ⟨d, hd, hconverted⟩ := bind_eq_ok.mp hdocument
  obtain ⟨f, w, positions, hrecord⟩ := exists_record hd
  obtain ⟨normal, cs, hnormal⟩ := hrecord.exists_normalized hd
  obtain ⟨target', out, htarget, hout⟩ := hnormal.exists_retargeted
  obtain rfl := Except.ok.inj ((hnormal.converted_eq.trans htarget).symm.trans hconverted)
  refine ⟨target', Cell.parts out, hdocument, hout.outRoot ▸ hout.outStanding.walk, ?_⟩
  have hlined : Row.Lined e.text normal.newline target'.bodyOwner? (Cell.items out) := by
    rw [hout.items]
    exact (Row.lined_retarget hout.tame (hout.standing.foretold hout.evolves)
      (hnormal.neat hrecord hends)).2 []
  have hcount := hout.bodyCount_eq
  have hnewline : normal.newline =
      if e = .carriageReturn then Terminator.lineFeed.text else e.text := by
    obtain ⟨r, -, -, rfl⟩ := exists_forest_of_read hd
    exact hnormal.newline_eq.trans (Line.newline_of_endedBy hends hsome)
  rw [Document.renderWithIncludes_eq hout.outStanding hout.outRoot, hout.newline] at htext
  cases htext
  rw [← Text.rules_iff, Cell.filterMap_token?_parts, ← hcount]
  by_cases hreturn : e = .carriageReturn
  · rw [if_pos hreturn] at hnewline
    have hfeed : Symbol.char '\n' ∈ normal.newline := by
      rw [hnewline]
      decide
    refine ⟨fun hrules _ => ?_, fun hnone => ?_⟩
    · -- An added line would have a line feed.
      have hnone : Symbol.char '\n' ∉ e.text := by
        rw [hreturn]
        decide
      have hmissing := mt (fun hmem => hrules.mem_of_endsLine hmem (by decide)) hnone
      rw [mem_append, not_or] at hmissing
      refine ⟨eq_nil_iff_forall_not_mem.mpr fun name hname => hmissing.1 ?_, ?_⟩
      · exact mem_flatMap.mpr ⟨name, hname, mem_append_right _ hfeed⟩
      · by_contra hbody
        exact hmissing.2 (hlined.broken (Nat.pos_of_ne_zero hbody) hfeed)
    · obtain ⟨rfl, hbody⟩ := hnone hreturn
      exact rules_below_includes hnames (.inl rfl) (hlined.rules (.inl hbody))
  · rw [if_neg hreturn] at hnewline
    have hself : e.text.Rules normal.newline := by
      rw [hnewline]
      exact .self
    exact ⟨fun _ heq => absurd heq hreturn,
      fun _ => rules_below_includes hnames (.inr hself) (hlined.rules (.inr hself))⟩

/-- A body, a message about a group with a line break in it, and a file that is included. -/
theorem convert_endedBy_both :
    let source := Text.ofString "IFN A,<B>\r\nPRINTX C<D\r\nE>\r\n"
    let includes := [Text.ofString "F"]
    source.EndedBy .both ∧ (∃ line ∈ split source, line.terminator = some .both) ∧
      (∀ name ∈ includes, ∀ s ∈ name, s.endsLine = false) ∧
      ∃ text, convert source includes 8 = .ok text ∧
        ∃ target parts, convertDocument source 8 = .ok target ∧ target.Walk target.root parts ∧
          (text.EndedBy .both ↔ (Terminator.both = .carriageReturn →
            includes = [] ∧ (parts.filterMap Part.token?).countP target.isBody = 0)) := by
  intro source includes
  have hends : source.EndedBy .both := by decide
  have hsome : ∃ line ∈ split source, line.terminator = some .both := by decide
  have hnames : ∀ name ∈ includes, ∀ s ∈ name, s.endsLine = false := by decide
  obtain ⟨text, htext, -⟩ := exists_eq_ok_of_any (x := convert source includes 8)
    (p := fun text => decide (text.EndedBy .both)) (by decide +kernel)
  exact ⟨hends, hsome, hnames, text, htext, convert_endedBy hends hsome hnames htext⟩

/-- The lines of a body end with a line feed, though the source has carriage returns only. -/
theorem carriageReturn_not_kept :
    let source := Text.ofString "IFN A,<B>\r"
    let text := Text.ofString ".IF A <> 0\nB\n.ENDIF\r"
    source.EndedBy .carriageReturn ∧
      (∃ line ∈ split source, line.terminator = some .carriageReturn) ∧
      (convert source [] 8).toOption = some text ∧ ¬text.EndedBy .carriageReturn := by
  decide +kernel

end Macro10
