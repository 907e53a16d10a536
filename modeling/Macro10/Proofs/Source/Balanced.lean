import Macro10.Proofs.Row.Operand
import Macro10.Proofs.Source.Cut
import Macro10.Proofs.Source.Spelling

/-!
# Balanced code

Code without comments and strings, in which each bracket has its partner, leaves no group open. If
it starts with no blank, it leaves one row, which starts with no blank and holds neither comments
nor strings (`Reader.exists_row_of_balanced`).
-/

namespace Macro10

open List

/-! ## Brackets -/

/-- How many brackets are open after the text if `depth` are open before it; there is no answer if a
bracket closes none. -/
def Text.depthAfter (depth : Nat) : Text → Option Nat
  | [] => some depth
  | s :: rest =>
    if s = .char '<' then depthAfter (depth + 1) rest
    else if s = .char '>' then if depth = 0 then none else depthAfter (depth - 1) rest
    else depthAfter depth rest

/-- Each bracket of the text has its partner. -/
def Text.Balanced (t : Text) : Prop := depthAfter 0 t = some 0
deriving Decidable

namespace Stretch

/-- How many groups are open after some stretches if `depth` are open before them. -/
def depthAfter (depth : Nat) : List Stretch → Option Nat
  | [] => some depth
  | .opening :: rest => depthAfter (depth + 1) rest
  | .closing :: rest => if depth = 0 then none else depthAfter (depth - 1) rest
  | _ :: rest => depthAfter depth rest

theorem depthAfter_ofCode (depth : Nat) (t : Text) (rest : List Stretch) :
    depthAfter depth (ofCode t ++ rest) = depthAfter depth rest := by
  rw [ofCode]
  induction Lexeme.lexemes t with
  | nil => rfl
  | cons l lexemes ih => exact ih

/-- Cutting a text leaves its brackets in place. -/
theorem depthAfter_cut (depth : Nat) (done t : Text) :
    depthAfter depth (cut done t) = Text.depthAfter depth t := by
  induction t generalizing depth done with
  | nil =>
    rw [cut, ← append_nil (ofCode _), depthAfter_ofCode]
    rfl
  | cons s t ih =>
    rw [cut, Text.depthAfter]
    split
    · rw [depthAfter_ofCode, depthAfter, ih]
    split
    · rw [depthAfter_ofCode, depthAfter, ih]
    · exact ih depth (s :: done)

end Stretch

/-! ## Code -/

namespace Lexeme

/-- The lexeme is neither a comment nor a string. -/
def isCode : Lexeme → Bool
  | comment _ | string _ _ => false
  | _ => true

theorem isCode_of_mem_lexemes {t : Text} (ht : ∀ s ∈ t, s.isCode = true) {l : Lexeme}
    (hl : l ∈ lexemes t) : l.isCode = true := by
  have hsource : ∀ s ∈ l.source, s.isCode = true := by
    intro s hs
    refine ht s ?_
    rw [← flatMap_source_lexemes t]
    exact mem_flatMap.mpr ⟨l, hl, hs⟩
  have hproper := proper_of_mem_lexemes hl
  cases l with
  | comment text =>
    have hmem : Symbol.char ';' ∈ text := mem_of_mem_head? (Option.mem_def.mpr hproper)
    exact absurd (hsource _ hmem) (by decide)
  | string text closed =>
    obtain ⟨body, -, rfl⟩ := hproper
    exact absurd (hsource (.char '"') (by simp [source])) (by decide)
  | blank | digits | name | operator => rfl

end Lexeme

namespace Stretch

variable {done t text : Text} {s : Symbol} {kind : Kind}

/-- The stretch is code without comments and strings. -/
def isCode : Stretch → Bool
  | lexeme l => l.isCode
  | opening | closing => true
  | _ => false

/-- What holds of the stretches of a code, and of brackets, holds of all that a text is cut into. -/
theorem forall_mem_cut {P : Stretch → Prop} {Q : Symbol → Prop}
    (hcode : ∀ t : Text, (∀ s ∈ t, Q s) → ∀ st ∈ ofCode t, P st) (hopening : P .opening)
    (hclosing : P .closing) (hdone : ∀ s ∈ done, Q s) (ht : ∀ s ∈ t, Q s) :
    ∀ st ∈ cut done t, P st := by
  have hdone' {done : Text} (hdone : ∀ s ∈ done, Q s) : ∀ st ∈ ofCode done.reverse, P st :=
    hcode _ fun s hs => hdone s (mem_reverse.mp hs)
  induction t generalizing done with
  | nil => exact hdone' hdone
  | cons s t ih =>
    obtain ⟨hs, ht⟩ := forall_mem_cons.mp ht
    have hgroup := ih (forall_mem_nil _) ht
    rw [cut]
    split
    · exact forall_mem_append.mpr
        ⟨hdone' hdone, forall_mem_cons.mpr ⟨hopening, hgroup⟩⟩
    split
    · exact forall_mem_append.mpr
        ⟨hdone' hdone, forall_mem_cons.mpr ⟨hclosing, hgroup⟩⟩
    · exact ih (forall_mem_cons.mpr ⟨hs, hdone⟩) ht

theorem isCode_cut (ht : ∀ s ∈ t, s.isCode = true) : ∀ st ∈ cut [] t, st.isCode = true := by
  refine forall_mem_cut (P := (·.isCode = true)) (fun u hu st hst => ?_) rfl rfl
    (forall_mem_nil _) ht
  obtain ⟨l, hl, rfl⟩ := mem_map.mp hst
  exact Lexeme.isCode_of_mem_lexemes hu hl

theorem proper_cut (t : Text) : ∀ st ∈ cut [] t, st.Proper :=
  forall_mem_cut (Q := fun _ => True) (fun _ _ _ hst => proper_of_mem_ofCode hst) trivial trivial
    (forall_mem_nil _) fun _ _ => trivial

theorem isNewline_of_isBlank (h : ∀ s ∈ text, s.isBlank = true) :
    Piece.isNewline { kind := .whitespace, text } = false := by
  have hne (t : Terminator) : text ≠ t.text := by
    rintro rfl
    cases t <;> exact absurd (h _ mem_cons_self) (by decide)
  simp [Piece.isNewline, Token.isNewline, Piece.token, hne]

/-- The stretch is a group that opens, or a lexeme that is no blank. -/
def isSolid : Stretch → Bool
  | opening => true
  | lexeme (.digits _ _) | lexeme (.name _) | lexeme (.operator _) => true
  | _ => false

section

variable (hs : s.isCode = true) (hblank : s.isBlank = false)
include hs hblank

theorem isSolid_first (t : Text) : isSolid (.lexeme (Lexeme.first s t)) = true := by
  unfold Lexeme.first
  rw [if_neg (Symbol.ne_semicolon_of_isCode hs), if_neg (Symbol.ne_quote_of_isCode hs),
    if_neg (by simp [hblank])]
  split
  · rw [Lexeme.ofDigit]
    rfl
  split
  · rfl
  · rw [Lexeme.ofOperator_eq]
    split <;> rfl

theorem exists_cut_of_reverse {u : Text} (hdone : done.reverse = s :: u) (t : Text) :
    ∃ st rest, cut done t = st :: rest ∧ st.isSolid = true := by
  have hcode (rest : List Stretch) :
      ∃ st rest', ofCode done.reverse ++ rest = st :: rest' ∧ st.isSolid = true := by
    rw [hdone, ofCode, Lexeme.lexemes_cons]
    exact ⟨_, _, rfl, isSolid_first hs hblank u⟩
  induction t generalizing done u with
  | nil =>
    rw [cut, ← append_nil (ofCode _)]
    exact hcode []
  | cons s' t ih =>
    rw [cut]
    split
    · exact hcode _
    split
    · exact hcode _
    · have hnext : (s' :: done).reverse = s :: (u ++ [s']) := by
        rw [reverse_cons, hdone, cons_append]
      refine ih hnext fun rest => ?_
      rw [hnext, ofCode, Lexeme.lexemes_cons]
      exact ⟨_, _, rfl, isSolid_first hs hblank _⟩

/-- Balanced code that starts with no blank starts with a solid stretch. -/
theorem exists_cut_eq_cons (hbalanced : Text.Balanced (s :: t)) :
    ∃ st rest, cut [] (s :: t) = st :: rest ∧ st.isSolid = true := by
  rw [cut]
  split
  · exact ⟨_, _, rfl, rfl⟩
  split
  · next hclosing =>
    subst hclosing
    cases hbalanced
  · exact exists_cut_of_reverse hs hblank rfl t

end

theorem Shows.calm {s : Stretch} (h : s.Shows kind text)
    (hcode : s.isCode = true) (hproper : s.Proper) : Piece.Calm { kind, text } := by
  cases h with
  | numeral => exact ⟨by simp, by simp, Piece.isNewline_eq_false (by simp)⟩
  | lexeme l =>
    cases l with
    | comment | string => cases hcode
    | blank text =>
      exact ⟨by simp [Lexeme.kind], by simp [Lexeme.kind], isNewline_of_isBlank hproper.2⟩
    | digits | name | operator =>
      exact ⟨by simp [Lexeme.kind], by simp [Lexeme.kind],
        Piece.isNewline_eq_false (by simp [Lexeme.kind])⟩
  | terminator | remark | setRadix => cases hcode

theorem Shows.kind_ne {s : Stretch} (h : s.Shows kind text)
    (hs : s.isSolid = true) : kind ≠ .whitespace := by
  cases h with
  | numeral => decide
  | lexeme l =>
    cases l with
    | digits | name | operator => simp [Lexeme.kind]
    | comment | string | blank => cases hs
  | terminator | remark | setRadix => cases hs

end Stretch

/-! ## What code is read as -/

namespace Forest

open Row (Led)

variable {top mark : Bool} {f : Forest} {w : List Visit} {positions : List Position}

theorem Spelled.calm (h : Spelled top mark f w positions)
    (hw : ∀ v ∈ w, v.stretch.isCode = true ∧ v.stretch.Proper) : ∀ x ∈ f.items, x.value.Calm := by
  intro x hx
  have hgroup {p : Piece} (hkind : p.kind = .container) : p.Calm :=
    ⟨by simp [hkind], by simp [hkind], Piece.isNewline_eq_false (by simp [hkind])⟩
  have hspells := h.spells x.value (mem_flatMap.mpr ⟨x, hx, x.value_mem_values⟩)
  generalize x.value = p at hspells
  cases hspells with
  | leaf hv hreads => exact hreads.shows.calm (hw _ hv).1 (hw _ hv).2
  | mark => exact ⟨by simp, by simp, by decide⟩
  | numeral => exact ⟨by simp, by simp, Piece.isNewline_eq_false (by simp)⟩
  | group => exact hgroup rfl

/-- A piece that is no blank, or a group, comes first. -/
theorem Spelled.led {v : Visit} (h : Spelled top mark f (v :: w) positions)
    (hv : v.stretch.isSolid = true) : Led f.items := by
  cases h with
  | silent hsilent =>
    rcases hsilent with ⟨marker, heq, -⟩ | ⟨-, heq, -⟩ <;> simp [heq, Stretch.isSolid] at hv
  | leaf hreads => exact .solid (Piece.isBlank_of_kind_ne (hreads.shows.kind_ne hv))
  | pair => exact .spent (.solid (Piece.isBlank_of_kind_ne (by simp)))
  | group | unclosed => exact .solid (Piece.isBlank_of_kind_ne (by simp))

end Forest

/-! ## Balanced code -/

namespace Reader

variable {line n : Nat} {stretches : List Stretch} {radix : Option Int}

variable {column : Nat} {r r' : Reader}

theorem frames_readLexeme {position : Position} {lexeme : Lexeme}
    (h : r.readLexeme position lexeme = .ok r') : r'.frames = r.frames := by
  obtain ⟨scope, diagnostics, rfl⟩ := exists_readLexeme_eq h
  rfl

theorem frames_readLexemes {number : Nat} {lexemes : List Lexeme}
    (h : r.readLexemes number column lexemes = .ok r') : r'.frames = r.frames := by
  induction lexemes generalizing r column with
  | nil =>
    cases h
    rfl
  | cons lexeme rest ih =>
    obtain ⟨r₁, hfirst, hrest⟩ := bind_eq_ok.mp h
    rw [ih hrest, frames_readLexeme hfirst]

theorem depthAfter_take {s : Stretch} {rest : List Stretch}
    (hdepth : Stretch.depthAfter r.frames.length (s :: rest) = some n)
    (h : r.take line column s = .ok r') : Stretch.depthAfter r'.frames.length rest = some n := by
  cases s with
  | lexeme l =>
    rw [frames_readLexeme h]
    exact hdepth
  | terminator | remark | opening | unended =>
    cases h
    exact hdepth
  | setRadix content operand =>
    obtain ⟨r₁, hset, h⟩ := bind_eq_ok.mp h
    cases h
    obtain ⟨radix, -, hset⟩ := bind_eq_ok.mp hset
    obtain ⟨value, -, hset⟩ := bind_eq_ok.mp hset
    cases hset
    dsimp only [put]
    split <;> exact hdepth
  | closing =>
    cases h
    rw [Stretch.depthAfter] at hdepth
    cases hframes : r.frames with
    | nil => simp [hframes] at hdepth
    | cons frame frames =>
      simp only [closeGroup, hframes]
      simpa [hframes] using hdepth

/-- How many groups are open after some stretches. -/
theorem length_frames_takeAll (hdepth : Stretch.depthAfter r.frames.length stretches = some n)
    (h : r.takeAll line column stretches = .ok r') : r'.frames.length = n := by
  induction stretches generalizing r line column with
  | nil =>
    cases h
    exact Option.some.inj hdepth
  | cons s stretches ih =>
    obtain ⟨r₁, hfirst, hrest⟩ := bind_eq_ok.mp h
    exact ih (depthAfter_take hdepth hfirst) hrest

/-- What a reader has read from nothing is spelled by the stretches, if no group is open. -/
theorem exists_spelled_takeAll (hproper : ∀ s ∈ stretches, s.Proper) (hframes : r.frames = [])
    (h : ({ radix } : Reader).takeAll line column stretches = .ok r) :
    ∃ w, w.map Visit.stretch = stretches ∧ Forest.Spelled true false r.scope.reverse w [] := by
  obtain ⟨w, hstretches, -, -, htracks⟩ := exists_visits_takeAll hproper h
  obtain ⟨top, before, here, hsplit, houter, hscope⟩ :=
    htracks [] ⟨true, [], [], rfl, .root, .nil true⟩
  rw [hframes] at houter
  cases houter
  rw [nil_append, nil_append] at hsplit
  exact ⟨w, hstretches, hsplit ▸ (Forest.Read.closed hscope).spelled⟩

/-- **Balanced code that starts with no blank leaves one row.** -/
theorem exists_row_of_balanced {s : Symbol} {t : Text} (hcode : ∀ a ∈ s :: t, a.isCode = true)
    (hblank : s.isBlank = false) (hbalanced : Text.Balanced (s :: t))
    (h : ({ radix } : Reader).takeAll line column (Stretch.cut [] (s :: t)) = .ok r) :
    ∃ row, r.rows = [row.reverse] ∧ Row.Led row ∧ ∀ x ∈ row, x.value.Calm := by
  have hcode' := Stretch.isCode_cut hcode
  have hproper := Stretch.proper_cut (s :: t)
  have hdepth : Stretch.depthAfter ({ radix } : Reader).frames.length (Stretch.cut [] (s :: t)) =
      some 0 := (Stretch.depthAfter_cut ..).trans hbalanced
  have hframes : r.frames = [] := length_eq_zero_iff.mp (length_frames_takeAll hdepth h)
  obtain ⟨w, hstretches, hspelled⟩ := exists_spelled_takeAll hproper hframes h
  have hw : ∀ v ∈ w, v.stretch.isCode = true ∧ v.stretch.Proper := by
    intro v hv
    have hmem : v.stretch ∈ Stretch.cut [] (s :: t) := hstretches ▸ mem_map_of_mem hv
    exact ⟨hcode' _ hmem, hproper _ hmem⟩
  have hled : Row.Led r.scope.reverse.items := by
    obtain ⟨st, rest, hcut, hst⟩ :=
      Stretch.exists_cut_eq_cons (hcode s mem_cons_self) hblank hbalanced
    rw [hcut] at hstretches
    obtain ⟨v, w, rfl, rfl, -⟩ := map_eq_cons_iff.mp hstretches
    exact hspelled.led hst
  refine ⟨r.scope.reverse.items, ?_, hled, hspelled.calm hw⟩
  rw [rows, hframes, Forest.items_reverse, reverse_reverse, map_nil]

end Reader

end Macro10
