import Macro10.Proofs.Conversion
import Macro10.Proofs.Row.NormalLines

/-!
# Conversion line by line

A source can be cut after any line that leaves no group and no comment block open: the parts are
converted each on its own, the second one with the radix that the first one leaves
(`convert_append`).
-/

namespace Macro10

/-- A group or a comment block is left open. -/
def Problem.leavesOpen : Problem → Bool
  | .neverClosed | .blockNeverClosed _ => true
  | _ => false

/-- No group and no comment block is left open. -/
def Reading.Closed (reading : Reading) : Prop :=
  ∀ d ∈ reading.document.diagnostics, d.problem.leavesOpen = false
deriving Decidable

namespace Reader

variable {r r₁ r₂ : Reader} {radix : Option Int} {newline : Text}

/-! ## What whole lines leave behind -/

theorem frames_of_closed (h : (r.finish newline).Closed) : r.frames = [] := by
  cases hframes : r.frames with
  | nil => rfl
  | cons frame frames =>
    have hmem : ⟨.neverClosed, frame.position, .warning, 1⟩ ∈
        (r.endGroups r.frames).diagnostics := by
      rw [hframes, endGroups]
      exact (diagnostics_endGroups _ frames).subset
        (List.mem_append_right _ (List.mem_singleton.mpr rfl))
    cases h _ hmem

theorem not_unended_of_closed {s : Text} (hclosed : (r.finish newline).Closed)
    (h : ({ radix } : Reader).takeAll 1 1 s.stretches = .ok r) (m : Text) :
    .unended m ∉ s.stretches := by
  intro hm
  obtain ⟨d, hd, hproblem⟩ := exists_of_unended hm h
  have hopen := hclosed d ((diagnostics_endGroups r r.frames).subset hd)
  rw [hproblem] at hopen
  cases hopen

theorem forest_of_frames (h : r.frames = []) : r.forest = r.scope.reverse := by
  rw [forest, h]
  rfl

/-! ## Reading on -/

/-- A text that leaves nothing open is read as whole lines, and what comes after it is read as if
it came first. -/
theorem exists_readLines_append {s t : Text} (hwhole : Line.Whole s) (hmerges : ¬Line.Merges s t)
    (hclosed : (r₁.finish newline).Closed)
    (h₁ : Reads radix s r₁) (h₂ : Reads r₁.radix t r₂) :
    ∃ r, Reads radix (s ++ t) r ∧ (r₁.forest.items = [] ∨ Row.Ended r₁.forest.items) ∧
      r.forest.items = r₁.forest.items ++ r₂.forest.items := by
  rw [readLines_split_eq_ok] at h₁ h₂
  obtain ⟨hdone, happend⟩ :=
    Text.exists_stretches_append hwhole hmerges (not_unended_of_closed hclosed h₁)
  have hitems := items_of_done hdone h₁
  have hmark : r₁.scope.items.head?.any isMark = false := by
    rcases hitems with hitems | ⟨t, rest, hitems⟩ <;> rw [hitems] <;> rfl
  have hframes := frames_of_closed hclosed
  have hforest : r₁.forest.items = r₁.scope.items.reverse := by
    rw [forest_of_frames hframes, Forest.items_reverse]
  obtain ⟨r, hr, hover⟩ := ((Over.start hframes).takeAll hmark t.stretches 1 1
    (Stretch.linesAfter 1 s.stretches) (Stretch.columnsAfter 1 s.stretches)).exists_right h₂
  refine ⟨r, ?_, ?_, ?_⟩
  · rw [readLines_split_eq_ok, happend, takeAll_append, h₁]
    exact hr
  · rw [hforest]
    rcases hitems with hitems | ⟨t, rest, hitems⟩
    · exact .inl (by rw [hitems]; rfl)
    · refine .inr ⟨_, by rw [hitems, List.getLast?_reverse]; rfl, ?_⟩
      cases t <;> decide
  · rw [hforest, forest, forest, Forest.items_reverse, Forest.items_reverse,
      hover.items_endGroups, List.reverse_append]

end Reader

/-- The text for the target is composed line by line. -/
theorem Forest.converted_append {f f₁ f₂ : Forest} (hitems : f.items = f₁.items ++ f₂.items)
    (hended : f₁.items = [] ∨ Row.Ended f₁.items) (newline : Text) :
    f.converted newline = f₁.converted newline ++ f₂.converted newline := by
  have hunmarked : ∀ x ∈ f₁.items ++ f₂.items, x.value.Unmarked := hitems ▸ f.unmarked_items
  rw [converted, hitems, Row.retarget_normal_append hended hunmarked, Item.textOf_append]
  rfl

/-- **Conversion is compositional at line boundaries.** -/
theorem convert_append {s t : Text} {radix radix' : Int} {reading : Reading} {out : Text}
    (hwhole : Line.Whole s) (hmerges : ¬Line.Merges s t)
    (hreading : Reading.ofSource s (some radix) = .ok reading) (hclosed : reading.Closed)
    (hradix : reading.radix = some radix')
    (hnewline : Line.newline (Line.split t) = Line.newline (Line.split s))
    (hnewline' : Line.newline (Line.split (s ++ t)) = Line.newline (Line.split s))
    (ht : convert t [] radix' = .ok out) :
    ∃ out', convert s [] radix = .ok out' ∧ convert (s ++ t) [] radix = .ok (out' ++ out) := by
  obtain ⟨r₁, h₁, rfl⟩ := Reading.ofSource_eq_ok.mp hreading
  have hradix₁ : r₁.radix = some radix' := (Reader.radix_endGroups r₁ r₁.frames).symm.trans hradix
  obtain ⟨r₂, h₂⟩ := exists_readLines_of_convert ht
  cases (convert_of_readLines h₂ []).symm.trans ht
  obtain ⟨r, hr, hended, hitems⟩ :=
    Reader.exists_readLines_append hwhole hmerges hclosed h₁ (hradix₁ ▸ h₂)
  refine ⟨_, convert_of_readLines h₁ [], (convert_of_readLines hr []).trans ?_⟩
  rw [hnewline', hnewline, Forest.converted_append hitems hended]
  rfl

/-- The second part is in the radix that the first one sets, and leaves a group open. -/
theorem convert_append_radix :
    ∃ out, convert "RADIX 8\nDEFINE INC(X)<\n LDA ^D17\n>\n" [] 10 = .ok out ∧
      convert ("RADIX 8\nDEFINE INC(X)<\n LDA ^D17\n>\n" ++
        " LDAI 17;x\nIFE A,<\n 20\n") [] 10 =
          .ok (out ++ " LDA #$0F;x\n.IF A = 0\n\n .BYTE $10\n\n.ENDIF") := by
  obtain ⟨reading, hreading, h⟩ := exists_eq_ok_of_any
    (x := Reading.ofSource "RADIX 8\nDEFINE INC(X)<\n LDA ^D17\n>\n" (some 10))
    (p := fun reading => decide (reading.Closed ∧ reading.radix = some 8)) (by decide +kernel)
  obtain ⟨out, hout, hdecide⟩ := exists_eq_ok_of_any
    (x := convert " LDAI 17;x\nIFE A,<\n 20\n" [] 8)
    (p := fun out =>
      decide (out = " LDA #$0F;x\n.IF A = 0\n\n .BYTE $10\n\n.ENDIF"))
    (by decide +kernel)
  obtain ⟨hclosed, hradix⟩ := of_decide_eq_true h
  obtain rfl := of_decide_eq_true hdecide
  exact convert_append (by decide) (by decide) hreading hclosed hradix (by decide) (by decide) hout

end Macro10
