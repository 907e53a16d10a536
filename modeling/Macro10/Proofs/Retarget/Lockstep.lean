import Macro10.Proofs.Document.Lockstep

/-!
# Two documents retargeted side by side

Every rule runs in lockstep with itself (`Edit.Course.Steady`): none looks at the text of a numeral
or at a string that was made. Only a message that has a numeral in it goes two ways, into a string
whose text differs too. No rule gives a numeral another text.
-/

namespace Macro10

open List
open Token (words)

variable {t : Text}

theorem Text.opensLiteral_quoteSingle (h : t.opensLiteral = true) :
    (Retarget.quoteSingle t).opensLiteral = true := by
  unfold Retarget.quoteSingle
  split
  · rfl
  · exact h

theorem Text.opensLiteral_requote (t : Text) : (Retarget.requote t).opensLiteral = true := rfl

theorem Retarget.closingKeyword?_of_opensLiteral (h : t.opensLiteral = true) :
    closingKeyword? t = none := by
  rw [closingKeyword?, if_neg (Text.ne_of_opensLiteral h (by decide)),
    if_neg (Text.ne_of_opensLiteral h (by decide))]

theorem Keyword.not_isReported_of_opensLiteral (h : t.opensLiteral = true) :
    isReported (Text.upper t) = false := by
  have hwords : ∀ word ∈ message :: immediates, word.opensLiteral = false := by decide
  rw [Bool.eq_false_iff]
  intro hreported
  have hword := hwords _ (mem_of_isReported hreported)
  rw [Text.opensLiteral_upper h] at hword
  cases hword

namespace Token.Alike

variable {P : Position → Prop} {t u : Token}

theorem closingKeyword? (h : t.Alike P u) :
    Retarget.closingKeyword? u.upper = Retarget.closingKeyword? t.upper := by
  rcases h.upper_eq_or with heq | ⟨ht, hu⟩
  · rw [heq]
  · rw [Retarget.closingKeyword?_of_opensLiteral ht, Retarget.closingKeyword?_of_opensLiteral hu]

theorem isGap (h : t.Alike P u) :
    (u.isBlank && !u.words.isEmpty) = (t.isBlank && !t.words.isEmpty) := by
  by_cases hkind : t.kind = .whitespace
  · rw [h.eq (by simp [hkind]) (by simp [hkind])]
  · simp [Token.isBlank, h.kind, hkind]

end Token.Alike

namespace Retarget

open Edit Edit.Course Document

variable {text : Text} {d e : Document} {t : Token}

variable {c : Course} {ids : List Id} {i : Id} {group : Id → Edit Unit}

/-! ## Single tokens -/

/-- The texts that the rules give to tokens, whatever these were before. -/
def fixedTexts : List Text :=
  [dataDirective, " .SET ", "*", "<>", ".OUT", conditional, macroDefinition, ".ENDIF", ".ENDMACRO",
    " 1 ", " 2 ", [.char ' ']]

theorem not_isReported_fixed (h : text ∈ fixedTexts) :
    Keyword.isReported (Text.upper text) = false := by
  have hall : ∀ text ∈ fixedTexts, Keyword.isReported (Text.upper text) = false := by decide
  exact hall text h

theorem steady_setFixed (hi : i ∈ ids) (h : text ∈ fixedTexts) : c.Steady ids (setText i text) :=
  steady_setText hi (not_isReported_fixed h)

theorem not_isReported_quoteSingle (h : quoteSingle text ≠ text) :
    Keyword.isReported (Text.upper (quoteSingle text)) = false := by
  unfold quoteSingle at h ⊢
  split at h
  · exact Keyword.not_isReported_of_opensLiteral rfl
  · exact absurd rfl h

/-- Whether a literal gets another text or keeps its own, it starts like one. -/
theorem lockstepOn_respell {p p' : Prop} [Decidable p] [Decidable p'] {a b : Text}
    (hreached : c.Reached ids d e) (hi : i ∈ ids)
    (h : ∀ t u, d.tokens[i]? = some t → e.tokens[i]? = some u → t.Alike c.varying u →
      t.Varies c.varying ∧ t.words.opensLiteral = true ∧ u.words.opensLiteral = true)
    (ha : a.opensLiteral = true) (hb : b.opensLiteral = true) :
    c.LockstepOn ids d e Eq (if p then setText i a else pure ())
      (if p' then setText i b else pure ()) := by
  have hrun {p : Prop} [Decidable p] {a : Text} {d d' : Document}
      (hrun : (if p then setText i a else pure () : Edit Unit) d = .ok () d') :
      ∃ f : Token → Token, d' = d.change i f ∧ ∀ t, f t = t ∨ f t = { t with text := some a } := by
    split at hrun
    · rw [setText, update] at hrun
      split at hrun
      · obtain ⟨-, rfl⟩ := EStateM.Result.ok.inj hrun
        exact ⟨_, rfl, fun _ => .inr rfl⟩
      · cases hrun
    · obtain ⟨-, rfl⟩ := EStateM.Result.ok.inj hrun
      exact ⟨id, (change_id _ i).symm, fun _ => .inl rfl⟩
  intro _ _ d' e' hd he
  obtain ⟨f, rfl, hf⟩ := hrun hd
  obtain ⟨g, rfl, hg⟩ := hrun he
  refine ⟨rfl, hreached.evolve (.change fun t ht => ?_)
    (hreached.alike.change fun t u ht hu htu => ?_)⟩
  · rcases hf t with hft | hft <;> rw [hft]
    · exact .refl t
    · exact evolves_setText hreached hi (Keyword.not_isReported_of_opensLiteral ha) ht
  · obtain ⟨hvaries, htwords, huwords⟩ := h t u ht hu htu
    have hothers := htu.others
    rcases hf t with hft | hft <;> rcases hg u with hgu | hgu <;> rw [hft, hgu]
    · exact htu
    · exact ⟨by rw [hothers], .inr ⟨hvaries, htwords, hb⟩⟩
    · exact ⟨hothers, .inr ⟨hvaries, ha, huwords⟩⟩
    · exact htu.setText_of_varies hvaries ha hb

theorem steady_retargetString (hi : i ∈ ids) : c.Steady ids (retargetString i) := by
  intro d e hreached
  refine lockstepOn_token_bind fun t u ht hu => ?_
  rcases (hreached.alike.tokens ht hu).text with htext | ⟨hvaries, htwords, huwords⟩
  · have hwords : u.words = t.words := by rw [words, htext, words]
    rw [hwords]
    split
    · next hne => exact steady_setText hi (not_isReported_quoteSingle hne) d e hreached
    · exact steady_pure () d e hreached
  · refine lockstepOn_respell hreached hi (fun t' u' ht' hu' _ => ?_)
      (Text.opensLiteral_quoteSingle htwords) (Text.opensLiteral_quoteSingle huwords)
    cases ht.symm.trans ht'
    cases hu.symm.trans hu'
    exact ⟨hvaries, htwords, huwords⟩

theorem steady_startsStatement (i : Id) : c.Steady ids (startsStatement i) := by
  have hfirst : Agree c.varying Eq (fun d => do d.solidFrom (← d.lineStart i))
      (fun e => do e.solidFrom (← e.lineStart i)) :=
    (agree_lineStart i).bind fun a b hab => hab ▸ agree_solidFrom a
  exact (lockstep_ask hfirst).seq fun first => (lockstep_ask (agree_prevSolid i)).seq fun before =>
    (lockstep_ask (agree_isOperator _ before)).seq fun _ => steady_pure _

theorem steady_inParentheses (i : Id) : c.Steady ids (inParentheses i) := by
  refine (lockstep_token i).bind fun t u h => ?_
  rw [h.parent]
  split
  · exact steady_pure _
  · exact (lockstep_token _).bind fun _ _ h => lockstep_pure (by rw [h.opening])

theorem steady_announceData (i : Id) : c.Steady ids (announceData i) := by
  refine (steady_startsStatement i).seq fun starts => ?_
  split
  · exact steady_pure _
  refine (steady_inParentheses i).seq fun inside => ?_
  split
  · exact steady_pure _
  · exact (steady_synthesize_word _ (not_isReported_fixed (by decide))).seq fun _ =>
      (steady_synthesize _ _ (by decide)).seq fun _ => steady_pure _

theorem steady_retargetAssignment (hi : i ∈ ids) : c.Steady ids (retargetAssignment i) := by
  refine (lockstep_token i).bind fun t u h => ?_
  rw [h.next]
  split
  · exact steady_setFixed hi (by decide)
  · refine (lockstep_ask (agree_isOperator _ _)).seq fun colon => ?_
    split
    · exact (steady_blank _).seq fun _ => steady_setFixed hi (by decide)
    · exact steady_setFixed hi (by decide)

theorem steady_retargetPoint (hi : i ∈ ids) : c.Steady ids (retargetPoint i) := by
  refine (lockstep_ask (agree_nextNonBlank i)).seq fun following =>
    (lockstep_ask (agree_isOperator _ following)).seq fun plus =>
    (lockstep_ask (agree_isOperator _ following)).seq fun minus => ?_
  split
  · exact steady_setFixed hi (by decide)
  · exact steady_pure ()

theorem steady_retargetPercent (i : Id) : c.Steady ids (retargetPercent i) := by
  refine (lockstep_token i).bind fun t u h => ?_
  rw [h.next]
  split
  · exact steady_pure ()
  · refine (lockstep_token _).bind fun t u h => ?_
    rw [h.kind]
    split
    · exact steady_blank i
    · exact steady_pure ()

theorem steady_endsLine (parent : Option Id) : c.Steady ids (endsLine parent) := by
  cases parent with
  | none => exact steady_pure _
  | some j => exact (lockstep_token j).bind fun _ _ h => lockstep_pure (by rw [h.opening])

theorem steady_retargetComma (i : Id) : c.Steady ids (retargetComma i) := by
  have hend (dangling : Bool) : c.Steady ids (if dangling then blank i else pure ()) := by
    split
    · exact steady_blank i
    · exact steady_pure ()
  refine (lockstep_ask (agree_nextNonBlank i)).seq fun following => ?_
  dsimp only
  split
  · refine (lockstep_token i).bind fun t u h => ?_
    rw [h.parent]
    exact (steady_endsLine _).seq hend
  · refine (lockstep_token _).bind fun t u h => ?_
    rw [h.isNewline, h.kind]
    exact (steady_pure _).seq hend

theorem steady_retargetOperator (hi : i ∈ ids) : c.Steady ids (retargetOperator i) := by
  refine (lockstep_token i).bind fun t u h => ?_
  rcases h.text with htext | ⟨-, htwords, huwords⟩
  · rw [htext]
    split
    · split
      · exact steady_retargetAssignment hi
      split
      · exact steady_setFixed hi (by decide)
      split
      · exact steady_retargetPoint hi
      split
      · exact steady_retargetPercent i
      split
      · exact steady_retargetComma i
      · exact steady_pure ()
    · exact steady_pure ()
  · -- what starts like a literal is none of the operators
    have hnone (t : Token) (ht : t.words.opensLiteral = true) :
        ∃ text, t.text = some text ∧ text ≠ "=" ∧ text ≠ "==" ∧
          text ≠ "!=" ∧ text ≠ "." ∧ text ≠ "%" ∧
          text ≠ "," := by
      cases htext : t.text with
      | none =>
        rw [words, htext] at ht
        cases ht
      | some text =>
        rw [words, htext, Option.getD_some] at ht
        refine ⟨text, rfl, ?_, ?_, ?_, ?_, ?_, ?_⟩ <;>
          exact Text.ne_of_opensLiteral ht (by decide)
    obtain ⟨a, ha, ha₁, ha₂, ha₃, ha₄, ha₅, ha₆⟩ := hnone t htwords
    obtain ⟨b, hb, hb₁, hb₂, hb₃, hb₄, hb₅, hb₆⟩ := hnone u huwords
    simp only [ha, hb, ha₁, ha₂, ha₃, ha₄, ha₅, ha₆, hb₁, hb₂, hb₃, hb₄, hb₅, hb₆, decide_false,
      Bool.or_self, Bool.false_eq_true, if_false]
    exact steady_pure ()

/-! ## Statements -/

theorem steady_statementRest (ahead : List Id) : c.Steady ids (statementRest ahead) := by
  induction ahead with
  | nil => exact steady_pure _
  | cons i rest ih =>
    refine (lockstep_token i).bind fun t u h => ?_
    rw [h.isNewline, h.kind]
    split
    · exact steady_pure _
    · exact ih.seq fun _ => steady_pure _

theorem steady_allBlank (places : List Id) : c.Steady ids (allBlank places) := by
  induction places with
  | nil => exact steady_pure _
  | cons i rest ih =>
    refine (lockstep_token i).bind fun t u h => ?_
    rw [h.isBlank]
    split
    · exact ih
    · exact steady_pure _

theorem steady_blankLeading (places : List Id) : c.Steady ids (blankLeading places) := by
  induction places with
  | nil => exact steady_pure ()
  | cons i rest ih =>
    refine (lockstep_token i).bind fun t u h => ?_
    rw [h.isBlank]
    split
    · exact (steady_blank i).seq fun _ => ih
    · exact steady_pure ()

theorem steady_isGap (i : Id) : c.Steady ids (isGap i) :=
  (lockstep_token i).bind fun _ _ h => lockstep_pure h.isGap.symm

theorem steady_splitSeparator (places : List Id) : c.Steady ids (splitSeparator places) := by
  cases places with
  | nil => exact steady_pure _
  | cons i rest => exact (steady_isGap i).seq fun _ => steady_pure _

theorem steady_splitTrailing (taken : List Id) (following : Option Id) :
    c.Steady ids (splitTrailing taken following) := by
  unfold splitTrailing
  split
  · next j last _ =>
    refine (lockstep_token j).bind fun t u h => (steady_isGap last).seq fun gap => ?_
    rw [h.kind]
    split <;> exact steady_pure _
  · exact (lockstep_token _).bind fun _ _ _ => steady_pure _
  · exact steady_pure _

/-! ### Words -/

section

variable (hreached : c.Reached ids d e) (ht : d.tokens[i]? = some t)
include hreached ht

/-- A look at a word shows the same token in both documents. -/
theorem lockstepOn_word_bind {f : Token → Edit Continuation} (hkind : t.kind = .identifier)
    (h : c.LockstepOn ids d e Eq (f t) (f t)) :
    c.LockstepOn ids d e Eq (token i >>= f) (token i >>= f) := by
  refine lockstepOn_token_bind fun t' u ht' hu => ?_
  cases ht.symm.trans ht'
  obtain rfl : u = t :=
    (hreached.alike.tokens ht hu).eq (by simp [hkind]) (by simp [hkind])
  exact h

variable (hc : c.marks = true)
include hc

theorem steady_complaint {problem : Problem} {length : Int} {severity : Severity}
    (h : Diagnostic.Complains ⟨problem, t.position.getD ⟨1, 1⟩, severity, length⟩ t) :
    c.Steady ids (report problem t.position length severity) :=
  steady_report hc ⟨i, hreached.evolves.complains ht h⟩

variable (hi : i ∈ ids) (hkind : t.kind = .identifier)
include hi hkind

/-- The one rule that lets the documents differ in a further text: the string that it makes. -/
theorem lockstepOn_retargetMessage (hword : t.upper = Keyword.message) (ahead : List Id) :
    c.LockstepOn ids d e Eq (retargetMessage i ahead) (retargetMessage i ahead) := by
  refine lockstepOn_word_bind hreached ht hkind ?_
  have hcomplaint : c.Steady ids (report .noMessage t.position Keyword.message.length .warning) :=
    steady_complaint hreached ht hc ⟨hkind, rfl, .inr ⟨hword, rfl, rfl⟩⟩
  refine Lockstep.seq (steady_setFixed hi (by decide)) (fun _ =>
    (steady_statementRest ahead).seq fun statement =>
    (steady_splitSeparator statement).seq fun front =>
    (steady_splitTrailing front.2 _).seq fun back =>
    (lockstep_ask (agree_renderList back.1)).bind fun a b hab =>
    (steady_blankAll back.1).seq fun _ => ?_) d e hreached
  dsimp only
  rw [Text.isEmpty_trim, Text.isEmpty_trim, hab]
  have hstring : c.Lockstep ids Eq
      (synthesize .string (.char '"' :: Text.replaceSymbol (.char '"') (.char '\'') (Text.trim a) ++
        [.char '"']))
      (synthesize .string (.char '"' :: Text.replaceSymbol (.char '"') (.char '\'') (Text.trim b) ++
        [.char '"'])) :=
    lockstep_synthesize ⟨by decide, fun h => by cases h⟩ (.inr ⟨rfl, rfl, rfl⟩)
  split
  · exact hcomplaint.seq fun _ => steady_pure _
  split
  · exact (steady_pure _).seq fun _ => hstring.seq fun _ => steady_pure _
  · exact (steady_synthesize _ _ (by decide)).seq fun _ => hstring.seq fun _ => steady_pure _

end

theorem steady_brace (i : Id) : c.Steady ids (brace i) := by
  refine (lockstep_token i).bind fun t u h => ?_
  rw [h.kind, h.opening, h.closing]
  split
  · exact steady_relink i (fun _ _ => rfl) fun _ => rfl
  · exact steady_pure ()

theorem steady_retargetRepetition (i : Id) : c.Steady ids (retargetRepetition i) := by
  refine (lockstep_ask (agree_findInArguments i .operator nofun nofun _)).seq fun comma => ?_
  split
  · exact steady_pure ()
  · refine (lockstep_ask (agree_nextNonBlank _)).seq fun following => ?_
    split
    · exact steady_pure ()
    · exact steady_brace _

/-! ## Arguments of directives -/

theorem steady_leadingParts (i : Id) : c.Steady ids (leadingParts i) := by
  refine (lockstep_token i).bind fun t u h => ?_
  rw [h.parts, h.body]
  dsimp only
  split
  · exact steady_pure _
  · split
    · exact steady_pure _
    · exact lockstep_throw _ _

theorem steady_retargetPass (hi : i ∈ ids) {condition : Text} (h : condition ∈ fixedTexts) :
    c.Steady ids (retargetPass condition i) := by
  refine (steady_setFixed hi (by decide)).seq fun _ =>
    (steady_leadingParts i).seq fun leading => ?_
  cases leading with
  | nil => exact (steady_synthesize _ _ (by decide)).seq fun _ => steady_pure _
  | cons first rest =>
    -- the first argument gets the condition, after it was blanked out
    have hfirst : c.Steady ids (blank first >>= fun _ => blankAll rest >>= fun _ =>
        setText first condition >>= fun _ => pure Continuation.none) :=
      .blank_bind fun _ => (steady_blankAll rest).seq fun _ =>
        (steady_setFixed mem_cons_self h).seq fun _ => steady_pure _
    simpa only [blankAll, bind_assoc] using hfirst

theorem steady_operatorsAmong (text : Text) (places : List Id) :
    c.Steady ids (operatorsAmong text places) := by
  induction places with
  | nil => exact steady_pure _
  | cons i rest ih =>
    exact (lockstep_ask (agree_isOperator text _)).seq fun _ => ih.seq fun _ => steady_pure _

theorem steady_spaceAll (places : List Id) : c.Steady ids (spaceAll places) := by
  induction places generalizing ids with
  | nil => exact steady_pure ()
  | cons i rest ih =>
    exact .blank_bind fun _ =>
      (steady_setFixed mem_cons_self (by decide)).seq fun _ => ih

theorem steady_retargetDefinition (hi : i ∈ ids) : c.Steady ids (retargetDefinition i) := by
  refine (steady_setFixed hi (by decide)).seq fun _ =>
    (steady_leadingParts i).seq fun leading =>
    (steady_operatorsAmong _ leading).seq fun opens =>
    (steady_operatorsAmong _ leading).seq fun closes =>
    (steady_operatorsAmong _ leading).seq fun commas =>
    (steady_spaceAll _).seq fun _ => (steady_blankAll _).seq fun _ =>
    (steady_spaceAll _).seq fun _ => (lockstep_token i).bind fun t u h => ?_
  rw [h.body]
  split
  · exact steady_blankLeading _
  · exact steady_pure ()

/-! ## Rules that come upon groups -/

section

variable (hgroup : ∀ ids i, c.Steady ids (group i))
include hgroup

theorem steady_retargetOperand (places : List Id) :
    c.Steady ids (retargetOperand group places) := by
  induction places generalizing ids with
  | nil => exact steady_pure ()
  | cons i rest ih =>
    intro d e hreached
    refine lockstepOn_token_bind_cases hreached (fun t u ht hu _ hreached => ?_)
      fun t u h hkind => ?_
    · have h := hreached.alike.tokens ht hu
      have hi : i ∈ i :: ids := mem_cons_self
      dsimp only
      rw [h.kind]
      split
      · -- a string that was made may differ, and then it still does
        have hreported := Keyword.not_isReported_of_opensLiteral (Text.opensLiteral_requote t.words)
        have hstring : c.LockstepOn (i :: ids) d e Eq (setText i (requote t.words))
            (setText i (requote u.words)) := by
          rcases h.text with htext | ⟨hvaries, -⟩
          · rw [show u.words = t.words by rw [words, htext, words]]
            exact steady_setText hi hreported d e hreached
          · refine lockstepOn_update hreached (fun _ => evolves_setText hreached hi hreported)
              fun t' u' ht' _ htu => ?_
            cases ht.symm.trans ht'
            exact htu.setText_of_varies hvaries (Text.opensLiteral_requote _)
              (Text.opensLiteral_requote _)
        exact hstring.bind fun _ _ _ => ih
      · exact (hgroup _ i).seq (fun _ => ih) d e hreached
      · exact (steady_retargetOperator hi).seq (fun _ => ih) d e hreached
      · exact (steady_pure ()).seq (fun _ => ih) d e hreached
    · simp only [h.kind, hkind]
      exact (steady_pure ()).seq fun _ => ih

theorem steady_retargetExpression (body : Option Id) (comparison : Text) (ahead : List Id) :
    c.Steady ids (retargetExpression group body comparison ahead) := by
  induction ahead generalizing ids with
  | nil => exact steady_pure _
  | cons i rest ih =>
    have hend (ids : List Id) (_ : Unit) : c.Steady ids (do
        let later ← retargetExpression group body comparison rest
        return (⟨i :: later.tokens, later.taken + 1⟩ : Continuation)) :=
      ih.seq fun _ => steady_pure _
    unfold retargetExpression
    split
    · exact steady_pure _
    refine lockstep_token_bind_cases (fun t u h hkind => ?_) fun t u h hkind => ?_
    all_goals
      rw [h.isNewline, h.kind, h.isOperator]
      split
      · exact steady_pure _
    · split
      · exact (steady_blank i).seq fun _ => (steady_synthesize _ _ (by decide)).seq fun _ =>
          (steady_synthesize _ _ (by decide)).seq fun _ => steady_pure _
      dsimp only
      split
      · exact (steady_retargetString mem_cons_self).seq (hend _)
      · exact (hgroup _ i).seq (hend _)
      · exact (steady_retargetOperator mem_cons_self).seq (hend _)
      · exact (steady_pure ()).seq (hend _)
    · rw [if_neg (by simp [Token.isOperator, hkind])]
      simp only [hkind]
      exact (steady_pure ()).seq (hend ids)

theorem steady_retargetCondition (hi : i ∈ ids) (comparison : Text) (ahead : List Id) :
    c.Steady ids (retargetCondition group comparison i ahead) := by
  refine (lockstep_token i).bind fun t u h =>
    (steady_setFixed hi (by decide)).seq fun _ => ?_
  rw [h.body]
  exact steady_retargetExpression hgroup _ comparison ahead

variable (hc : c.marks = true)
include hc

section

variable (hreached : c.Reached ids d e) (ht : d.tokens[i]? = some t) (hi : i ∈ ids)
  (hkind : t.kind = .identifier)
include hreached ht hi hkind

theorem lockstepOn_retargetImmediate (hword : Keyword.immediates.elem t.upper = true)
    (ahead : List Id) :
    c.LockstepOn ids d e Eq (retargetImmediate group i ahead)
    (retargetImmediate group i ahead) := by
  refine lockstepOn_word_bind hreached ht hkind ?_
  refine Lockstep.seq (steady_setText hi (Keyword.not_isReported_dropLast hword)) (fun _ =>
    (steady_statementRest ahead).seq fun operand =>
    (steady_allBlank operand).seq fun blank => ?_) d e hreached
  split
  · exact (steady_complaint hreached ht hc ⟨hkind, rfl, .inl ⟨hword, rfl, rfl⟩⟩).seq fun _ =>
      steady_pure _
  · exact (steady_blankLeading operand).seq fun _ =>
      (steady_retargetOperand hgroup operand).seq fun _ =>
      (steady_synthesize _ _ (by decide)).seq fun _ =>
      (steady_synthesize _ _ (by decide)).seq fun _ => steady_pure _

theorem lockstepOn_retargetWord (ahead : List Id) :
    c.LockstepOn ids d e Eq (retargetWord group i ahead) (retargetWord group i ahead) := by
  refine lockstepOn_word_bind hreached ht hkind ?_
  dsimp only
  split
  · exact (steady_retargetRepetition i).seq (fun _ => steady_pure _) d e hreached
  split
  · exact (steady_setFixed hi (by decide)).seq (fun _ => steady_pure _) d e hreached
  split
  · next hword => exact lockstepOn_retargetImmediate hgroup hc hreached ht hi hkind hword ahead
  split
  · next hword => exact lockstepOn_retargetMessage hreached ht hc hi hkind hword ahead
  split
  · exact steady_retargetCondition hgroup hi _ ahead d e hreached
  · exact steady_retargetCondition hgroup hi _ ahead d e hreached
  · exact steady_retargetPass hi (by decide) d e hreached
  · exact steady_retargetPass hi (by decide) d e hreached
  · exact (steady_retargetDefinition hi).seq (fun _ => steady_pure _) d e hreached
  · exact steady_pure _ d e hreached

end

theorem steady_retargetList (taken : Nat) (places : List Id) :
    c.Steady ids (retargetList group taken places) := by
  induction places generalizing ids taken with
  | nil => cases taken <;> exact steady_pure _
  | cons i rest ih =>
    cases taken with
    | succ taken => exact ih taken
    | zero =>
      have hnext (ids : List Id) (f : List Id → List Id) :
          c.Steady ids (retargetList group 0 rest >>= fun later => pure (f later)) :=
        (ih 0).seq fun _ => steady_pure _
      have hi : i ∈ i :: ids := mem_cons_self
      intro d e hreached
      refine lockstepOn_token_bind_cases hreached (fun t u ht hu _ hreached => ?_)
        fun t u h hkind => ?_
      · rw [(hreached.alike.tokens ht hu).kind]
        split
        · exact (steady_retargetString hi).seq
            (fun _ => (steady_announceData i).seq fun _ => hnext _ _) d e hreached
        · exact (steady_announceData i).seq (fun _ => hnext _ _) d e hreached
        · exact (steady_retargetOperator hi).seq (fun _ => hnext _ _) d e hreached
        · next hkind =>
          refine (lockstepOn_retargetWord hgroup hc hreached ht hi hkind rest).bind
            fun continuation _ heq => ?_
          subst heq
          exact (ih _).seq fun _ => steady_pure _
        · exact (hgroup _ i).seq (fun _ => hnext _ _) d e hreached
        · exact hnext _ _ d e hreached
        · exact hnext _ _ d e hreached
      · simp only [h.kind, hkind]
        exact (steady_announceData i).seq fun _ => hnext _ _

theorem steady_retargetScope (places : List Id) (parent : Option Id) :
    c.Steady ids (retargetScope group places parent) :=
  (steady_retargetList hgroup hc 0 places).seq fun new => (steady_link new parent).seq fun _ =>
    steady_pure _

end

/-! ## Groups and documents -/

theorem not_isReported_closingKeyword? {word keyword : Text}
    (h : closingKeyword? word = some keyword) :
    Keyword.isReported (Text.upper keyword) = false := by
  unfold closingKeyword? at h
  split at h
  · cases h
    exact not_isReported_fixed (by decide)
  split at h
  · cases h
    exact not_isReported_fixed (by decide)
  · cases h

theorem steady_closingTokens (owner : Id) : c.Steady ids (closingTokens owner) := by
  refine (lockstep_token owner).bind fun t u h => ?_
  rw [h.closingKeyword?]
  split
  · exact steady_pure _
  · next keyword hkeyword =>
    exact (steady_synthesize_word _ (not_isReported_closingKeyword? hkeyword)).seq fun _ =>
      steady_pure _

theorem lockstep_bodyOwner? {u : Token} (h : t.Alike c.varying u) (i : Id) :
    c.Lockstep ids Eq (bodyOwner? i t) (bodyOwner? i u) := by
  unfold bodyOwner?
  rw [h.owner]
  split
  · exact steady_pure _
  · exact (lockstep_token _).bind fun _ _ h => lockstep_pure (by rw [h.body])

theorem steady_retargetGroup (hc : c.marks = true) (fuel : Nat) :
    ∀ ids i, c.Steady ids (retargetGroup fuel i) := by
  induction fuel with
  | zero => exact fun ids i => lockstep_throw _ _
  | succ fuel ih =>
    intro ids i
    refine (lockstep_token i).bind fun t u h => (lockstep_bodyOwner? h i).seq fun owner => ?_
    rw [h.children]
    split
    · exact (steady_retargetScope ih hc _ _).seq fun _ =>
        steady_relink i (fun _ _ => rfl) fun _ => rfl
    · refine Lockstep.seq (steady_relink i (fun _ _ => rfl) fun _ => rfl) fun _ => ?_
      refine (steady_retargetScope ih hc _ _).seq fun children => ?_
      refine lockstep_get.bind fun d e halike => ?_
      rw [halike.newline]
      refine (steady_synthesize _ _ (by decide)).seq fun first =>
        (steady_synthesize _ _ (by decide)).seq fun last =>
        (steady_closingTokens _).seq fun closing => ?_
      exact Lockstep.seq (steady_relink i (fun _ _ => rfl) fun _ => rfl) fun _ =>
        steady_link _ _

/-- **Two runs that retarget alike documents stay in step.** -/
theorem steady_retarget (hc : c.marks = true) : c.Steady ids retarget := by
  refine lockstep_get.bind fun d e halike => ?_
  rw [halike.walkLimit, halike.root]
  exact (steady_retargetScope (steady_retargetGroup hc _) hc _ none).seq fun root =>
    steady_setRoot root

/-- **To retarget a document lets it evolve.** -/
theorem evolves_retarget {d' : Document} (hd : d.edit retarget = .ok d') : d.Evolves true d' :=
  evolves_of_steady (fun _ hc => steady_retarget hc) hd

end Retarget

end Macro10
