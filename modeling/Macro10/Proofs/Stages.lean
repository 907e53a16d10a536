import Macro10.Proofs.Document.WellFormed
import Macro10.Proofs.Settled

/-!
# The stages of a conversion

A document is read, brought into normal form, and retargeted. After each of the three stages its
tokens form a tree, and the links are those of the tree (`wellFormed_stages`).
-/

namespace Macro10

open Document

/-- **The links fit after every stage of a conversion.** Neither later stage can fail. -/
theorem wellFormed_stages {source : Text} {radix : Int} {d : Document}
    (h : read source radix = .ok d) :
    (d.WellFormed ∧ d.Navigable) ∧
      ∃ normal, d.edit Edit.normalize = .ok normal ∧ (normal.WellFormed ∧ normal.Navigable) ∧
        ∃ target, normal.edit Retarget.retarget = .ok target ∧
          target.WellFormed ∧ target.Navigable := by
  obtain ⟨f, normal, cs, hnormal⟩ := exists_normalized h
  obtain ⟨target, out, htarget, hout⟩ := hnormal.exists_retargeted
  exact ⟨⟨hnormal.read.wellFormed hnormal.readRoot, hnormal.read.navigable hnormal.readRoot⟩,
    normal, hnormal.edit,
    ⟨hnormal.standing.wellFormed hnormal.root, hnormal.standing.navigable hnormal.root⟩,
    target, htarget, hout.outStanding.wellFormed hout.outRoot,
    hout.outStanding.navigable hout.outRoot⟩

/-- A directive with a body, a message that swallows a group, and a group that is not closed. -/
theorem wellFormed_stages_directive :
    ∃ d, read "IFN A,<B>\nPRINTX C<D>\n<E" 8 = .ok d ∧
      (d.WellFormed ∧ d.Navigable) ∧
      ∃ normal, d.edit Edit.normalize = .ok normal ∧ (normal.WellFormed ∧ normal.Navigable) ∧
        ∃ target, normal.edit Retarget.retarget = .ok target ∧
          target.WellFormed ∧ target.Navigable :=
  exists_eq_ok_and (by decide +kernel) wellFormed_stages

end Macro10
