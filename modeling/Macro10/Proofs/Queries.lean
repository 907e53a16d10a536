import Macro10.Proofs.Conversion
import Macro10.Proofs.Document.WellFormed

/-!
# What the questions about a token mean

If all lists of siblings are linked, the questions about a token are questions about the list that
it stands in (`queries_eq_lists`).
-/

namespace Macro10

open Document

/-- **The questions about a token are answered by its list of siblings.** The nearest token is the
first of the tokens before or after it that will do; a line starts after the nearest terminator and
goes on to the next symbol that ends a line, which may be inside a group. -/
theorem queries_eq_lists {d : Document} (h : d.Linked) {parent : Option Id} {ids : List Id}
    (hscope : d.Scope parent ids) {k : Nat} {i : Id} (hi : ids[k]? = some i) :
    d.prevSolid i = .ok ((ids.take k).reverse.find? (!d.tests isSpacing ·)) ∧
    d.nextSolid i = .ok ((ids.drop (k + 1)).find? (!d.tests isSpacing ·)) ∧
    d.nextNonBlank i = .ok ((ids.drop (k + 1)).find? (!d.tests Token.isBlank ·)) ∧
    (∀ kind text, d.findOnLine i kind text =
      .ok (((ids.drop (k + 1)).takeWhile (!d.tests Token.isNewline ·)).find?
        (d.tests fun t => t.kind = kind && t.text = text))) ∧
    (∀ kind text, d.findInArguments i kind text =
      .ok (((ids.drop (k + 1)).takeWhile (!d.tests
          (fun t => t.isNewline || t.owner ≠ d.tokens[i]?.bind Token.owner) ·)).find?
        (d.tests fun t => t.kind = kind && t.text = text))) ∧
    (∃ texts, (ids.drop k).mapM d.renderToken = .ok texts ∧
      d.restOfLine i = .ok (texts.flatten.takeWhile (!·.endsLine))) ∧
    ∃ start texts, d.lineStart i = .ok start ∧
      ((d.lineBefore (ids.take k)).reverse ++ ids.drop k).head? = some start ∧
      ((d.lineBefore (ids.take k)).reverse ++ ids.drop k).mapM d.renderToken = .ok texts ∧
      d.lineText i = .ok (texts.flatten.takeWhile (!·.endsLine)) := by
  have hdrop := List.drop_eq_getElem?_toList_append (l := ids) (i := k)
  rw [hi, Option.toList_some, List.singleton_append] at hdrop
  rw [← List.take_append_drop k ids, hdrop] at hscope
  have hchained := h hscope
  simp only [List.find?_not_eq_head?_dropWhile, hdrop]
  exact ⟨hchained.prevSolid_eq, hchained.nextSolid_eq, hchained.nextNonBlank_eq,
    hchained.findOnLine_eq, hchained.findInArguments_eq, h.exists_restOfLine hscope,
    h.exists_lineText hscope⟩

/-- A comma on the second line, after a group that goes over two lines. -/
theorem queries_eq_lists_group :
    ∃ d, read "X\nA <B\nC> ,D\n" 8 = .ok d ∧ d.Linked ∧ d.Scope none d.root ∧
      d.root[6]? = some 9 ∧ d.prevSolid 9 = .ok (some 4) ∧ d.lineStart 9 = .ok 2 := by
  obtain ⟨d, hd, htest⟩ := exists_eq_ok_of_any (x := read "X\nA <B\nC> ,D\n" 8)
    (p := fun d => d.root[6]? = some 9 &&
      (d.root.take 6).reverse.find? (!d.tests isSpacing ·) = some 4 &&
      ((d.lineBefore (d.root.take 6)).reverse ++ d.root.drop 6).head? = some 2)
    (by decide +kernel)
  simp only [Bool.and_eq_true, decide_eq_true_eq] at htest
  obtain ⟨⟨hi, hprev⟩, hline⟩ := htest
  obtain ⟨f, normal, cs, hnormal⟩ := exists_normalized hd
  have hlinked : d.Linked := (hnormal.read.wellFormed hnormal.readRoot).chained
  obtain ⟨hsolid, -, -, -, -, -, start, texts, hstart, hhead, -⟩ :=
    queries_eq_lists hlinked .root hi
  rw [hprev] at hsolid
  cases hhead.symm.trans hline
  exact ⟨d, hd, hlinked, .root, hi, hsolid, hstart⟩

end Macro10
