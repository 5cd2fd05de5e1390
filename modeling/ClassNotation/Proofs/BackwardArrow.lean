import ClassNotation.Proofs.Composition
import ClassNotation.Proofs.RelationPhrases

/-! The backward arrow is the forward arrow read from its other end. The two relations that are read
differ in nothing but the arrow itself, and links do not depend on which of the two it is. -/
namespace ClassNotation

/-- A model depends on the relations of its outline through the links of each name only. -/
theorem Outline.model_congr {o p : Outline} (hclasses : o.classes = p.classes) (henums : o.enums = p.enums)
    (hmarks : o.abstractMarks = p.abstractMarks) (hlinks : ∀ name, o.links.of name = p.links.of name) :
    o.model = p.model := by
  have hdecl : o.classDecl = p.classDecl := by
    funext h
    simp only [classDecl, hmarks, hlinks]
  simp only [model, hclasses, henums, hdecl]

theorem Relation.linksOf_backward (left right : Text) (k m : Option Cardinality) (name : Text) :
    (ofWritten left k .backward m right).linksOf name = (ofWritten right m .forward k left).linksOf name := rfl

namespace Canonical
open Grammar

/-- Where no cardinality stands before it, a name does not consist of the digit that is one and
further characters. The digit alone may be a name. -/
def Unglued (k : Option Cardinality) (w : Word) : Prop :=
  k = none → w.text.head? = some '1' → w.text = ['1']

instance (k : Option Cardinality) (w : Word) : Decidable (Unglued k w) :=
  inferInstanceAs (Decidable (k = none → w.text.head? = some '1' → w.text = ['1']))

/-- Alone a written relation holds that relation and nothing else. -/
theorem outline_relationText {left right : Word} {k m : Option Cardinality} {a : Arrow} (h : Unglued m right) :
    Outline.ofText (relationText left k a m right) =
      ⟨[], [], [], [Relation.ofWritten left.text k a m right.text]⟩ := by
  have hrun : Relation.grammar.run (relationText left k a m right ++ []) =
      some (Relation.ofWritten left.text k a m right.text, []) :=
    run_relationText stops_nil fun hm hone => ⟨h hm hone, stops_nil⟩
  have hmarks : abstractMark.scan (relationText left k a m right ++ []) = abstractMark.scan [] :=
    marks_relationText stops_nil (run_afterBlanks_of_stops stops_nil)
  rw [List.append_nil] at hrun hmarks
  rw [Outline.ofText, ClassHeader.opensFirst.scan_eq_nil relationText_no_brace,
    EnumHeader.opensFirst.scan_eq_nil relationText_no_brace, hmarks, Relation.wordLed.scan_of_run hrun stops_nil,
    scan_nil, scan_nil]

/-- A relation between two semicolons adds itself to what the text around it holds. -/
theorem outline_surrounded {d : Text} (hd : BracesClosed d) {left right : Word} {k m : Option Cardinality}
    {a : Arrow} (h : Unglued m right) (e : Text) :
    Outline.ofText (d ++ ';' :: (relationText left k a m right ++ ';' :: e)) =
      Outline.ofText d ++ (⟨[], [], [], [Relation.ofWritten left.text k a m right.text]⟩ ++ Outline.ofText e) := by
  rw [Outline.ofText_append hd, Outline.ofText_append (.of_not_mem relationText_no_brace), outline_relationText h]

/-- In any document a relation with a backward arrow can be written from its other end, with the
forward arrow, and the model stays the same. -/
theorem backward_arrow_reads_as_forward (d e : Text) (left right : Word) (k m : Option Cardinality)
    (hd : BracesClosed d) (hleft : Unglued k left) (hright : Unglued m right) :
    Model.ofText (d ++ ';' :: (relationText left k .backward m right ++ ';' :: e)) =
      Model.ofText (d ++ ';' :: (relationText right m .forward k left ++ ';' :: e)) := by
  rw [Model.ofText, Model.ofText, outline_surrounded hd hright, outline_surrounded hd hleft]
  refine Outline.model_congr rfl rfl rfl fun name => ?_
  simp only [Outline.links_append]
  simp only [Outline.links, Links.of_ofRelations, List.flatMap_cons, List.flatMap_nil, Relation.linksOf_backward]

/-- A keyword and the digit as names, with a cardinality at one end. -/
theorem backward_arrow_reads_as_forward_keyword :
    let d := "class 1 \x7b +int x; \x7d abstract class 1".toList
    let e := "class class \x7b\x7d".toList
    let left : Word := ⟨"class".toList, by decide⟩
    let right : Word := ⟨['1'], by decide⟩
    BracesClosed d ∧ Unglued (some .many) left ∧ Unglued none right ∧
      Model.ofText (d ++ ';' :: (relationText left (some .many) .backward none right ++ ';' :: e)) =
        Model.ofText (d ++ ';' :: (relationText right none .forward (some .many) left ++ ';' :: e)) := by
  intro d e left right
  have hd : BracesClosed d := by decide
  have hleft : Unglued (some .many) left := by decide
  have hright : Unglued none right := by decide
  exact ⟨hd, hleft, hright, backward_arrow_reads_as_forward d e left right _ _ hd hleft hright⟩

end Canonical
end ClassNotation
