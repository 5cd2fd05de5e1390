import ClassNotation.Proofs.BackwardArrow
import ClassNotation.Proofs.CanonicalRelations

/-! A relation without cardinalities links the two classes that it names, whatever words their names
are. The one exception is a name behind the arrow that goes on after the digit: the digit is taken for
a cardinality, and the link leads to what is left of the name. -/
namespace ClassNotation.Canonical
open Grammar

/-- The digit that is a cardinality, with more of a name attached to it. -/
def Glued (w : Word) : Prop := ∃ c t, w.text = '1' :: c :: t

def pairText (a b : Word) (arrow : Arrow) : Text :=
  "class ".toList ++ a.text ++ " \x7b \x7d\nclass ".toList ++ b.text ++ " \x7b \x7d\n".toList ++
    a.text ++ " ".toList ++ arrow.written ++ " ".toList ++ b.text

def linkTo (w : Word) : Attribute := ⟨.pub, w.text, w.text⟩

/-- What the relation is meant to add to the first class and to the second. -/
def meant (a b : Word) : Arrow → List Attribute × List Attribute
  | .plain => ([linkTo b], [linkTo a])
  | .forward => ([linkTo b], [])
  | .backward => ([], [linkTo a])

def attributesOf (m : Model) (w : Word) : Option (List Attribute) := (m.class? w.text).map ClassDecl.attributes

section
variable {a b : Word} {arrow : Arrow}

private theorem unglued_iff {w : Word} : Unglued none w ↔ ¬ Glued w := by
  obtain ⟨c, t, he⟩ := List.exists_cons_of_ne_nil w.isWord.ne_nil
  unfold Unglued Glued
  rw [he]
  cases t <;> simp

private theorem pairText_eq : pairText a b arrow =
    classPhrase a.text none (' ' :: '\x7d' :: '\n' :: classPhrase b.text none
      (' ' :: '\x7d' :: '\n' :: relationText a none arrow none b)) := by
  have hclass : "class ".toList = "class".toList ++ [' '] := rfl
  have hmiddle : " \x7b \x7d\nclass ".toList = [' ', '\x7b', ' ', '\x7d', '\n'] ++ ("class".toList ++ [' ']) := rfl
  have hend : " \x7b \x7d\n".toList = [' ', '\x7b', ' ', '\x7d', '\n'] := rfl
  have hspace : " ".toList = [' '] := rfl
  have hnone : parentPhrase none = [] := rfl
  have hbefore : beforeArrow none = [] := rfl
  have hbehind : behindArrow none = [] := rfl
  change "class ".toList ++ a.text ++ " \x7b \x7d\nclass ".toList ++ b.text ++ " \x7b \x7d\n".toList ++
    a.text ++ " ".toList ++ arrow.written ++ " ".toList ++ b.text = _
  rw [classPhrase_eq, classPhrase_eq, relationText, hclass, hmiddle, hend, hspace, hnone, hbefore, hbehind]
  simp only [List.append_assoc, List.cons_append, List.nil_append, List.append_nil]

private theorem classes_pairText : ClassHeader.grammar.scan (pairText a b arrow) =
    [⟨a.text, none, [' ']⟩, ⟨b.text, none, [' ']⟩] := by
  have hled := ClassHeader.keyworded.wordLed
  have hbody : '\x7d' ∉ [' '] := by decide
  have hclass (w : Word) (t : Text) : ClassHeader.grammar.scan (classPhrase w.text none (' ' :: '\x7d' :: t)) =
      ⟨w.text, none, [' ']⟩ :: ClassHeader.grammar.scan t :=
    classes_markedPhrase w.isWord (by simp) false hbody t
  rw [pairText_eq, hclass, hled.scan_cons isWordChar_newline, hclass, hled.scan_cons isWordChar_newline,
    ClassHeader.opensFirst.scan_eq_nil relationText_no_brace]

private theorem relations_pairText :
    Relation.grammar.scan (pairText a b arrow) = Relation.grammar.scan (relationText a none arrow none b) := by
  -- no relation is found before the last line, even if a name is the digit
  have hclass (w : Word) (t : Text) :
      Relation.grammar.scan (classPhrase w.text none (' ' :: '\x7d' :: '\n' :: t)) = Relation.grammar.scan t := by
    have hsplit : classPhrase w.text none (' ' :: '\x7d' :: '\n' :: t) =
        ("class".toList ++ ' ' :: (w.text ++ [' ', '\x7b', ' '])) ++ '\x7d' :: '\n' :: t := by
      have hnone : parentPhrase none = [] := rfl
      rw [classPhrase_eq, hnone]
      simp only [List.append_assoc, List.cons_append, List.nil_append]
    have hhyphen : '-' ∉ "class".toList ++ ' ' :: (w.text ++ [' ', '\x7b', ' ']) := by
      intro h
      rcases List.mem_append.mp h with h | h
      · revert h; decide
      · simp [w.no_hyphen] at h
    rw [hsplit, Relation.scan_of_absent (fun h => hhyphen (hyphen_mem_of_hyphens h)) (by decide),
      scan_itemEnd Relation.wordLed]
  rw [pairText_eq, hclass, hclass]

private theorem relations_of_glued (a : Word) (arrow : Arrow) {c : Char} {t : Text} (hb : b.text = '1' :: c :: t) :
    Relation.grammar.scan (relationText a none arrow none b) =
      [Relation.ofWritten a.text none arrow (some .one) (c :: t)] := by
  have hword : IsWord (c :: t) := ⟨by simp, fun d hd => b.isWord.chars d (by simp [hb, List.mem_cons.mp hd])⟩
  let split : RelationForm := ⟨leftEnd a none, arrow, ⟨c :: t, some .one, [], [' '], hword, by simp, by simp⟩⟩
  have htext : relationText a none arrow none b = split.text ++ [] := by
    rw [← text_relationForm]
    simp [split, relationForm, rightEnd, RelationForm.text, RelationEnd.asRight, Cardinality.written,
      Cardinality.symbol, hb]
  have hpreferred : split.Preferred [] := by
    refine RelationForm.preferred_iff.mpr ⟨stops_cons.mpr isWordChar_space, ?_, stops_nil⟩
    exact iff_of_true rfl ⟨split.right, rfl, List.prefix_append _ _⟩
  rw [htext, Relation.wordLed.scan_of_run hpreferred.run stops_nil, scan_nil]
  rfl

private theorem relations_of_not_glued (a : Word) (arrow : Arrow) (hb : ¬ Glued b) :
    Relation.grammar.scan (relationText a none arrow none b) =
      [Relation.ofWritten a.text none arrow none b.text] :=
  congrArg Outline.relations (outline_relationText (unglued_iff.mpr hb))

private theorem attributesOf_model {o : Outline} {r : Relation} (h : a ≠ b)
    (hclasses : o.classes = [⟨a.text, none, [' ']⟩, ⟨b.text, none, [' ']⟩]) (hrelations : o.relations = [r]) :
    attributesOf o.model a = some ((r.linksOf a.text).map Link.toAttribute) ∧
    attributesOf o.model b = some ((r.linksOf b.text).map Link.toAttribute) := by
  have hne : a.text ≠ b.text := fun he => h (Word.ext he)
  have hname (w : Word) : (o.classDecl ⟨w.text, none, [' ']⟩).name = w.text := rfl
  have hattributes (w : Word) :
      (o.classDecl ⟨w.text, none, [' ']⟩).attributes = (r.linksOf w.text).map Link.toAttribute := by
    have hbody : Finding.ofBody w.text [' '] = [] := rfl
    simp only [Outline.classDecl, Outline.links, hrelations, Links.of_ofRelations, hbody]
    simp [Finding.attributes]
  unfold attributesOf Model.class? Outline.model
  rw [hclasses, List.map_cons, List.map_cons]
  constructor
  · rw [List.find?_cons_of_pos (by simp [hname]), Option.map_some, hattributes]
  · rw [List.find?_cons_of_neg (by simpa [hname] using hne), List.find?_cons_of_pos (by simp [hname]),
      Option.map_some, hattributes]

private theorem attributesOf_pairText {r : Relation}
    (hr : Relation.grammar.scan (relationText a none arrow none b) = [r]) (h : a ≠ b) :
    attributesOf (Model.ofText (pairText a b arrow)) a = some ((r.linksOf a.text).map Link.toAttribute) ∧
    attributesOf (Model.ofText (pairText a b arrow)) b = some ((r.linksOf b.text).map Link.toAttribute) := by
  have hclasses (t : Text) : (Outline.ofText t).classes = ClassHeader.grammar.scan t := rfl
  have hrelations (t : Text) : (Outline.ofText t).relations = Relation.grammar.scan t := rfl
  apply attributesOf_model h
  · rw [hclasses, classes_pairText]
  · rw [hrelations, relations_pairText, hr]

end

/-- Of two classes with different names, a bare relation adds to each exactly what is meant, unless the
name behind the arrow is the digit and something more. -/
theorem bare_relation_links_iff (a b : Word) (arrow : Arrow) (h : a ≠ b) :
    (attributesOf (Model.ofText (pairText a b arrow)) a = some (meant a b arrow).1 ∧
      attributesOf (Model.ofText (pairText a b arrow)) b = some (meant a b arrow).2) ↔ ¬ Glued b := by
  have hne : a.text ≠ b.text := fun he => h (Word.ext he)
  constructor
  · rintro hmeant ⟨c, t, hb⟩
    have hname : c :: t ≠ b.text := fun he => by simpa using congrArg List.length (he.trans hb)
    obtain ⟨ha, hb⟩ := attributesOf_pairText (relations_of_glued a arrow hb) h
    rw [ha, hb] at hmeant
    -- what links to `b` bears the rest of its name, and `b` itself gets no link
    cases arrow <;>
      simp [Relation.ofWritten, Relation.linksOf, Link.toAttribute, meant, linkTo, hname] at hmeant
  · intro hb
    obtain ⟨ha, hb⟩ := attributesOf_pairText (relations_of_not_glued a arrow hb) h
    rw [ha, hb]
    cases arrow <;>
      simp [Relation.ofWritten, Relation.linksOf, Link.toAttribute, meant, linkTo, hne, hne.symm]

/-- A keyword and the digit alone are linked; behind the digit one more character is too much. -/
theorem bare_relation_links_iff_digit :
    let a : Word := ⟨"class".toList, by decide⟩
    let digit : Word := ⟨['1'], by decide⟩
    let longer : Word := ⟨['1', 'x'], by decide⟩
    (a ≠ digit ∧ attributesOf (Model.ofText (pairText a digit .plain)) a = some [linkTo digit] ∧
      attributesOf (Model.ofText (pairText a digit .plain)) digit = some [linkTo a]) ∧
    (a ≠ longer ∧ ¬ (attributesOf (Model.ofText (pairText a longer .plain)) a = some [linkTo longer] ∧
      attributesOf (Model.ofText (pairText a longer .plain)) longer = some [linkTo a])) := by
  intro a digit longer
  have hdigit : a ≠ digit := by decide
  have hlonger : a ≠ longer := by decide
  have halone : ¬ Glued digit := by simp [Glued, digit]
  have hglued : Glued longer := ⟨'x', [], rfl⟩
  exact ⟨⟨hdigit, (bare_relation_links_iff a digit .plain hdigit).mpr halone⟩,
    hlonger, fun h => (bare_relation_links_iff a longer .plain hlonger).mp h hglued⟩

end ClassNotation.Canonical
