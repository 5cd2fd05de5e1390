import ClassNotation.Proofs.CanonicalRelations
import ClassNotation.Proofs.MemberForms

/-! Canonical documents are read back exactly: the four scans find the parts of the document, each
member line is one member, and together they make up the model that the document stands for. -/
namespace ClassNotation.Canonical
open Grammar

def Access.start (a : Access) : MemberStart := ⟨some a.symbol, [], by cases a <;> simp [symbol, Visibility.symbols], by simp⟩

private theorem Access.visibility_start (a : Access) : a.start.visibility = a.visibility := by cases a <;> rfl

namespace MemberLine
variable {owner : Word}

private theorem ofLine?_core (m : MemberLine owner) :
    ClassNotation.Member.ofLine? owner.text m.core = some m.member := by
  have hclose (ps : Parameters) : ')' ∉ ps.text := fun hm => (ps.plain _ hm).1 rfl
  cases m with
  | ofAttribute a type name =>
    let form : AttributeForm := ⟨a.start, type.text, [' '], name.text, type.isWord, isGap_space, name.isWord⟩
    exact Member.ofLine?_eq_attribute_iff.mpr ⟨form, rfl, by simp [form, AttributeForm.toAttribute, a.visibility_start]⟩
  | ofMethod a type name ps differs =>
    have hne : name.text ≠ owner.text := fun he => differs (Word.ext he)
    let form : MethodForm := ⟨a.start, some (type.text, [' ']), name.text, ps.text, by simpa using type.isWord,
      by simpa using isGap_space, name.isWord, hclose ps⟩
    refine Member.ofLine?_eq_method_iff.mpr ⟨form, ?_, ?_⟩
    · simp [form, core, MethodForm.text, MethodForm.typeText, MemberStart.text, Access.start]
    · simp [form, MethodForm.toMethod, MethodForm.returnType, a.visibility_start, hne]
  | ofConstructor a ps =>
    let form : MethodForm := ⟨a.start, none, owner.text, ps.text, by simp, by simp, owner.isWord, hclose ps⟩
    refine Member.ofLine?_eq_method_iff.mpr ⟨form, rfl, ?_⟩
    simp [form, MethodForm.toMethod, MethodForm.returnType, a.visibility_start]

private theorem core_trimmed (m : MemberLine owner) : Stops isBlank m.core ∧ Stops isBlank m.core.reverse := by
  have hsymbol (a : Access) : isBlank a.symbol = false := by cases a <;> decide
  cases m with
  | ofAttribute a type name =>
    refine ⟨by simp [core, hsymbol], ?_⟩
    have hr : core (.ofAttribute a type name : MemberLine owner) = (a.symbol :: (type.text ++ [' '])) ++ name.text := by
      simp [core]
    rw [hr, List.reverse_append]
    exact name.isWord.reverse.stops_isBlank _
  | ofMethod a type name ps => exact ⟨by simp [core, hsymbol], by simp [core]⟩
  | ofConstructor a ps => exact ⟨by simp [core, hsymbol], by simp [core]⟩

private theorem core_ne_nil (m : MemberLine owner) : m.core ≠ [] := by cases m <;> simp [core]

private theorem lines_flatMap (ms : List (MemberLine owner)) :
    Text.lines (ms.flatMap written) = ms.map fun m => ' ' :: ' ' :: m.core := by
  induction ms with
  | nil => rfl
  | cons m ms ih =>
    have hline : '\n' ∉ ' ' :: ' ' :: m.core := by
      intro hm
      simp only [List.mem_cons] at hm
      rcases hm with hm | hm | hm
      · revert hm; decide
      · revert hm; decide
      · exact (m.core_plain _ hm).2.2 rfl
    have hlast : (' ' :: ' ' :: m.core).getLast? ≠ some '\r' := by
      intro he
      have hs := m.core_trimmed.2.append (by simpa using m.core_ne_nil) [' ', ' ']
      have hr : m.core.reverse ++ [' ', ' '] = (' ' :: ' ' :: m.core).reverse := by simp
      rw [hr] at hs
      exact absurd (hs '\r' (by rw [List.head?_reverse, he]; rfl)) (by decide)
    rw [List.flatMap_cons, written_eq]
    change Text.lines ((' ' :: ' ' :: m.core) ++ '\n' :: ms.flatMap written) = _
    rw [Text.lines_append_newline hline hlast, ih, List.map_cons]

private theorem trim_line (m : MemberLine owner) : Text.trim (' ' :: ' ' :: m.core) = m.core := by
  change Text.trim ([' ', ' '] ++ m.core) = m.core
  exact Text.trim_append (by simp) m.core_trimmed.1 m.core_trimmed.2

private theorem findings_lines (ms : List (MemberLine owner)) :
    (((ms.map fun m => ' ' :: ' ' :: m.core).map Text.trim).filter (!·.isEmpty)).flatMap
      (Finding.ofLine owner.text) = ms.map fun m => .member m.member := by
  induction ms with
  | nil => rfl
  | cons m ms ih =>
    have hne : (!m.core.isEmpty) = true := by simpa using m.core_ne_nil
    have hm : Finding.ofLine owner.text m.core = [.member m.member] := by rw [Finding.ofLine, ofLine?_core]
    rw [List.map_cons, List.map_cons, trim_line, List.filter_cons, if_pos hne, List.flatMap_cons, hm, ih]
    rfl

private theorem attributes_members (ms : List (MemberLine owner)) :
    Finding.attributes (ms.map fun m => .member m.member) = ms.filterMap attribute? := by
  rw [Finding.attributes, List.filterMap_map]
  congr 1
  funext m
  cases m <;> rfl

private theorem methods_members (ms : List (MemberLine owner)) :
    Finding.methods (ms.map fun m => .member m.member) = ms.filterMap method? := by
  rw [Finding.methods, List.filterMap_map]
  congr 1
  funext m
  cases m <;> rfl

end MemberLine

/-- A body of member lines holds these members and nothing else. -/
theorem ClassItem.ofBody_body (c : ClassItem) :
    Finding.ofBody c.name.text c.body = c.members.map fun m => .member m.member := by
  have hlines : Text.lines c.body = [] :: c.members.map fun m => ' ' :: ' ' :: m.core := by
    rw [← MemberLine.lines_flatMap]
    rfl
  rw [Finding.ofBody, hlines]
  exact MemberLine.findings_lines c.members

namespace Item

def mark? : Item → Option Text
  | .ofClass c => if c.isAbstract then some c.name.text else none
  | .ofEnum _ => none

private theorem classes_written (i : Item) (t : Text) : ClassHeader.grammar.scan (i.written ++ t) =
    (i.class?.map ClassItem.header).toList ++ ClassHeader.grammar.scan t := by
  cases i with
  | ofClass c => exact c.classes_written t
  | ofEnum e => exact e.classes_written t

private theorem enums_written (i : Item) (t : Text) : EnumHeader.grammar.scan (i.written ++ t) =
    (i.enum?.map EnumItem.header).toList ++ EnumHeader.grammar.scan t := by
  cases i with
  | ofClass c => exact c.enums_written t
  | ofEnum e => exact e.enums_written t

private theorem marks_written (i : Item) (t : Text) : abstractMark.scan (i.written ++ t) =
    i.mark?.toList ++ abstractMark.scan t := by
  cases i with
  | ofClass c =>
    change abstractMark.scan (c.written ++ t) = _
    rw [c.marks_written, mark?]
    split <;> rfl
  | ofEnum e => exact e.marks_written t

private theorem relations_written (i : Item) (t : Text) :
    Relation.grammar.scan (i.written ++ t) = none.toList ++ Relation.grammar.scan t := by
  cases i with
  | ofClass c => exact c.relations_written t
  | ofEnum e => exact e.relations_written t

end Item

namespace Document

private theorem scan_classes (d : Document) :
    ClassHeader.grammar.scan d.written = d.classes.map ClassItem.header := by
  rw [written, scan_flatMap_append Item.classes_written,
    ClassHeader.opensFirst.scan_eq_nil (RelationLine.no_brace d.relations), List.append_nil, classes,
    List.map_filterMap]

private theorem scan_enums (d : Document) : EnumHeader.grammar.scan d.written = d.enums.map EnumItem.header := by
  rw [written, scan_flatMap_append Item.enums_written,
    EnumHeader.opensFirst.scan_eq_nil (RelationLine.no_brace d.relations), List.append_nil, enums,
    List.map_filterMap]

private theorem scan_marks (d : Document) : abstractMark.scan d.written = d.items.filterMap Item.mark? := by
  rw [written, scan_flatMap_append Item.marks_written, RelationLine.marks_flatMap, List.append_nil]

private theorem scan_relations (d : Document) :
    Relation.grammar.scan d.written = d.relations.map RelationLine.relation := by
  have hline (r : RelationLine) (t : Text) :
      Relation.grammar.scan (r.written ++ t) = (some r.relation).toList ++ Relation.grammar.scan t :=
    r.relations_written t
  have hlines := scan_flatMap_append hline d.relations []
  rw [List.append_nil, scan_nil, List.append_nil, List.filterMap_eq_map'] at hlines
  rw [written, scan_flatMap_append Item.relations_written, hlines]
  simp

/-- A name is marked exactly if some class of that name is written as an abstract one. -/
theorem contains_marks (d : Document) (name : Word) :
    (d.items.filterMap Item.mark?).contains name.text =
      d.classes.any fun other => other.isAbstract && other.name == name := by
  rw [classes]
  induction d.items with
  | nil => rfl
  | cons i items ih =>
    cases i with
    | ofEnum e => exact ih
    | ofClass c =>
      have hname : (name.text == c.name.text) = (c.name == name) := by
        rw [Bool.eq_iff_iff, beq_iff_eq, beq_iff_eq]
        exact ⟨fun he => (Word.ext he).symm, fun he => by rw [he]⟩
      have hclasses : (Item.ofClass c :: items).filterMap Item.class? = c :: items.filterMap Item.class? := rfl
      rw [hclasses, List.any_cons, ← ih]
      cases hc : c.isAbstract with
      | false =>
        have hmark : (Item.ofClass c).mark? = none := by simp [Item.mark?, hc]
        rw [List.filterMap_cons_none hmark, Bool.false_and, Bool.false_or]
      | true =>
        have hmark : (Item.ofClass c).mark? = some c.name.text := by simp [Item.mark?, hc]
        rw [List.filterMap_cons_some hmark, List.contains_cons, hname, Bool.true_and]

private theorem classDecl_header (d : Document) (c : ClassItem) :
    (Outline.ofText d.written).classDecl c.header = d.classDecl c := by
  have hbody : Finding.ofBody c.header.name c.header.body = _ := c.ofBody_body
  have hmarks : (Outline.ofText d.written).abstractMarks.contains c.name.text = _ :=
    (congrArg (List.contains · c.name.text) d.scan_marks).trans (d.contains_marks c.name)
  have hlinks : (Outline.ofText d.written).links.of c.name.text =
      d.relations.flatMap fun r => r.relation.linksOf c.name.text := by
    change (Links.ofRelations (Relation.grammar.scan d.written)).of c.name.text = _
    rw [d.scan_relations, Links.of_ofRelations, List.flatMap_map]
  rw [Outline.classDecl, hbody, classDecl, ← MemberLine.attributes_members, ← MemberLine.methods_members,
    ← hlinks, ← hmarks]
  rfl

end Document

/-- Every canonical document is read back as the model that it stands for. -/
theorem ofText_written (d : Document) : Model.ofText d.written = d.model := by
  have hclasses : (Outline.ofText d.written).classes = _ := d.scan_classes
  have henums : (Outline.ofText d.written).enums = _ := d.scan_enums
  have hdecls : (Outline.ofText d.written).classDecl ∘ ClassItem.header = d.classDecl :=
    funext d.classDecl_header
  rw [Model.ofText, Outline.model, Document.model, hclasses, henums, List.map_map, List.map_map, hdecls]
  rfl

example :
    Document.written
      ⟨[.ofClass ⟨⟨['A'], by decide⟩, true, some ⟨['B'], by decide⟩,
          [.ofConstructor .pub ⟨[], by simp, ⟨by decide, by decide⟩⟩]⟩,
        .ofEnum ⟨⟨['E'], by decide⟩, ⟨['x'], by simp, ⟨by decide, by decide⟩⟩⟩],
        [⟨⟨['A'], by decide⟩, none, .plain, some .many, ⟨['E'], by decide⟩, by simp⟩]⟩ =
      "abstract class A extends B \x7b\n  +A()\n\x7d\nenum E \x7bx\x7d\nA -- \"*\" E\n".toList := rfl

end ClassNotation.Canonical
