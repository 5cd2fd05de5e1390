import ClassNotation.Proofs.HeaderReadings
import ClassNotation.Proofs.MemberReadings
import ClassNotation.Proofs.RelationLinks
import ClassNotation.Proofs.RelationReadings

/-! Well-formed models, and that reading gives no other. Whatever the text, what stands in the model
was found by one of the scans or in a piece of a line, and there each grammar vouches for its part. -/
namespace ClassNotation
open Grammar

/-- Only an attribute that holds many has a type that is no word: its name as an array. -/
structure Attribute.WellFormed (a : Attribute) : Prop where
  access : a.visibility ≠ .unspecified
  name : IsWord a.name
  type : IsWord a.typeName ∨ a.typeName = a.name ++ "[]".toList ∧ a.visibility = .pub

structure Method.WellFormed (className : Text) (m : Method) : Prop where
  access : m.visibility ≠ .unspecified
  name : IsWord m.name
  untyped_iff : m.returnType = [] ↔ m.name = className
  type : m.returnType ≠ [] → IsWord m.returnType
  parameters : ∀ c ∈ m.parameters, c ≠ ')' ∧ c ≠ '\x7d' ∧ c ≠ '\n'

structure ClassDecl.WellFormed (c : ClassDecl) : Prop where
  name : IsWord c.name
  parent : ∀ p ∈ c.parent, IsWord p
  attributes : ∀ a ∈ c.attributes, a.WellFormed
  methods : ∀ m ∈ c.methods, m.WellFormed c.name

structure EnumDecl.WellFormed (e : EnumDecl) : Prop where
  name : IsWord e.name
  values : '\x7d' ∉ e.values

structure Model.WellFormed (m : Model) : Prop where
  classes : ∀ c ∈ m.classes, c.WellFormed
  enums : ∀ e ∈ m.enums, e.WellFormed
  marks : ∀ c ∈ m.classes, ∀ c' ∈ m.classes, c.name = c'.name → c.isAbstract = c'.isAbstract

private theorem ClassHeader.shape_of_mem_scan {document : Text} {h : ClassHeader}
    (hm : h ∈ ClassHeader.grammar.scan document) :
    IsWord h.name ∧ (∀ p ∈ h.parent, IsWord p) ∧ '\x7d' ∉ h.body := by
  obtain ⟨s, r, hr, -⟩ := exists_run_of_mem_scan hm
  obtain ⟨_, _, _, -, -, hname, hparent, -, hbody⟩ := ClassHeader.run_eq_some_iff.mp hr
  exact ⟨hname, hparent.isWord, hbody⟩

private theorem EnumHeader.shape_of_mem_scan {document : Text} {h : EnumHeader}
    (hm : h ∈ EnumHeader.grammar.scan document) : IsWord h.name ∧ '\x7d' ∉ h.body := by
  obtain ⟨s, r, hr, -⟩ := exists_run_of_mem_scan hm
  obtain ⟨_, _, -, -, hname, -, hbody⟩ := EnumHeader.run_eq_some_iff.mp hr
  exact ⟨hname, hbody⟩

namespace Finding

private theorem wellFormed_attribute {className body : Text} {a : Attribute}
    (h : a ∈ attributes (ofBody className body)) : a.WellFormed := by
  obtain ⟨piece, hp, -⟩ := ofLine?_of_mem_ofBody (mem_of_mem_attributes h)
  obtain ⟨haccess, htype, hname⟩ := Attribute.shape_of_run (Member.run_of_ofLine?_attribute hp)
  exact ⟨haccess, hname, Or.inl htype⟩

private theorem wellFormed_method {className body : Text} (hbody : '\x7d' ∉ body) {m : Method}
    (h : m ∈ methods (ofBody className body)) : m.WellFormed className := by
  -- the body is free of closing braces because it ends at the first one
  obtain ⟨piece, hp, hinfix, hnewline⟩ := ofLine?_of_mem_ofBody (mem_of_mem_methods h)
  obtain ⟨haccess, hname, huntyped, htype, hclose, hps⟩ :=
    Method.shape_of_run (Member.run_of_ofLine?_method hp)
  refine ⟨haccess, hname, huntyped, htype, fun c hc => ?_⟩
  have hin : c ∈ piece := hps.subset (by simp [hc])
  exact ⟨fun he => hclose (he ▸ hc), fun he => hbody (he ▸ hinfix.subset hin), fun he => hnewline (he ▸ hin)⟩

end Finding

private theorem Relation.target_mem_ends {r : Relation} {name : Text} {l : Link} (h : l ∈ r.linksOf name) :
    l.target ∈ r.ends := by
  unfold linksOf at h
  split at h <;> grind [ends]

private theorem Link.wellFormed_toAttribute {l : Link} (h : IsWord l.target) : l.toAttribute.WellFormed := by
  refine ⟨by simp [toAttribute], h, ?_⟩
  by_cases hm : l.cardinality = some .many
  · exact Or.inr ⟨by simp [toAttribute, hm], rfl⟩
  · exact Or.inl (by simpa [toAttribute, hm] using h)

namespace Outline

private theorem wellFormed_link {document name : Text} {a : Attribute}
    (h : a ∈ ((ofText document).links.of name).map Link.toAttribute) : a.WellFormed := by
  obtain ⟨l, hl, rfl⟩ := List.mem_map.mp h
  rw [links, Links.of_ofRelations] at hl
  obtain ⟨r, hr, hl⟩ := List.mem_flatMap.mp hl
  obtain ⟨s, t, hrun, -⟩ := exists_run_of_mem_scan hr
  obtain ⟨hsource, htarget, -⟩ := Relation.shape hrun
  apply Link.wellFormed_toAttribute
  have he := Relation.target_mem_ends hl
  simp only [Relation.ends, List.mem_cons, List.not_mem_nil, or_false] at he
  rcases he with he | he
  · exact he ▸ hsource
  · exact he ▸ htarget

private theorem wellFormed_classDecl {document : Text} {h : ClassHeader} (hm : h ∈ (ofText document).classes) :
    ((ofText document).classDecl h).WellFormed := by
  obtain ⟨hname, hparent, hbody⟩ := ClassHeader.shape_of_mem_scan hm
  refine ⟨hname, hparent, fun a ha => ?_, fun m hm => Finding.wellFormed_method hbody hm⟩
  rcases List.mem_append.mp ha with ha | ha
  · exact Finding.wellFormed_attribute ha
  · exact wellFormed_link ha

end Outline

namespace Model

theorem wellFormed_of_mem_classes {document : Text} {c : ClassDecl} (h : c ∈ (ofText document).classes) :
    c.WellFormed := by
  obtain ⟨header, hm, rfl⟩ := List.mem_map.mp h
  exact Outline.wellFormed_classDecl hm

theorem wellFormed_of_mem_enums {document : Text} {e : EnumDecl} (h : e ∈ (ofText document).enums) :
    e.WellFormed := by
  obtain ⟨header, hm, rfl⟩ := List.mem_map.mp h
  obtain ⟨hname, hbody⟩ := EnumHeader.shape_of_mem_scan hm
  exact ⟨hname, hbody⟩

/-- Whether a class is abstract depends on nothing but its name. -/
theorem isAbstract_of_mem_classes {document : Text} {c : ClassDecl} (h : c ∈ (ofText document).classes) :
    c.isAbstract = (abstractMark.scan document).contains c.name := by
  obtain ⟨header, -, rfl⟩ := List.mem_map.mp h
  rfl

/-- Every text is read as a well-formed model. -/
theorem wellFormed_ofText (document : Text) : (ofText document).WellFormed := by
  refine ⟨fun c hc => wellFormed_of_mem_classes hc, fun e he => wellFormed_of_mem_enums he, ?_⟩
  intro c hc c' hc' hname
  rw [isAbstract_of_mem_classes hc, isAbstract_of_mem_classes hc', hname]

end Model
end ClassNotation
