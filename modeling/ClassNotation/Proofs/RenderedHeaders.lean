import ClassNotation.Proofs.StubScans

/-! Stubs read as a document again: every header is found once more, and no mark is new. -/
namespace ClassNotation
open Grammar

namespace Model
variable {document : Text}

private theorem flatMap_declarations {α : Type} (f : Declaration → List α) (m : Model) : m.declarations.flatMap f =
    m.classes.flatMap (fun c => f (.ofClass c)) ++ m.enums.flatMap fun e => f (.ofEnum e) := by
  rw [declarations, List.flatMap_append, List.flatMap_map, List.flatMap_map]

private theorem infix_of_mem_methods {c : ClassDecl} (hc : c ∈ (ofText document).classes) {m : Method}
    (hm : m ∈ c.methods) :
    '(' :: (m.parameters ++ [')']) <:+: document := by
  obtain ⟨h, hh, rfl⟩ := List.mem_map.mp hc
  obtain ⟨piece, hp, hpiece, -⟩ := Finding.ofLine?_of_mem_ofBody (Finding.mem_of_mem_methods hm)
  obtain ⟨-, -, -, -, -, hps⟩ := Method.shape_of_run (Member.run_of_ofLine?_method hp)
  have hbody : h.body <:+: '\x7b' :: (h.body ++ ['\x7d']) := ⟨['\x7b'], ['\x7d'], rfl⟩
  exact hps.trans (hpiece.trans (hbody.trans (ClassHeader.braced.infix_of_mem_scan hh)))

private theorem marks_subset {x : Declaration} (hx : x ∈ (ofText document).declarations) :
    x.marks ⊆ abstractMark.scan document := by
  rcases List.mem_append.mp hx with hx | hx
  · obtain ⟨c, hc, rfl⟩ := List.mem_map.mp hx
    apply List.append_subset.mpr
    constructor
    · have habstract := isAbstract_of_mem_classes hc
      split
      · next h =>
        rw [habstract, List.contains_iff_mem] at h
        simpa using h
      · exact List.nil_subset _
    · intro name hname
      obtain ⟨m, hm, hname⟩ := List.mem_flatMap.mp hname
      exact marks_subset_of_infix isSeparator_openParenthesis isSeparator_closeParenthesis (infix_of_mem_methods hc hm)
        hname
  · obtain ⟨e, he, rfl⟩ := List.mem_map.mp hx
    obtain ⟨h, hh, rfl⟩ := List.mem_map.mp he
    exact marks_subset_of_infix isSeparator_openBrace isSeparator_closeBrace (EnumHeader.braced.infix_of_mem_scan hh)

/-- A class is marked among the marks that are rendered exactly if it was before. -/
theorem contains_marks {c : ClassDecl} (hc : c ∈ (ofText document).classes) :
    ((ofText document).declarations.flatMap Declaration.marks).contains c.name = c.isAbstract := by
  rw [isAbstract_of_mem_classes hc, Bool.eq_iff_iff, List.contains_iff_mem, List.contains_iff_mem]
  constructor
  · intro h
    obtain ⟨x, hx, hname⟩ := List.mem_flatMap.mp h
    exact marks_subset hx hname
  · intro h
    have habstract : c.isAbstract = true := by rw [isAbstract_of_mem_classes hc, List.contains_iff_mem.mpr h]
    refine List.mem_flatMap.mpr ⟨.ofClass c, List.mem_append_left _ (List.mem_map_of_mem hc), ?_⟩
    simp [Declaration.marks, habstract]

end Model

/-- The stubs of a document in one text, with an empty line between any two. -/
def stubText (layout : Layout) (document : Text) : Text := Text.joinWith ['\n', '\n'] (generate layout document)

section
variable {document : Text} (hfree : ∀ x ∈ (Model.ofText document).declarations, x.BraceFree) (layout : Layout)
include hfree

private theorem classes_stubText : ClassHeader.grammar.scan (stubText layout document) =
    (Model.ofText document).classes.map fun c => ⟨c.name, c.parent, c.renderedBody layout⟩ := by
  have hblank : ClassHeader.grammar.Passes ['\n', '\n'] := ClassHeader.keyworded.wordLed.passes (by simp)
  refine (scan_joinWith hblank fun x hx t =>
    (Model.wellFormed_of_mem_declarations hx).classes_java (hfree x hx) t).trans ?_
  have hnone : (Model.ofText document).enums.flatMap (fun e => Declaration.classHeaders layout (.ofEnum e)) = [] :=
    List.flatMap_eq_nil_iff.mpr fun _ _ => rfl
  rw [Model.flatMap_declarations, hnone, List.append_nil, List.map_eq_flatMap]
  rfl

private theorem enums_stubText : EnumHeader.grammar.scan (stubText layout document) =
    (Model.ofText document).enums.map fun e => ⟨e.name, e.valuesText layout⟩ := by
  have hblank : EnumHeader.grammar.Passes ['\n', '\n'] := EnumHeader.keyworded.wordLed.passes (by simp)
  refine (scan_joinWith hblank fun x hx t =>
    (Model.wellFormed_of_mem_declarations hx).enums_java (hfree x hx) t).trans ?_
  have hnone : (Model.ofText document).classes.flatMap (fun c => Declaration.enumHeaders layout (.ofClass c)) = [] :=
    List.flatMap_eq_nil_iff.mpr fun _ _ => rfl
  rw [Model.flatMap_declarations, hnone, List.nil_append, List.map_eq_flatMap]
  rfl

omit hfree in
private theorem marks_stubText : abstractMark.scan (stubText layout document) =
    (Model.ofText document).declarations.flatMap Declaration.marks := by
  have hblank : abstractMark.Passes ['\n', '\n'] := keyworded_abstractMark.wordLed.passes (by simp)
  exact scan_joinWith hblank fun x hx t => (Model.wellFormed_of_mem_declarations hx).marks_java t

end

def ClassDecl.heading (c : ClassDecl) : Text × Option Text × Bool := (c.name, c.parent, c.isAbstract)

/-- Headers survive a second reading: where neither parameters nor values hold an opening brace, the
stubs of a document declare the same classes, with the same parents and marks, and the same enums
but for the blanks around their values, in the same order and no others. -/
theorem headers_survive_rendering (layout : Layout) (document : Text)
    (hparameters : ∀ c ∈ (Model.ofText document).classes, ∀ m ∈ c.methods, '\x7b' ∉ m.parameters)
    (hvalues : ∀ e ∈ (Model.ofText document).enums, '\x7b' ∉ e.values) :
    (Model.ofText (stubText layout document)).classes.map ClassDecl.heading =
        (Model.ofText document).classes.map ClassDecl.heading ∧
      (Model.ofText (stubText layout document)).enums.map EnumDecl.trimmed =
        (Model.ofText document).enums.map EnumDecl.trimmed := by
  have hfree : ∀ x ∈ (Model.ofText document).declarations, x.BraceFree := by
    intro x hx
    rcases List.mem_append.mp hx with hx | hx
    · obtain ⟨c, hc, rfl⟩ := List.mem_map.mp hx
      exact hparameters c hc
    · obtain ⟨e, he, rfl⟩ := List.mem_map.mp hx
      exact hvalues e he
  constructor
  · change ((ClassHeader.grammar.scan _).map (Outline.ofText _).classDecl).map ClassDecl.heading = _
    rw [classes_stubText hfree, List.map_map, List.map_map]
    apply List.map_congr_left
    intro c hc
    change (c.name, c.parent, (abstractMark.scan (stubText layout document)).contains c.name) = c.heading
    rw [marks_stubText, Model.contains_marks hc]
    rfl
  · change ((EnumHeader.grammar.scan _).map fun h => EnumDecl.mk h.name h.body).map EnumDecl.trimmed = _
    rw [enums_stubText hfree, List.map_map, List.map_map]
    apply List.map_congr_left
    intro e _
    exact EnumDecl.trimmed_eq_iff.mpr ⟨rfl, e.trim_valuesText layout⟩

/-- Keywords as names and types, a mark that only parameters quote, and a method behind the first. -/
theorem headers_survive_rendering_keywords :
    let document := "class class extends enum \x7b +enum of(abstract class A)\n -class() \x7d class A \x7b\x7d enum A \x7b a \x7d".toList
    let read := Model.ofText document
    let again := Model.ofText (stubText ⟨2⟩ document)
    ((∀ c ∈ read.classes, ∀ m ∈ c.methods, '\x7b' ∉ m.parameters) ∧ (∀ e ∈ read.enums, '\x7b' ∉ e.values) ∧
      read.classes.map ClassDecl.heading =
        [("class".toList, some "enum".toList, false), ("A".toList, none, true)]) ∧
    again.classes.map ClassDecl.heading = read.classes.map ClassDecl.heading ∧
    again.enums.map EnumDecl.trimmed = read.enums.map EnumDecl.trimmed := by
  intro document read again
  have hread : (∀ c ∈ read.classes, ∀ m ∈ c.methods, '\x7b' ∉ m.parameters) ∧
      (∀ e ∈ read.enums, '\x7b' ∉ e.values) ∧ read.classes.map ClassDecl.heading =
        [("class".toList, some "enum".toList, false), ("A".toList, none, true)] := by decide +kernel
  exact ⟨hread, headers_survive_rendering ⟨2⟩ document hread.1 hread.2.1⟩

end ClassNotation
