import Mathlib.Data.List.Induction
import ClassNotation.Model.Edit

/-! The history of a stored model. Between two clears the model is a log of what was added: reading a
document into it appends what the document alone declares, and look-ups find the earliest entry. -/
namespace ClassNotation

namespace Model

theorem classes_append (m n : Model) : (m ++ n).classes = m.classes ++ n.classes := rfl

theorem enums_append (m n : Model) : (m ++ n).enums = m.enums ++ n.enums := rfl

private theorem append_empty (m : Model) : m ++ ({} : Model) = m := by
  change Model.mk (m.classes ++ []) (m.enums ++ []) = m
  rw [List.append_nil, List.append_nil]

private theorem append_assoc (m n k : Model) : m ++ n ++ k = m ++ (n ++ k) := by
  change Model.mk _ _ = Model.mk _ _
  simp only [classes_append, enums_append, List.append_assoc]

private theorem addClass_eq_append (m : Model) (c : ClassDecl) : m.addClass c = m ++ { classes := [c] } := by
  change Model.mk _ m.enums = Model.mk _ (m.enums ++ [])
  rw [List.append_nil]

private theorem addEnum_eq_append (m : Model) (e : EnumDecl) : m.addEnum e = m ++ { enums := [e] } := by
  change Model.mk m.classes _ = Model.mk (m.classes ++ []) _
  rw [List.append_nil]

private theorem foldl_addClass {ι : Type} (decl : ι → ClassDecl) (items : List ι) (m : Model) :
    items.foldl (fun stored i => stored.addClass (decl i)) m = m ++ { classes := items.map decl } := by
  induction items generalizing m with
  | nil => exact (append_empty m).symm
  | cons i items ih =>
    rw [List.foldl_cons, ih, addClass_eq_append, append_assoc]
    rfl

private theorem foldl_addEnum {ι : Type} (decl : ι → EnumDecl) (items : List ι) (m : Model) :
    items.foldl (fun stored i => stored.addEnum (decl i)) m = m ++ { enums := items.map decl } := by
  induction items generalizing m with
  | nil => exact (append_empty m).symm
  | cons i items ih =>
    rw [List.foldl_cons, ih, addEnum_eq_append, append_assoc]
    rfl

/-- Reading into a model appends what the document declares when it stands alone. -/
theorem read_eq_append (m : Model) (document : Text) : m.read document = m ++ ofText document := by
  change (Outline.ofText document).enums.foldl _ ((Outline.ofText document).classes.foldl _ m) = _
  rw [foldl_addEnum, foldl_addClass, append_assoc]
  change m ++ Model.mk (_ ++ []) ([] ++ _) = _
  rw [List.append_nil, List.nil_append]
  rfl

end Model

namespace Edit

def contribution : Edit → Model
  | .addClass c => { classes := [c] }
  | .addEnum e => { enums := [e] }
  | .read document => .ofText document
  | .clear => {}

/-- The edits behind the last clear, which are all of them if there was none. -/
def sinceClear (edits : List Edit) : List Edit := (edits.reverse.takeWhile (· != .clear)).reverse

private theorem sinceClear_concat (edits : List Edit) (e : Edit) :
    sinceClear (edits ++ [e]) = if e = .clear then [] else sinceClear edits ++ [e] := by
  rw [sinceClear, List.reverse_concat, List.takeWhile_cons]
  by_cases he : e = .clear <;> simp [he, sinceClear]

end Edit

namespace Model

/-- One edit: unless it clears the model, its contribution is appended. -/
theorem edit_eq (m : Model) (e : Edit) : m.edit e = if e = .clear then {} else m ++ e.contribution := by
  cases e with
  | addClass c => exact addClass_eq_append m c
  | addEnum e => exact addEnum_eq_append m e
  | read document => exact read_eq_append m document
  | clear => rfl

private theorem ofEdits_concat (edits : List Edit) (e : Edit) : ofEdits (edits ++ [e]) = (ofEdits edits).edit e :=
  List.foldl_append

/-- All edits: what is stored are the contributions since the last clear, in the order of the edits. -/
theorem ofEdits_eq (edits : List Edit) : ofEdits edits =
    ⟨(Edit.sinceClear edits).flatMap (·.contribution.classes),
      (Edit.sinceClear edits).flatMap (·.contribution.enums)⟩ := by
  induction edits using List.reverseRecOn with
  | nil => rfl
  | append_singleton edits e ih =>
    rw [ofEdits_concat, edit_eq, Edit.sinceClear_concat, ih]
    split
    · rfl
    · simp only [List.flatMap_append, List.flatMap_cons, List.flatMap_nil, List.append_nil]
      rfl

end Model

/-- `x` bears the name, and no entry before it does. -/
def IsEarliest {α : Type} (nameOf : α → Text) (name : Text) (entries : List α) (x : α) : Prop :=
  ∃ before after, entries = before ++ x :: after ∧ nameOf x = name ∧ ∀ y ∈ before, nameOf y ≠ name

private theorem find?_eq_some_iff_isEarliest {α : Type} {nameOf : α → Text} {name : Text} {entries : List α} {x : α} :
    entries.find? (nameOf · == name) = some x ↔ IsEarliest nameOf name entries x := by
  rw [List.find?_eq_some_iff_append]
  simp only [beq_iff_eq, Bool.not_eq_true', beq_eq_false_iff_ne]
  constructor
  · rintro ⟨hname, before, after, he, hbefore⟩
    exact ⟨before, after, he, hname, hbefore⟩
  · rintro ⟨before, after, he, hname, hbefore⟩
    exact ⟨hname, before, after, he, hbefore⟩

private theorem find?_eq_none_iff_forall_ne {α : Type} {nameOf : α → Text} {name : Text} {entries : List α} :
    entries.find? (nameOf · == name) = none ↔ ∀ x ∈ entries, nameOf x ≠ name := by
  simp only [List.find?_eq_none, beq_iff_eq]

/-- A stored model is an append-only log between clears: it holds the contributions of the edits since
the last clear and nothing else, reading into it leaves what is stored and adds what the document declares
alone, each time anew, look-ups give the earliest entry of a name, and classes are listed before enums. -/
theorem model_is_log_since_clear (edits : List Edit) (document name : Text) :
    let classes := (Edit.sinceClear edits).flatMap (·.contribution.classes)
    let enums := (Edit.sinceClear edits).flatMap (·.contribution.enums)
    let m := Model.ofEdits edits
    m.classes = classes ∧ m.enums = enums ∧
    Model.ofEdits (edits ++ [.read document]) = m ++ Model.ofText document ∧
    Model.ofEdits (edits ++ [.read document, .read document]) = m ++ Model.ofText document ++ Model.ofText document ∧
    (∀ c, m.class? name = some c ↔ IsEarliest ClassDecl.name name classes c) ∧
    (m.class? name = none ↔ ∀ c ∈ classes, c.name ≠ name) ∧
    (∀ e, m.enum? name = some e ↔ IsEarliest EnumDecl.name name enums e) ∧
    (m.enum? name = none ↔ ∀ e ∈ enums, e.name ≠ name) ∧
    m.declarations = classes.map .ofClass ++ enums.map .ofEnum ∧ m.declarations.length = m.declarationCount := by
  intro classes enums m
  have hm : m = ⟨classes, enums⟩ := Model.ofEdits_eq edits
  have hread (edits : List Edit) :
      Model.ofEdits (edits ++ [.read document]) = Model.ofEdits edits ++ Model.ofText document := by
    rw [Model.ofEdits_concat]
    exact Model.read_eq_append _ document
  have htwice : edits ++ [.read document, .read document] = edits ++ [.read document] ++ [.read document] := by simp
  refine ⟨by rw [hm], by rw [hm], hread edits, ?_, fun c => ?_, ?_, fun e => ?_, ?_, by rw [hm]; rfl, ?_⟩
  · rw [htwice, hread, hread]
  · rw [hm]
    exact find?_eq_some_iff_isEarliest
  · rw [hm]
    exact find?_eq_none_iff_forall_ne
  · rw [hm]
    exact find?_eq_some_iff_isEarliest
  · rw [hm]
    exact find?_eq_none_iff_forall_ne
  · simp [Model.declarations, Model.declarationCount]

end ClassNotation
