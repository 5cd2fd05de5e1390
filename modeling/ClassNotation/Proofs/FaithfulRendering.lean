import ClassNotation.Java
import ClassNotation.Proofs.WellFormedModels

/-! Rendering is faithful: of a model that was read, the stubs lose nothing but the blanks around the
values of enums. The text falls into lines in one way, the last character of a line tells attributes
from methods, and within a line the first blank or parenthesis ends each part. -/
namespace ClassNotation

private theorem map_eq_map_of_imp {α β γ : Type} {f : α → β} {g : α → γ} {as bs : List α} (h : as.map f = bs.map f)
    (hg : ∀ a ∈ as, ∀ b ∈ bs, f a = f b → g a = g b) : as.map g = bs.map g := by
  induction as generalizing bs with
  | nil =>
    obtain rfl := List.map_eq_nil_iff.mp h.symm
    rfl
  | cons a as ih =>
    cases bs with
    | nil => cases h
    | cons b bs =>
      obtain ⟨hab, hrest⟩ := List.cons.inj h
      rw [List.map_cons, List.map_cons, hg a (by simp) b (by simp) hab]
      rw [ih hrest fun x hx y hy => hg x (List.mem_cons_of_mem a hx) y (List.mem_cons_of_mem b hy)]

namespace Text

private theorem joinWith_eq_intercalate (separator : Text) (ts : List Text) :
    joinWith separator ts = List.intercalate separator ts := by
  induction ts with
  | nil => rfl
  | cons t ts ih =>
    cases ts with
    | nil => simp [joinWith, List.intercalate]
    | cons u ts => simp [joinWith, ih, List.intercalate]

theorem exists_append_eq_joinWith (separator t : Text) (ts : List Text) :
    ∃ u, t ++ u = joinWith separator (t :: ts) := by
  cases ts with
  | nil => exact ⟨[], List.append_nil t⟩
  | cons u ts => exact ⟨separator ++ joinWith separator (u :: ts), by simp [joinWith]⟩

/-- Joined lines can be told apart again. -/
theorem lines_eq_of_joinWith_eq {ls ls' : List Text} (h : joinWith ['\n'] ls = joinWith ['\n'] ls')
    (hne : ls ≠ []) (hne' : ls' ≠ []) (hl : ∀ l ∈ ls, '\n' ∉ l) (hl' : ∀ l ∈ ls', '\n' ∉ l) : ls = ls' := by
  rw [joinWith_eq_intercalate, joinWith_eq_intercalate] at h
  rw [← List.splitOn_intercalate '\n' hl hne, h, List.splitOn_intercalate '\n' hl' hne']

end Text

private theorem Layout.newline_not_mem_margin (l : Layout) : '\n' ∉ l.margin := by
  intro h
  exact absurd (List.eq_of_mem_replicate h) (by decide)

namespace Visibility

theorem isWord_keyword (v : Visibility) : IsWord v.keyword := by cases v <;> decide

/-- An access that is left open looks like a private one; there is no other ambiguity. -/
theorem eq_of_keyword_eq {v w : Visibility} (hv : v ≠ .unspecified) (hw : w ≠ .unspecified)
    (h : v.keyword = w.keyword) : v = w := by
  revert hv hw h
  cases v <;> cases w <;> decide

end Visibility

namespace Attribute
variable {a b : Attribute}

theorem java_eq (a : Attribute) :
    a.java = a.visibility.keyword ++ ' ' :: (a.typeName ++ ' ' :: (a.name ++ [';'])) := by simp [java]

private theorem WellFormed.blank_not_mem_type (ha : a.WellFormed) {c : Char} (hc : isBlank c = true) :
    c ∉ a.typeName := by
  have hword := isWordChar_eq_false_of_isBlank hc
  rcases ha.type with ht | ⟨ht, -⟩
  · exact ht.not_mem hword
  · rw [ht, List.mem_append, not_or]
    refine ⟨ha.name.not_mem hword, ?_⟩
    intro hm
    have hbrackets : ∀ d ∈ "[]".toList, (!isBlank d) = true := List.all_eq_true.mp (by decide)
    simpa [hc] using hbrackets c hm

private theorem WellFormed.eq_of_java_eq (ha : a.WellFormed) (hb : b.WellFormed) (h : a.java = b.java) : a = b := by
  have hword (v : Visibility) : ' ' ∉ v.keyword := v.isWord_keyword.not_mem isWordChar_space
  rw [java_eq, java_eq] at h
  obtain ⟨hkeyword, h⟩ := append_cons_unique h (hword _) (hword _)
  obtain ⟨htype, h⟩ := append_cons_unique h (ha.blank_not_mem_type isBlank_space) (hb.blank_not_mem_type isBlank_space)
  have hname := List.append_cancel_right h
  have haccess := Visibility.eq_of_keyword_eq ha.access hb.access hkeyword
  cases a
  cases b
  simp_all

private theorem WellFormed.newline_not_mem_java (ha : a.WellFormed) : '\n' ∉ a.java := by
  rw [java_eq]
  simp [ha.blank_not_mem_type isBlank_newline, ha.name.not_mem isWordChar_newline,
    a.visibility.isWord_keyword.not_mem isWordChar_newline]

private theorem getLast?_java (a : Attribute) : a.java.getLast? = some ';' := List.getLast?_concat

end Attribute

namespace Method
variable {m n : Method} {className className' : Text}

def declarator (m : Method) : Text := if m.isConstructor then m.name else m.returnType ++ ' ' :: m.name

theorem java_eq (m : Method) :
    m.java = m.visibility.keyword ++ ' ' :: (m.declarator ++ '(' :: (m.parameters ++ ") \x7b\x7d".toList)) := by
  unfold java declarator
  split <;> simp

theorem declarator_of_untyped (h : m.returnType = []) : m.declarator = m.name := by
  simp [declarator, isConstructor, h]

theorem declarator_of_typed (h : m.returnType ≠ []) : m.declarator = m.returnType ++ ' ' :: m.name := by
  simp [declarator, isConstructor, h]

theorem WellFormed.not_mem_declarator (hm : m.WellFormed className) {c : Char} (hc : isWordChar c = false)
    (hs : c ≠ ' ') : c ∉ m.declarator := by
  by_cases ht : m.returnType = []
  · rw [declarator_of_untyped ht]
    exact hm.name.not_mem hc
  · rw [declarator_of_typed ht]
    simp [(hm.type ht).not_mem hc, hm.name.not_mem hc, hs]

private theorem WellFormed.blank_not_mem_declarator_iff (hm : m.WellFormed className) :
    ' ' ∉ m.declarator ↔ m.returnType = [] := by
  by_cases ht : m.returnType = []
  · rw [declarator_of_untyped ht]
    exact iff_of_true (hm.name.not_mem isWordChar_space) ht
  · rw [declarator_of_typed ht]
    exact iff_of_false (by simp) ht

private theorem WellFormed.eq_of_declarator_eq (hm : m.WellFormed className) (hn : n.WellFormed className')
    (h : m.declarator = n.declarator) : m.returnType = n.returnType ∧ m.name = n.name := by
  have hblank := hm.blank_not_mem_declarator_iff
  rw [h, hn.blank_not_mem_declarator_iff] at hblank
  by_cases ht : m.returnType = []
  · have ht' := hblank.mpr ht
    rw [declarator_of_untyped ht, declarator_of_untyped ht'] at h
    exact ⟨ht.trans ht'.symm, h⟩
  · have ht' : n.returnType ≠ [] := fun he => ht (hblank.mp he)
    rw [declarator_of_typed ht, declarator_of_typed ht'] at h
    exact append_cons_unique h ((hm.type ht).not_mem isWordChar_space) ((hn.type ht').not_mem isWordChar_space)

private theorem WellFormed.eq_of_java_eq (hm : m.WellFormed className) (hn : n.WellFormed className')
    (h : m.java = n.java) : m = n := by
  have hword (v : Visibility) : ' ' ∉ v.keyword := v.isWord_keyword.not_mem isWordChar_space
  rw [java_eq, java_eq] at h
  obtain ⟨hkeyword, h⟩ := append_cons_unique h (hword _) (hword _)
  obtain ⟨hdeclarator, h⟩ := append_cons_unique h (hm.not_mem_declarator isWordChar_openParenthesis (by decide))
    (hn.not_mem_declarator isWordChar_openParenthesis (by decide))
  have hparameters := List.append_cancel_right h
  have haccess := Visibility.eq_of_keyword_eq hm.access hn.access hkeyword
  obtain ⟨htype, hname⟩ := hm.eq_of_declarator_eq hn hdeclarator
  cases m
  cases n
  simp_all

private theorem WellFormed.newline_not_mem_java (hm : m.WellFormed className) : '\n' ∉ m.java := by
  have hps : '\n' ∉ m.parameters := fun hc => (hm.parameters _ hc).2.2 rfl
  rw [java_eq]
  simp [hps, hm.not_mem_declarator isWordChar_newline (by decide),
    m.visibility.isWord_keyword.not_mem isWordChar_newline]

private theorem getLast?_java (m : Method) : m.java.getLast? = some '\x7d' := by
  unfold java
  rw [List.getLast?_append]
  rfl

end Method

namespace ClassDecl
variable {c d : ClassDecl} {layout : Layout}

def javaMark (c : ClassDecl) : Text := if c.isAbstract then "abstract ".toList else []

def javaParent (c : ClassDecl) : Text :=
  match c.parent with
  | some parent => " extends ".toList ++ parent
  | none => []

theorem javaHeader_eq (c : ClassDecl) : c.javaHeader =
    "public ".toList ++ (c.javaMark ++ ("class ".toList ++ (c.name ++ (c.javaParent ++ " \x7b".toList)))) := by
  change "public ".toList ++ c.javaMark ++ "class ".toList ++ c.name ++ c.javaParent ++ " \x7b".toList = _
  simp only [List.append_assoc]

theorem javaMark_of_isAbstract (h : c.isAbstract = true) : c.javaMark = "abstract ".toList := if_pos h

theorem javaMark_of_not_isAbstract (h : c.isAbstract = false) : c.javaMark = [] := if_neg (by simp [h])

theorem javaParent_of_some {p : Text} (h : c.parent = some p) : c.javaParent = " extends ".toList ++ p := by
  unfold javaParent
  rw [h]

theorem javaParent_of_none (h : c.parent = none) : c.javaParent = [] := by
  unfold javaParent
  rw [h]

private theorem eq_of_javaMark_append_eq {t u : Text} (h : c.javaMark ++ ("class ".toList ++ t) =
    d.javaMark ++ ("class ".toList ++ u)) : c.isAbstract = d.isAbstract ∧ t = u := by
  -- the mark is told from the keyword by its first letter
  cases hc : c.isAbstract <;> cases hd : d.isAbstract
  · rw [javaMark_of_not_isAbstract hc, javaMark_of_not_isAbstract hd] at h
    exact ⟨rfl, List.append_cancel_left h⟩
  · rw [javaMark_of_not_isAbstract hc, javaMark_of_isAbstract hd] at h
    simp at h
  · rw [javaMark_of_isAbstract hc, javaMark_of_not_isAbstract hd] at h
    simp at h
  · rw [javaMark_of_isAbstract hc, javaMark_of_isAbstract hd] at h
    exact ⟨rfl, List.append_cancel_left (List.append_cancel_left h)⟩

private theorem eq_of_javaParent_eq (h : c.javaParent = d.javaParent) : c.parent = d.parent := by
  cases hc : c.parent <;> cases hd : d.parent
  · rfl
  · rw [javaParent_of_none hc, javaParent_of_some hd] at h
    simp at h
  · rw [javaParent_of_some hc, javaParent_of_none hd] at h
    simp at h
  · rw [javaParent_of_some hc, javaParent_of_some hd] at h
    rw [List.append_cancel_left h]

private theorem stops_javaParent (c : ClassDecl) : Stops isWordChar (c.javaParent ++ " \x7b".toList) := by
  cases hp : c.parent with
  | none =>
    rw [javaParent_of_none hp]
    exact stops_cons.mpr isWordChar_space
  | some p =>
    rw [javaParent_of_some hp]
    exact stops_cons.mpr isWordChar_space

private theorem WellFormed.eq_of_javaHeader_eq (hc : c.WellFormed) (hd : d.WellFormed)
    (h : c.javaHeader = d.javaHeader) : c.name = d.name ∧ c.isAbstract = d.isAbstract ∧ c.parent = d.parent := by
  rw [javaHeader_eq, javaHeader_eq] at h
  obtain ⟨hmark, h⟩ := eq_of_javaMark_append_eq (List.append_cancel_left h)
  obtain ⟨hname, h⟩ := run_unique h hc.name.chars c.stops_javaParent hd.name.chars d.stops_javaParent
  exact ⟨hname, hmark, eq_of_javaParent_eq (List.append_cancel_right h)⟩

private theorem WellFormed.newline_not_mem_javaHeader (hc : c.WellFormed) : '\n' ∉ c.javaHeader := by
  have hmark : '\n' ∉ c.javaMark := by
    unfold javaMark
    split <;> decide
  have hparent : '\n' ∉ c.javaParent := by
    cases hp : c.parent with
    | none => simp [javaParent_of_none hp]
    | some p => simp [javaParent_of_some hp, (hc.parent p hp).not_mem isWordChar_newline]
  rw [javaHeader_eq]
  simp [hmark, hparent, hc.name.not_mem isWordChar_newline]

def memberLines (layout : Layout) (c : ClassDecl) : List Text :=
  c.attributes.map (layout.margin ++ ·.java) ++
    (if c.attributes.isEmpty || c.methods.isEmpty then [] else [[]]) ++
    c.methods.map (layout.margin ++ ·.java)

theorem java_eq (layout : Layout) (c : ClassDecl) :
    c.java layout = Text.joinWith ['\n'] (c.javaHeader :: (c.memberLines layout ++ [['\x7d']])) := by
  simp [java, memberLines]

private theorem WellFormed.newline_not_mem_memberLines (hc : c.WellFormed) :
    ∀ l ∈ c.memberLines layout, '\n' ∉ l := by
  intro l hl
  simp only [memberLines, List.mem_append, List.mem_map] at hl
  rcases hl with (⟨a, ha, rfl⟩ | hl) | ⟨m, hm, rfl⟩
  · simp [layout.newline_not_mem_margin, (hc.attributes a ha).newline_not_mem_java]
  · obtain rfl : l = [] := by
      split at hl <;> simp_all
    simp
  · simp [layout.newline_not_mem_margin, (hc.methods m hm).newline_not_mem_java]

/-- Lines of one kind pass a test of their last character all together or not at all. -/
theorem filter_margin_lines {α : Type} {line : α → Text} {last : Char}
    (h : ∀ a, (line a).getLast? = some last) (as : List α) (x : Char) :
    (as.map (layout.margin ++ line ·)).filter (·.getLast? == some x) =
      if last = x then as.map (layout.margin ++ line ·) else [] := by
  have hlast (a : α) : (layout.margin ++ line a).getLast? = some last := by
    rw [List.getLast?_append, h]
    rfl
  split
  · next hx => simp [List.filter_eq_self, hlast, hx]
  · next hx => simp [List.filter_eq_nil_iff, hlast, hx]

private theorem filter_memberLines (c : ClassDecl) (x : Char) :
    (c.memberLines layout).filter (·.getLast? == some x) =
      (if ';' = x then c.attributes.map (layout.margin ++ ·.java) else []) ++
        (if '\x7d' = x then c.methods.map (layout.margin ++ ·.java) else []) := by
  have hgap : (if c.attributes.isEmpty || c.methods.isEmpty then [] else [[]] : List Text).filter
      (·.getLast? == some x) = [] := by
    split <;> rfl
  rw [memberLines, List.filter_append, List.filter_append, hgap, List.append_nil,
    filter_margin_lines Attribute.getLast?_java, filter_margin_lines Method.getLast?_java]

private theorem filter_memberLines_attributes (c : ClassDecl) :
    (c.memberLines layout).filter (·.getLast? == some ';') = c.attributes.map (layout.margin ++ ·.java) := by
  rw [filter_memberLines, if_pos rfl, if_neg (by decide), List.append_nil]

private theorem filter_memberLines_methods (c : ClassDecl) :
    (c.memberLines layout).filter (·.getLast? == some '\x7d') = c.methods.map (layout.margin ++ ·.java) := by
  rw [filter_memberLines, if_neg (by decide), if_pos rfl, List.nil_append]

private theorem WellFormed.eq_of_memberLines_eq (hc : c.WellFormed) (hd : d.WellFormed)
    (h : c.memberLines layout = d.memberLines layout) :
    c.attributes = d.attributes ∧ c.methods = d.methods := by
  have hattributes := congrArg (List.filter (·.getLast? == some ';')) h
  have hmethods := congrArg (List.filter (·.getLast? == some '\x7d')) h
  rw [filter_memberLines_attributes, filter_memberLines_attributes] at hattributes
  rw [filter_memberLines_methods, filter_memberLines_methods] at hmethods
  constructor
  · rw [← List.map_id c.attributes, ← List.map_id d.attributes]
    apply map_eq_map_of_imp hattributes
    intro a ha b hb hab
    exact (hc.attributes a ha).eq_of_java_eq (hd.attributes b hb) (List.append_cancel_left hab)
  · rw [← List.map_id c.methods, ← List.map_id d.methods]
    apply map_eq_map_of_imp hmethods
    intro m hm n hn hmn
    exact (hc.methods m hm).eq_of_java_eq (hd.methods n hn) (List.append_cancel_left hmn)

private theorem WellFormed.eq_of_java_eq (hc : c.WellFormed) (hd : d.WellFormed)
    (h : c.java layout = d.java layout) : c = d := by
  have hlines {x : ClassDecl} (hx : x.WellFormed) :
      ∀ l ∈ x.javaHeader :: (x.memberLines layout ++ [['\x7d']]), '\n' ∉ l := by
    intro l hl
    simp only [List.mem_cons, List.mem_append, List.not_mem_nil, or_false] at hl
    rcases hl with rfl | hl | rfl
    · exact hx.newline_not_mem_javaHeader
    · exact hx.newline_not_mem_memberLines l hl
    · decide
  rw [java_eq, java_eq] at h
  have hl := Text.lines_eq_of_joinWith_eq h (by simp) (by simp) (hlines hc) (hlines hd)
  obtain ⟨hheader, hmembers⟩ := List.cons.inj hl
  obtain ⟨hname, hmark, hparent⟩ := hc.eq_of_javaHeader_eq hd hheader
  obtain ⟨hattributes, hmethods⟩ := hc.eq_of_memberLines_eq hd (List.append_cancel_right hmembers)
  cases c
  cases d
  simp_all

/-- Behind the first keyword a class goes on with another letter than an enum. -/
theorem java_front (layout : Layout) (c : ClassDecl) :
    ∃ x t, c.java layout = "public ".toList ++ x :: t ∧ x ≠ 'e' := by
  obtain ⟨t, ht⟩ := Text.exists_append_eq_joinWith ['\n'] c.javaHeader (c.memberLines layout ++ [['\x7d']])
  rw [java_eq, ← ht, javaHeader_eq, List.append_assoc]
  cases hm : c.isAbstract with
  | true =>
    rw [javaMark_of_isAbstract hm]
    exact ⟨'a', _, rfl, by decide⟩
  | false =>
    rw [javaMark_of_not_isAbstract hm]
    exact ⟨'c', _, rfl, by decide⟩

end ClassDecl

namespace EnumDecl

/-- The part of an enum that is rendered. -/
def trimmed (e : EnumDecl) : EnumDecl := ⟨e.name, Text.trim e.values⟩

theorem trimmed_eq_iff {e f : EnumDecl} :
    e.trimmed = f.trimmed ↔ e.name = f.name ∧ e.trimmed.values = f.trimmed.values := by simp [trimmed]

def valuesLine (layout : Layout) (values : Text) : Text :=
  if values.isEmpty then [] else layout.margin ++ values ++ ['\n']

theorem java_eq (layout : Layout) (e : EnumDecl) : e.java layout =
    "public enum ".toList ++
      (e.name ++ (" \x7b\n".toList ++ (valuesLine layout e.trimmed.values ++ ['\x7d']))) := by
  change "public enum ".toList ++ e.name ++ " \x7b\n".toList ++ valuesLine layout e.trimmed.values ++ ['\x7d'] = _
  simp only [List.append_assoc]

theorem java_front (layout : Layout) (e : EnumDecl) : ∃ t, e.java layout = "public ".toList ++ 'e' :: t := by
  rw [java_eq]
  exact ⟨"num ".toList ++ _, rfl⟩

private theorem eq_of_valuesLine_eq {layout : Layout} {t u : Text} (h : valuesLine layout t = valuesLine layout u) :
    t = u := by
  unfold valuesLine at h
  cases t <;> cases u <;> simp_all

/-- Enums are rendered alike exactly if they agree up to blanks around their values. -/
theorem WellFormed.java_eq_iff {e f : EnumDecl} (he : e.WellFormed) (hf : f.WellFormed) (layout : Layout) :
    e.java layout = f.java layout ↔ e.trimmed = f.trimmed := by
  have hstops (t : Text) : Stops isWordChar (" \x7b\n".toList ++ t) := stops_cons.mpr isWordChar_space
  rw [java_eq, java_eq, trimmed_eq_iff]
  constructor
  · intro h
    obtain ⟨hname, h⟩ := run_unique (List.append_cancel_left h) he.name.chars (hstops _) hf.name.chars (hstops _)
    exact ⟨hname, eq_of_valuesLine_eq (List.append_cancel_right (List.append_cancel_left h))⟩
  · rintro ⟨hname, hvalues⟩
    rw [hname, hvalues]

end EnumDecl

namespace Declaration

def class? : Declaration → Option ClassDecl
  | .ofClass c => some c
  | .ofEnum _ => none

def enum? : Declaration → Option EnumDecl
  | .ofClass _ => none
  | .ofEnum e => some e

def WellFormed : Declaration → Prop
  | .ofClass c => c.WellFormed
  | .ofEnum e => e.WellFormed

def trimmed : Declaration → Declaration
  | .ofClass c => .ofClass c
  | .ofEnum e => .ofEnum e.trimmed

private theorem class_ne_enum (layout : Layout) (c : ClassDecl) (e : EnumDecl) : c.java layout ≠ e.java layout := by
  intro h
  obtain ⟨x, t, ht, hx⟩ := c.java_front layout
  obtain ⟨u, hu⟩ := e.java_front layout
  rw [ht, hu] at h
  exact hx (List.cons.inj (List.append_cancel_left h)).1

/-- Declarations are rendered alike exactly if they agree in what is rendered. -/
theorem WellFormed.java_eq_iff {x y : Declaration} (hx : x.WellFormed) (hy : y.WellFormed) (layout : Layout) :
    x.java layout = y.java layout ↔ x.trimmed = y.trimmed := by
  cases x with
  | ofClass c =>
    cases y with
    | ofClass d =>
      have heq : c.java layout = d.java layout ↔ c = d :=
        ⟨ClassDecl.WellFormed.eq_of_java_eq hx hy, fun h => h ▸ rfl⟩
      exact heq.trans (by simp [trimmed])
    | ofEnum e => exact iff_of_false (class_ne_enum layout c e) (by simp [trimmed])
  | ofEnum e =>
    cases y with
    | ofClass c => exact iff_of_false (class_ne_enum layout c e).symm (by simp [trimmed])
    | ofEnum f => exact (EnumDecl.WellFormed.java_eq_iff hx hy layout).trans (by simp [trimmed])

end Declaration

namespace Model

private theorem filterMap_class?_declarations (m : Model) :
    m.declarations.filterMap Declaration.class? = m.classes := by
  simp [declarations, List.filterMap_append, List.filterMap_map, Function.comp_def, Declaration.class?]

private theorem filterMap_enum?_declarations (m : Model) : m.declarations.filterMap Declaration.enum? = m.enums := by
  simp [declarations, List.filterMap_append, List.filterMap_map, Function.comp_def, Declaration.enum?]

private theorem declarations_eq_iff {m n : Model} :
    m.declarations = n.declarations ↔ m.classes = n.classes ∧ m.enums = n.enums := by
  constructor
  · intro h
    rw [← filterMap_class?_declarations, ← filterMap_enum?_declarations, h, filterMap_class?_declarations,
      filterMap_enum?_declarations]
    exact ⟨rfl, rfl⟩
  · rintro ⟨hclasses, henums⟩
    rw [declarations, declarations, hclasses, henums]

def trimmed (m : Model) : Model := { m with enums := m.enums.map EnumDecl.trimmed }

private theorem declarations_trimmed (m : Model) : m.trimmed.declarations = m.declarations.map Declaration.trimmed := by
  simp only [declarations, trimmed, List.map_append, List.map_map]
  rfl

/-- Models of well-formed declarations are rendered alike exactly if they agree in what is rendered. -/
theorem java_eq_iff {m n : Model} (hm : ∀ x ∈ m.declarations, x.WellFormed)
    (hn : ∀ x ∈ n.declarations, x.WellFormed) (layout : Layout) :
    m.java layout = n.java layout ↔ m.trimmed.declarations = n.trimmed.declarations := by
  rw [declarations_trimmed, declarations_trimmed]
  constructor
  · intro h
    apply map_eq_map_of_imp h
    intro x hx y hy
    exact ((hm x hx).java_eq_iff (hn y hy) layout).mp
  · intro h
    apply map_eq_map_of_imp h
    intro x hx y hy
    exact ((hm x hx).java_eq_iff (hn y hy) layout).mpr

theorem wellFormed_of_mem_declarations {document : Text} {x : Declaration}
    (h : x ∈ (ofText document).declarations) : x.WellFormed := by
  rcases List.mem_append.mp h with h | h
  · obtain ⟨c, hc, rfl⟩ := List.mem_map.mp h
    exact wellFormed_of_mem_classes hc
  · obtain ⟨e, he, rfl⟩ := List.mem_map.mp h
    exact wellFormed_of_mem_enums he

end Model

/-- Two documents are rendered alike, whatever the layout, exactly if they declare the same classes
and the same enums but for the blanks around their values. -/
theorem generate_eq_generate_iff (layout : Layout) (x y : Text) :
    generate layout x = generate layout y ↔
      (Model.ofText x).classes = (Model.ofText y).classes ∧
        (Model.ofText x).enums.map EnumDecl.trimmed = (Model.ofText y).enums.map EnumDecl.trimmed := by
  have hread (document : Text) : ∀ d ∈ (Model.ofText document).declarations, d.WellFormed :=
    fun d hd => Model.wellFormed_of_mem_declarations hd
  rw [generate, generate, Model.java_eq_iff (hread x) (hread y), Model.declarations_eq_iff]
  rfl

end ClassNotation
