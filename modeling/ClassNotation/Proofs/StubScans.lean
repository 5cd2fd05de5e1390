import ClassNotation.Proofs.FaithfulRendering
import ClassNotation.Proofs.HeaderPhrases
import ClassNotation.Proofs.MarkPieces

/-! What the scans find in stubs, for which none of them was made: the body of a class now ends with its
first method, and the lines behind it stand between declarations. A header needs an opening brace
behind words and blanks, and the braces of a method stand behind a parenthesis; so its own header is
all that is found in a stub. Marks are quoted where they were quoted before. -/
namespace ClassNotation
open Grammar

private theorem Text.joinWith_lines (first last : Text) (ls : List Text) (t : Text) :
    joinWith ['\n'] (first :: (ls ++ [last])) ++ t = first ++ '\n' :: (ls.flatMap line ++ (last ++ t)) := by
  induction ls generalizing first with
  | nil => simp [joinWith]
  | cons l ls ih =>
    rw [List.cons_append, joinWith, List.append_assoc, ih]
    simp [line]

private theorem Layout.isBlank_of_mem_margin (l : Layout) : ∀ c ∈ l.margin, isBlank c = true := by
  intro c hc
  rw [List.eq_of_mem_replicate hc]
  exact isBlank_space

/-! Headers among the members. -/
section
variable {α : Type} {g : Grammar α} {body : α → Text} (hg : Braced g body) (hled : WordLed g)
include hg

private theorem Attribute.WellFormed.passes_java {a : Attribute} (ha : a.WellFormed) : g.Passes a.java := by
  have hword {w : Text} (hw : IsWord w) : '\x7b' ∉ w := hw.not_mem isWordChar_openBrace
  have htype : '\x7b' ∉ a.typeName := by
    rcases ha.type with ht | ⟨ht, -⟩
    · exact hword ht
    · simp [ht, hword ha.name]
  apply hg.passes _ isSeparator_semicolon (by decide)
  simp [hword a.visibility.isWord_keyword, htype, hword ha.name]

include hled

private theorem Method.WellFormed.passes_java {m : Method} {className : Text} (hm : m.WellFormed className)
    (hps : '\x7b' ∉ m.parameters) : g.Passes m.java := by
  have hsplit : m.java =
      (m.visibility.keyword ++ ' ' :: (m.declarator ++ '(' :: m.parameters)) ++ [')'] ++ " \x7b\x7d".toList := by
    have he : ") \x7b\x7d".toList = [')'] ++ " \x7b\x7d".toList := rfl
    rw [Method.java_eq, he]
    simp only [List.append_assoc, List.cons_append]
  rw [hsplit]
  have hbraces : g.Passes " \x7b\x7d".toList := hled.passes (by simp)
  refine (hg.passes ?_ isSeparator_closeParenthesis (by decide)).append hbraces
  simp [m.visibility.isWord_keyword.not_mem isWordChar_openBrace, hm.not_mem_declarator isWordChar_openBrace (by decide),
    hps]

end

private theorem Grammar.WordLed.passes_line {α : Type} {g : Grammar α} (hled : WordLed g) (layout : Layout) {x : Text}
    (hx : g.Passes x) : g.Passes (Text.line (layout.margin ++ x)) := by
  have hblank {b : Text} (hb : ∀ c ∈ b, isBlank c = true) : g.Passes b :=
    hled.passes fun c hc => isWordChar_eq_false_of_isBlank (hb c hc)
  exact ((hblank layout.isBlank_of_mem_margin).append hx).append (hblank (by simp))

/-! Marks among the members. -/

private theorem marks_word {w : Text} (hw : IsWord w) : abstractMark.scan w = [] := by
  have h := keyworded_abstractMark.scan_word hw.chars stops_nil fun _ => run_afterBlanks_of_stops stops_nil
  rwa [List.append_nil, scan_nil] at h

private theorem marks_pair {u w : Text} (hu : IsWord u) (hw : IsWord w) : abstractMark.scan (u ++ ' ' :: w) = [] := by
  have hnone : (afterBlanks markedName).run (' ' :: (w ++ [])) = none := by
    rw [run_afterBlanks_word isBlank_space hw, keyworded_markedName.run_append hw.chars stops_nil]
    split
    · exact run_afterBlanks_of_stops stops_nil
    · rfl
  rw [List.append_nil] at hnone
  rw [keyworded_abstractMark.scan_word_cons hu.chars isWordChar_space fun _ => hnone, marks_word hw]

private theorem Visibility.marks_keyword (v : Visibility) (t : Text) :
    abstractMark.scan (v.keyword ++ ' ' :: t) = abstractMark.scan t :=
  keyworded_abstractMark.scan_other_cons v.isWord_keyword (by cases v <;> decide) isWordChar_space

private theorem Attribute.WellFormed.marks_declarator {a : Attribute} (ha : a.WellFormed) :
    abstractMark.scan (a.typeName ++ ' ' :: a.name) = [] := by
  have hled := keyworded_abstractMark.wordLed
  rcases ha.type with ht | ⟨ht, -⟩
  · exact marks_pair ht ha.name
  · have hsplit : a.typeName ++ ' ' :: a.name = a.name ++ '[' :: ']' :: ' ' :: a.name := by
      rw [ht, List.append_assoc]
      rfl
    rw [hsplit, isSeparator_openBracket.marks_append, marks_word ha.name, hled.scan_cons (by decide),
      hled.scan_cons isWordChar_space, marks_word ha.name, List.append_nil]

private theorem Attribute.WellFormed.marks_java {a : Attribute} (ha : a.WellFormed) (t : Text) :
    abstractMark.scan (a.java ++ t) = abstractMark.scan t := by
  have hsplit : a.java ++ t = (a.visibility.keyword ++ ' ' :: (a.typeName ++ ' ' :: a.name)) ++ ';' :: t := by
    rw [Attribute.java_eq]
    simp only [List.append_assoc, List.cons_append, List.nil_append]
  rw [hsplit, isSeparator_semicolon.marks_append, a.visibility.marks_keyword, ha.marks_declarator, List.nil_append]

private theorem Method.WellFormed.marks_declarator {m : Method} {className : Text} (hm : m.WellFormed className) :
    abstractMark.scan m.declarator = [] := by
  by_cases ht : m.returnType = []
  · rw [Method.declarator_of_untyped ht, marks_word hm.name]
  · rw [Method.declarator_of_typed ht, marks_pair (hm.type ht) hm.name]

/-- The marks in a method are those that its parameters hold. -/
theorem Method.WellFormed.marks_java {m : Method} {className : Text} (hm : m.WellFormed className) (t : Text) :
    abstractMark.scan (m.java ++ t) = abstractMark.scan m.parameters ++ abstractMark.scan t := by
  have hled := keyworded_abstractMark.wordLed
  have hsplit : m.java ++ t = m.visibility.keyword ++
      ' ' :: (m.declarator ++ '(' :: (m.parameters ++ ')' :: ' ' :: '\x7b' :: '\x7d' :: t)) := by
    have he : ") \x7b\x7d".toList = [')', ' ', '\x7b', '\x7d'] := rfl
    rw [Method.java_eq, he]
    simp only [List.append_assoc, List.cons_append, List.nil_append]
  rw [hsplit, m.visibility.marks_keyword, isSeparator_openParenthesis.marks_append, hm.marks_declarator, List.nil_append,
    isSeparator_closeParenthesis.marks_append, hled.scan_cons isWordChar_space, hled.scan_cons isWordChar_openBrace,
    hled.scan_cons isWordChar_closeBrace]

private theorem marks_line (layout : Layout) (x t : Text) :
    abstractMark.scan (Text.line (layout.margin ++ x) ++ t) = abstractMark.scan (x ++ '\n' :: t) := by
  have hsplit : Text.line (layout.margin ++ x) ++ t = layout.margin ++ (x ++ '\n' :: t) := by simp [Text.line]
  rw [hsplit, marks_blanks_append layout.isBlank_of_mem_margin]

/-! What each scan finds in one declaration. -/

private theorem isWord_public : IsWord "public".toList := by decide

namespace ClassDecl
variable {c : ClassDecl} {layout : Layout}

def memberText (layout : Layout) (c : ClassDecl) : Text := '\n' :: (c.memberLines layout).flatMap Text.line

private theorem javaParent_eq (c : ClassDecl) : c.javaParent = parentPhrase c.parent := by
  cases hp : c.parent with
  | none => exact javaParent_of_none hp
  | some p => exact javaParent_of_some hp

private theorem java_append (layout : Layout) (c : ClassDecl) (t : Text) : c.java layout ++ t =
    "public".toList ++ ' ' :: markedPhrase c.isAbstract c.name c.parent (c.memberText layout ++ '\x7d' :: t) := by
  have hpublic : "public ".toList = "public".toList ++ [' '] := rfl
  have hclass : "class ".toList = "class".toList ++ [' '] := rfl
  have hbrace : " \x7b".toList = [' ', '\x7b'] := rfl
  rw [java_eq, Text.joinWith_lines, javaHeader_eq, javaParent_eq, hpublic, hclass, hbrace]
  unfold markedPhrase
  cases hm : c.isAbstract with
  | true =>
    have hmark : "abstract ".toList = "abstract".toList ++ [' '] := rfl
    rw [javaMark_of_isAbstract hm, hmark, classPhrase_eq, if_pos rfl]
    simp only [memberText, List.append_assoc, List.cons_append, List.nil_append]
  | false =>
    rw [javaMark_of_not_isAbstract hm, classPhrase_eq, if_neg (by decide)]
    simp only [memberText, List.append_assoc, List.cons_append, List.nil_append]

/-- The body that is read where the class is rendered: all up to the braces of the first method. -/
def renderedBody (layout : Layout) (c : ClassDecl) : Text := (c.memberText layout).takeWhile (· != '\x7d')

private theorem memberText_eq (layout : Layout) (c : ClassDecl) : c.memberText layout =
    '\n' :: (c.attributes.flatMap (fun a => Text.line (layout.margin ++ a.java)) ++
      ((if c.attributes.isEmpty || c.methods.isEmpty then [] else ['\n']) ++
        c.methods.flatMap fun m => Text.line (layout.margin ++ m.java))) := by
  rw [memberText, memberLines, List.flatMap_append, List.flatMap_append, List.flatMap_map, List.flatMap_map,
    List.append_assoc]
  split <;> rfl

private theorem WellFormed.passes_memberText {α : Type} {g : Grammar α} {body : α → Text} (hg : Braced g body)
    (hled : WordLed g) (hc : c.WellFormed) (hps : ∀ m ∈ c.methods, '\x7b' ∉ m.parameters) :
    g.Passes (c.memberText layout) := by
  rw [memberText_eq]
  have hnewline : g.Passes ['\n'] := hled.passes (by simp)
  have hgap : g.Passes (if c.attributes.isEmpty || c.methods.isEmpty then [] else ['\n']) := by
    split
    · exact passes_nil
    · exact hnewline
  refine hnewline.append (Passes.append ?_ (hgap.append ?_))
  · exact passes_flatMap fun a ha => hled.passes_line layout ((hc.attributes a ha).passes_java hg)
  · exact passes_flatMap fun m hm => hled.passes_line layout ((hc.methods m hm).passes_java hg hled (hps m hm))

private theorem WellFormed.marks_memberText (hc : c.WellFormed) (t : Text) :
    abstractMark.scan (c.memberText layout ++ t) =
      c.methods.flatMap (fun m => abstractMark.scan m.parameters) ++ abstractMark.scan t := by
  have hled := keyworded_abstractMark.wordLed
  have hgap (u : Text) : abstractMark.scan ((if c.attributes.isEmpty || c.methods.isEmpty then [] else ['\n']) ++ u) =
      abstractMark.scan u := by
    split
    · rfl
    · exact hled.scan_cons isWordChar_newline u
  have hattributes : ∀ a ∈ c.attributes, ∀ u, abstractMark.scan (Text.line (layout.margin ++ a.java) ++ u) =
      [] ++ abstractMark.scan u := by
    intro a ha u
    rw [marks_line, (hc.attributes a ha).marks_java, hled.scan_cons isWordChar_newline, List.nil_append]
  have hmethods : ∀ m ∈ c.methods, ∀ u, abstractMark.scan (Text.line (layout.margin ++ m.java) ++ u) =
      abstractMark.scan m.parameters ++ abstractMark.scan u := by
    intro m hm u
    rw [marks_line, (hc.methods m hm).marks_java, hled.scan_cons isWordChar_newline]
  rw [memberText_eq, List.cons_append, hled.scan_cons isWordChar_newline, List.append_assoc,
    scan_flatMap_append_of_mem hattributes, List.append_assoc, hgap, scan_flatMap_append_of_mem hmethods]
  simp

/-- The rest of the methods is passed over behind the body that is read. -/
theorem WellFormed.classes_java (hc : c.WellFormed) (hps : ∀ m ∈ c.methods, '\x7b' ∉ m.parameters) (t : Text) :
    ClassHeader.grammar.scan (c.java layout ++ t) =
      ⟨c.name, c.parent, c.renderedBody layout⟩ :: ClassHeader.grammar.scan t := by
  have hk := ClassHeader.keyworded
  have hpasses : ClassHeader.grammar.Passes (c.memberText layout) :=
    hc.passes_memberText ClassHeader.braced hk.wordLed hps
  have hbody : '\x7d' ∉ c.renderedBody layout := by
    intro hm
    simpa using List.all_eq_true.mp List.all_takeWhile _ hm
  rw [java_append, hk.scan_other_cons isWord_public (by decide) isWordChar_space]
  have hsplit : c.renderedBody layout ++ (c.memberText layout).dropWhile (· != '\x7d') = c.memberText layout :=
    List.takeWhile_append_dropWhile
  -- without methods nothing is left behind the body; otherwise it ends at the first method, and the others are left
  cases hrest : (c.memberText layout).dropWhile (· != '\x7d') with
  | nil =>
    rw [hrest, List.append_nil] at hsplit
    rw [← hsplit, classes_markedPhrase hc.name hc.parent _ hbody]
  | cons d rest =>
    have hd := stops_dropWhile (p := (· != '\x7d')) (c.memberText layout)
    rw [hrest, stops_cons, bne_eq_false_iff_eq] at hd
    rw [hrest, hd] at hsplit
    have hsuffix : rest <:+ c.memberText layout := hsplit ▸ ⟨c.renderedBody layout ++ ['\x7d'], by simp⟩
    rw [← hsplit, List.append_assoc, List.cons_append, classes_markedPhrase hc.name hc.parent _ hbody,
      (hpasses.of_suffix hsuffix).scan_append, hk.wordLed.scan_cons isWordChar_closeBrace]

private theorem WellFormed.enums_java (hc : c.WellFormed) (hps : ∀ m ∈ c.methods, '\x7b' ∉ m.parameters) (t : Text) :
    EnumHeader.grammar.scan (c.java layout ++ t) = EnumHeader.grammar.scan t := by
  have hk := EnumHeader.keyworded
  have hpasses : EnumHeader.grammar.Passes (c.memberText layout) := hc.passes_memberText EnumHeader.braced hk.wordLed hps
  rw [java_append, hk.scan_other_cons isWord_public (by decide) isWordChar_space, enums_markedPhrase hc.name hc.parent,
    hpasses.scan_append, hk.wordLed.scan_cons isWordChar_closeBrace]

private theorem WellFormed.marks_java (hc : c.WellFormed) (t : Text) : abstractMark.scan (c.java layout ++ t) =
    (if c.isAbstract then [c.name] else []) ++ c.methods.flatMap (fun m => abstractMark.scan m.parameters) ++
      abstractMark.scan t := by
  have hk := keyworded_abstractMark
  rw [java_append, hk.scan_other_cons isWord_public (by decide) isWordChar_space, marks_markedPhrase hc.name hc.parent,
    hc.marks_memberText, hk.wordLed.scan_cons isWordChar_closeBrace, List.append_assoc]

end ClassDecl

namespace EnumDecl
variable {e : EnumDecl} {layout : Layout}

def valuesText (layout : Layout) (e : EnumDecl) : Text := '\n' :: valuesLine layout e.trimmed.values

private theorem java_append (layout : Layout) (e : EnumDecl) (t : Text) :
    e.java layout ++ t = "public".toList ++ ' ' :: enumPhrase e.name (e.valuesText layout ++ '\x7d' :: t) := by
  have hpublic : "public enum ".toList = "public".toList ++ ' ' :: ("enum".toList ++ [' ']) := rfl
  have hbrace : " \x7b\n".toList = [' ', '\x7b', '\n'] := rfl
  rw [java_eq, hpublic, hbrace, enumPhrase_eq]
  simp only [valuesText, List.append_assoc, List.cons_append, List.nil_append]

theorem trim_valuesText (layout : Layout) (e : EnumDecl) : Text.trim (e.valuesText layout) = Text.trim e.values := by
  have hnewline : ∀ c ∈ ['\n'], isBlank c = true := by simp
  rw [← Text.trim_trim e.values]
  change Text.trim (['\n'] ++ valuesLine layout (Text.trim e.values)) = _
  rw [Text.trim_blanks_append hnewline]
  unfold valuesLine
  split
  · next h => rw [List.isEmpty_iff.mp h]
  · rw [Text.trim_append_blanks hnewline, Text.trim_blanks_append layout.isBlank_of_mem_margin]

private theorem not_mem_valuesText {c : Char} (hc : isBlank c = false) (h : c ∉ e.values) :
    c ∉ e.valuesText layout := by
  intro hm
  obtain ⟨b, b', he, hb, hb'⟩ := Text.exists_append_trim (e.valuesText layout)
  rw [he, trim_valuesText, List.mem_append, List.mem_append] at hm
  rcases hm with hm | hm | hm
  · exact absurd (hb c hm) (by simp [hc])
  · exact h ((Text.trim_infix e.values).subset hm)
  · exact absurd (hb' c hm) (by simp [hc])

private theorem WellFormed.classes_java (he : e.WellFormed) (hvalues : '\x7b' ∉ e.values) (t : Text) :
    ClassHeader.grammar.scan (e.java layout ++ t) = ClassHeader.grammar.scan t := by
  have hk := ClassHeader.keyworded
  rw [java_append, hk.scan_other_cons isWord_public (by decide) isWordChar_space, classes_enumPhrase he.name,
    ClassHeader.opensFirst.scan_append (not_mem_valuesText isBlank_openBrace hvalues),
    hk.wordLed.scan_cons isWordChar_closeBrace]

private theorem WellFormed.enums_java (he : e.WellFormed) (t : Text) :
    EnumHeader.grammar.scan (e.java layout ++ t) = ⟨e.name, e.valuesText layout⟩ :: EnumHeader.grammar.scan t := by
  rw [java_append, EnumHeader.keyworded.scan_other_cons isWord_public (by decide) isWordChar_space,
    enums_enumPhrase he.name (not_mem_valuesText isBlank_closeBrace he.values)]

private theorem WellFormed.marks_java (he : e.WellFormed) (t : Text) :
    abstractMark.scan (e.java layout ++ t) = abstractMark.scan e.values ++ abstractMark.scan t := by
  rw [java_append, keyworded_abstractMark.scan_other_cons isWord_public (by decide) isWordChar_space,
    marks_enumPhrase he.name, isSeparator_closeBrace.marks_append, ← marks_trim, trim_valuesText, marks_trim]

end EnumDecl

namespace Declaration
variable {x : Declaration} {layout : Layout}

def BraceFree : Declaration → Prop
  | .ofClass c => ∀ m ∈ c.methods, '\x7b' ∉ m.parameters
  | .ofEnum e => '\x7b' ∉ e.values

/-- The marks that are written where the declaration is rendered. -/
def marks : Declaration → List Text
  | .ofClass c => (if c.isAbstract then [c.name] else []) ++ c.methods.flatMap fun m => abstractMark.scan m.parameters
  | .ofEnum e => abstractMark.scan e.values

def classHeaders (layout : Layout) : Declaration → List ClassHeader
  | .ofClass c => [⟨c.name, c.parent, c.renderedBody layout⟩]
  | .ofEnum _ => []

def enumHeaders (layout : Layout) : Declaration → List EnumHeader
  | .ofClass _ => []
  | .ofEnum e => [⟨e.name, e.valuesText layout⟩]

theorem WellFormed.classes_java (hx : x.WellFormed) (hfree : x.BraceFree) (t : Text) :
    ClassHeader.grammar.scan (x.java layout ++ t) = x.classHeaders layout ++ ClassHeader.grammar.scan t := by
  cases x with
  | ofClass c => exact ClassDecl.WellFormed.classes_java hx hfree t
  | ofEnum e => exact EnumDecl.WellFormed.classes_java hx hfree t

theorem WellFormed.enums_java (hx : x.WellFormed) (hfree : x.BraceFree) (t : Text) :
    EnumHeader.grammar.scan (x.java layout ++ t) = x.enumHeaders layout ++ EnumHeader.grammar.scan t := by
  cases x with
  | ofClass c => exact ClassDecl.WellFormed.enums_java hx hfree t
  | ofEnum e => exact EnumDecl.WellFormed.enums_java hx t

theorem WellFormed.marks_java (hx : x.WellFormed) (t : Text) :
    abstractMark.scan (x.java layout ++ t) = x.marks ++ abstractMark.scan t := by
  cases x with
  | ofClass c => exact ClassDecl.WellFormed.marks_java hx t
  | ofEnum e => exact EnumDecl.WellFormed.marks_java hx t

end Declaration

end ClassNotation
