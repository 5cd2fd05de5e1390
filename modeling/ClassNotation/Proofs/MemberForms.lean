import ClassNotation.Proofs.MemberReadings

/-! The two forms of a member line, and that lines are classified by them exactly. A line has at most
one of the forms, and has it in one way only, so nothing is lost by trying the typed signature first
and never giving back a part that was read. -/
namespace ClassNotation
open Grammar

namespace Visibility

def symbols : List Char := ['+', '-', '#']

theorem isSome_ofSymbol?_iff {c : Char} : (ofSymbol? c).isSome = true ↔ c ∈ symbols := by
  unfold ofSymbol?
  split
  · decide
  · decide
  · decide
  · next hplus hhyphen hhash => simpa [symbols] using ⟨hplus, hhyphen, hhash⟩

theorem ofSymbol?_eq_none {c : Char} (h : isWordChar c = true ∨ isBlank c = true) : ofSymbol? c = none := by
  rw [← Option.not_isSome_iff_eq_none, isSome_ofSymbol?_iff]
  intro hc
  simp only [symbols, List.mem_cons, List.not_mem_nil, or_false] at hc
  rcases hc with rfl | rfl | rfl <;> revert h <;> decide

end Visibility

/-- What may stand before the words of a member: one of the symbols, and blanks. -/
@[ext]
structure MemberStart where
  symbol : Option Char
  space : Text
  isSymbol : ∀ c ∈ symbol, c ∈ Visibility.symbols
  isBlank_space : ∀ c ∈ space, isBlank c = true

namespace MemberStart
variable {w w' t t' : Text}

def text (f : MemberStart) : Text := f.symbol.toList ++ f.space

def visibility (f : MemberStart) : Visibility :=
  match f.symbol with
  | none => .pub
  | some c => if c = '-' then .priv else if c = '#' then .prot else .pub

private theorem visibility_eq (f : MemberStart) : f.visibility = .ofSymbol f.symbol := by
  unfold visibility
  split
  · next hs => simp [hs, Visibility.ofSymbol]
  · next c hs =>
    have hc := f.isSymbol c hs
    simp only [Visibility.symbols, List.mem_cons, List.not_mem_nil, or_false] at hc
    rw [hs]
    rcases hc with rfl | rfl | rfl <;> rfl

theorem isSome_ofSymbol? (f : MemberStart) : ∀ c ∈ f.symbol, (Visibility.ofSymbol? c).isSome = true :=
  fun c hc => Visibility.isSome_ofSymbol?_iff.mpr (f.isSymbol c hc)

private theorem isSome_of_mem_toList (f : MemberStart) :
    ∀ c ∈ f.symbol.toList, (Visibility.ofSymbol? c).isSome = true :=
  fun c hc => f.isSome_ofSymbol? c (Option.mem_toList.mp hc)

private theorem stops_space (f : MemberStart) (hw : IsWord w) (t : Text) :
    Stops (fun c => (Visibility.ofSymbol? c).isSome) (f.space ++ (w ++ t)) := by
  cases hs : f.space with
  | nil =>
    obtain ⟨c, w, rfl⟩ := List.exists_cons_of_ne_nil hw.ne_nil
    simp [Visibility.ofSymbol?_eq_none (Or.inl (hw.chars c List.mem_cons_self))]
  | cons c b =>
    have hc : c ∈ f.space := by simp [hs]
    simp [Visibility.ofSymbol?_eq_none (Or.inr (f.isBlank_space c hc))]

private theorem run_text (f : MemberStart) (hw : IsWord w) (t : Text) :
    Visibility.grammar.run (f.text ++ (w ++ t)) = some (f.visibility, w ++ t) := by
  have hsymbol : (oneOf Visibility.ofSymbol?).optional.run (f.text ++ (w ++ t)) =
      some (f.symbol.bind Visibility.ofSymbol?, f.space ++ (w ++ t)) := by
    rw [text, List.append_assoc]
    apply run_optional_eq_some_iff.mpr
    cases hs : f.symbol with
    | none => exact Or.inr ⟨rfl, run_oneOf_eq_none (f.stops_space hw t), rfl⟩
    | some c =>
      obtain ⟨v, hv⟩ := Option.isSome_iff_exists.mp (f.isSome_ofSymbol? c hs)
      exact Or.inl ⟨v, hv, run_oneOf_eq_some_iff.mpr ⟨c, rfl, hv⟩⟩
  have hblanks : blanks.run (f.space ++ (w ++ t)) = some (f.space, w ++ t) :=
    run_run0_eq_some_iff.mpr ⟨rfl, f.isBlank_space, hw.stops_isBlank t⟩
  unfold Visibility.grammar
  rw [run_bind_of_eq_some hsymbol, run_bind_of_eq_some hblanks, run_pure, visibility_eq]
  rfl

private theorem exists_of_run {s r : Text} {v : Visibility} (h : Visibility.grammar.run s = some (v, r)) :
    ∃ f : MemberStart, s = f.text ++ r ∧ f.visibility = v := by
  simp only [Visibility.grammar, run_bind_eq_some_iff, run_pure, Option.some.injEq, Prod.mk.injEq] at h
  obtain ⟨found, u, hf, b, _, hb, rfl, rfl⟩ := h
  obtain ⟨rfl, hblank, -⟩ := run_run0_eq_some_iff.mp hb
  rcases run_optional_eq_some_iff.mp hf with ⟨v, rfl, hv⟩ | ⟨rfl, -, rfl⟩
  · obtain ⟨c, rfl, hc⟩ := run_oneOf_eq_some_iff.mp hv
    have hsymbol : c ∈ Visibility.symbols := Visibility.isSome_ofSymbol?_iff.mp (by simp [hc])
    exact ⟨⟨some c, b, by simpa using hsymbol, hblank⟩, rfl, by simp [visibility_eq, Visibility.ofSymbol, hc]⟩
  · exact ⟨⟨none, b, by simp, hblank⟩, rfl, rfl⟩

/-- Symbol and blanks are found in one way only where a word follows them. -/
theorem unique {f g : MemberStart} (hw : IsWord w) (hw' : IsWord w') (h : f.text ++ (w ++ t) = g.text ++ (w' ++ t')) :
    f = g ∧ w ++ t = w' ++ t' := by
  rw [text, text, List.append_assoc, List.append_assoc] at h
  obtain ⟨hsymbol, h⟩ := run_unique h f.isSome_of_mem_toList (f.stops_space hw t)
    g.isSome_of_mem_toList (g.stops_space hw' t')
  obtain ⟨hspace, h⟩ := run_unique h f.isBlank_space (hw.stops_isBlank t) g.isBlank_space (hw'.stops_isBlank t')
  exact ⟨MemberStart.ext (by simpa using congrArg List.head? hsymbol) hspace, h⟩

private theorem not_mem (f : MemberStart) {c : Char} (hs : c ∉ Visibility.symbols) (hc : IsSeparator c) :
    c ∉ f.text := by
  have hsymbol : c ∉ f.symbol.toList := fun h => hs (f.isSymbol c (Option.mem_toList.mp h))
  simp [text, hsymbol, hc.not_mem_blanks f.isBlank_space]

end MemberStart

@[ext]
structure AttributeForm where
  start : MemberStart
  typeName : Text
  gap : Text
  name : Text
  isWord_typeName : IsWord typeName
  isGap : IsGap gap
  isWord_name : IsWord name

/-- A method as it may be written on a line of its own. A type stands with the blanks behind it. -/
@[ext]
structure MethodForm where
  start : MemberStart
  type : Option (Text × Text)
  name : Text
  parameters : Text
  isWord_type : ∀ p ∈ type, IsWord p.1
  isGap_type : ∀ p ∈ type, IsGap p.2
  isWord_name : IsWord name
  close_not_mem : ')' ∉ parameters

namespace AttributeForm

def text (f : AttributeForm) : Text := f.start.text ++ (f.typeName ++ (f.gap ++ f.name))

def toAttribute (f : AttributeForm) : Attribute := ⟨f.start.visibility, f.typeName, f.name⟩

private theorem run_text (f : AttributeForm) : Attribute.grammar.run f.text = some (f.toAttribute, []) := by
  have hwords : wordPair.run (f.typeName ++ (f.gap ++ f.name)) = some ((f.typeName, f.name), []) :=
    run_wordPair_eq_some_iff.mpr ⟨f.gap, by simp, f.isWord_typeName, f.isGap, f.isWord_name, stops_nil⟩
  unfold Attribute.grammar
  rw [text, run_bind_of_eq_some (f.start.run_text f.isWord_typeName _), run_bind_of_eq_some hwords, run_pure]
  rfl

private theorem exists_of_run {s : Text} {a : Attribute} (h : Attribute.grammar.run s = some (a, [])) :
    ∃ f : AttributeForm, f.text = s ∧ f.toAttribute = a := by
  simp only [Attribute.grammar, run_bind_eq_some_iff, run_pure, Option.some.injEq, Prod.mk.injEq] at h
  obtain ⟨v, _, hv, ⟨u, w⟩, _, hp, rfl, rfl⟩ := h
  obtain ⟨start, rfl, rfl⟩ := MemberStart.exists_of_run hv
  obtain ⟨b, rfl, hu, hb, hw, -⟩ := run_wordPair_eq_some_iff.mp hp
  exact ⟨⟨start, u, b, w, hu, hb, hw⟩, by simp [text], rfl⟩

private theorem unique {f g : AttributeForm} (h : f.text = g.text) : f = g := by
  obtain ⟨hstart, h⟩ := MemberStart.unique f.isWord_typeName g.isWord_typeName h
  obtain ⟨htype, h⟩ := run_unique h f.isWord_typeName.chars (f.isGap.stops_isWordChar _)
    g.isWord_typeName.chars (g.isGap.stops_isWordChar _)
  have hf := f.isWord_name.stops_isBlank []
  have hg := g.isWord_name.stops_isBlank []
  rw [List.append_nil] at hf hg
  obtain ⟨hgap, hname⟩ := run_unique h f.isGap.blank hf g.isGap.blank hg
  exact AttributeForm.ext hstart htype hgap hname

private theorem not_mem (f : AttributeForm) {c : Char} (hs : c ∉ Visibility.symbols) (hc : IsSeparator c) :
    c ∉ f.text := by
  simp [text, f.start.not_mem hs hc, f.isWord_typeName.not_mem hc.word, hc.not_mem_blanks f.isGap.blank,
    f.isWord_name.not_mem hc.word]

theorem no_parentheses (f : AttributeForm) : '(' ∉ f.text ∧ ')' ∉ f.text :=
  ⟨f.not_mem (by decide) isSeparator_openParenthesis, f.not_mem (by decide) isSeparator_closeParenthesis⟩

end AttributeForm

namespace MethodForm
variable {className : Text}

def typeText (f : MethodForm) : Text :=
  match f.type with
  | none => []
  | some (type, gap) => type ++ gap

def text (f : MethodForm) : Text :=
  f.start.text ++ (f.typeText ++ (f.name ++ '(' :: (f.parameters ++ [')'])))

def front (f : MethodForm) : Text := f.start.text ++ (f.typeText ++ f.name)

theorem text_eq (f : MethodForm) : f.text = f.front ++ '(' :: (f.parameters ++ [')']) := by simp [text, front]

private theorem not_mem_front (f : MethodForm) {c : Char} (hs : c ∉ Visibility.symbols) (hc : IsSeparator c) :
    c ∉ f.front := by
  have htype : c ∉ f.typeText := by
    unfold typeText
    split
    · simp
    · next type gap ht =>
      simp [(f.isWord_type _ ht).not_mem hc.word, hc.not_mem_blanks (f.isGap_type _ ht).blank]
  simp [front, f.start.not_mem hs hc, htype, f.isWord_name.not_mem hc.word]

theorem no_parentheses_front (f : MethodForm) : '(' ∉ f.front ∧ ')' ∉ f.front :=
  ⟨f.not_mem_front (by decide) isSeparator_openParenthesis, f.not_mem_front (by decide) isSeparator_closeParenthesis⟩

def returnType (className : Text) (f : MethodForm) : Text :=
  if f.name = className then [] else
    match f.type with
    | none => "void".toList
    | some (type, _) => type

def toMethod (className : Text) (f : MethodForm) : Method :=
  ⟨f.start.visibility, f.returnType className, f.name, f.parameters⟩

private theorem returnType_eq_nil_iff {f : MethodForm} : f.returnType className = [] ↔ f.name = className := by
  unfold returnType
  split
  · next he => exact iff_of_true rfl he
  · next he =>
    refine iff_of_false ?_ he
    split
    · decide
    · next type gap ht => exact (f.isWord_type _ ht).ne_nil

private theorem exists_word_append (f : MethodForm) : ∃ w t, IsWord w ∧
    f.typeText ++ (f.name ++ '(' :: (f.parameters ++ [')'])) = w ++ t := by
  unfold typeText
  split
  · exact ⟨f.name, _, f.isWord_name, rfl⟩
  · next type gap ht => exact ⟨type, _, f.isWord_type _ ht, List.append_assoc _ _ _⟩

private theorem run_signature (f : MethodForm) (t : Text) :
    Method.signature.run (f.typeText ++ (f.name ++ '(' :: t)) = some ((f.type.map Prod.fst, f.name), '(' :: t) := by
  unfold typeText
  split
  · next ht =>
    rw [ht]
    exact Method.run_signature_single f.isWord_name (by simp) (by simp)
  · next type gap ht =>
    rw [ht, List.append_assoc]
    exact Method.run_signature_pair (f.isWord_type _ ht) (f.isGap_type _ ht) f.isWord_name (by simp)

private theorem run_text (f : MethodForm) :
    (Method.grammar className).run f.text = some (f.toMethod className, []) := by
  obtain ⟨w, t, hw, ht⟩ := f.exists_word_append
  have hstart := f.start.run_text hw t
  rw [← ht] at hstart
  unfold Method.grammar
  rw [text, run_bind_of_eq_some hstart, run_bind_of_eq_some (f.run_signature _),
    run_bind_of_eq_some (Method.run_parameterList_eq_some_iff.mpr ⟨rfl, f.close_not_mem⟩), run_pure]
  have hmethod : (if f.name = className then Method.ofConstructor f.start.visibility f.name f.parameters
      else ⟨f.start.visibility, (f.type.map Prod.fst).getD "void".toList, f.name, f.parameters⟩) =
        f.toMethod className := by
    unfold toMethod returnType
    split
    · rfl
    · cases f.type <;> rfl
  exact congrArg (fun m => some (m, [])) hmethod

private theorem exists_of_run_signature {s ps : Text} {x : Option Text × Text} (start : MemberStart) (hps : ')' ∉ ps)
    (h : Method.signature.run s = some (x, '(' :: (ps ++ [')']))) : ∃ f : MethodForm, f.text = start.text ++ s := by
  simp only [Method.signature, run_orElse_eq_some_iff, run_bind_eq_some_iff, run_pure, Option.some.injEq,
    Prod.mk.injEq] at h
  rcases h with ⟨⟨u, w⟩, _, hpair, -, rfl⟩ | ⟨-, w, _, hw, -, rfl⟩
  · obtain ⟨b, rfl, hu, hb, hw, -⟩ := run_wordPair_eq_some_iff.mp hpair
    exact ⟨⟨start, some (u, b), w, ps, by simpa using hu, by simpa using hb, hw, hps⟩, by simp [text, typeText]⟩
  · obtain ⟨rfl, hw, -⟩ := run_word_eq_some_iff.mp hw
    exact ⟨⟨start, none, w, ps, by simp, by simp, hw, hps⟩, rfl⟩

private theorem exists_of_run {s : Text} {m : Method} (h : (Method.grammar className).run s = some (m, [])) :
    ∃ f : MethodForm, f.text = s ∧ f.toMethod className = m := by
  have hrun := h
  simp only [Method.grammar, run_bind_eq_some_iff, run_pure, Option.some.injEq, Prod.mk.injEq] at h
  obtain ⟨v, _, hv, x, _, hs, ps, _, hp, -, rfl⟩ := h
  obtain ⟨start, rfl, -⟩ := MemberStart.exists_of_run hv
  obtain ⟨rfl, hps⟩ := Method.run_parameterList_eq_some_iff.mp hp
  obtain ⟨f, hf⟩ := exists_of_run_signature start hps hs
  -- what the form says was read, since a text is read in one way
  refine ⟨f, hf, ?_⟩
  rw [← hf, f.run_text] at hrun
  simpa using hrun

/-- A signature is found in one way only where a parameter list follows it. -/
theorem signature_unique {f g : MethodForm} {t u : Text}
    (h : f.typeText ++ (f.name ++ '(' :: t) = g.typeText ++ (g.name ++ '(' :: u)) :
    f.type = g.type ∧ f.name = g.name ∧ t = u := by
  have hrun := f.run_signature t
  rw [h, g.run_signature u] at hrun
  obtain ⟨⟨htype, hname⟩, rfl⟩ : (g.type.map Prod.fst = f.type.map Prod.fst ∧ g.name = f.name) ∧ u = t := by
    simpa using hrun
  refine ⟨?_, hname.symm, rfl⟩
  rw [hname] at h
  have htext := List.append_cancel_right h
  unfold typeText at htext
  match hf : f.type, hg : g.type with
  | none, none => rfl
  | some (type, gap), some (type', gap') =>
    rw [hf, hg] at htext htype
    obtain rfl : type' = type := by simpa using htype
    rw [List.append_cancel_left htext]
  | none, some _ | some _, none => simp [hf, hg] at htype

private theorem unique {f g : MethodForm} (h : f.text = g.text) : f = g := by
  obtain ⟨w, t, hw, ht⟩ := f.exists_word_append
  obtain ⟨w', t', hw', ht'⟩ := g.exists_word_append
  rw [text, text, ht, ht'] at h
  obtain ⟨hstart, h⟩ := MemberStart.unique hw hw' h
  rw [← ht, ← ht'] at h
  obtain ⟨htype, hname, hlist⟩ := signature_unique h
  exact MethodForm.ext hstart htype hname (List.append_cancel_right hlist)

end MethodForm

namespace Member
variable {className line : Text}

theorem ofLine?_methodForm (f : MethodForm) : ofLine? className f.text = some (.ofMethod (f.toMethod className)) :=
  ofLine?_of_run_method f.run_text

theorem ofLine?_attributeForm (f : AttributeForm) : ofLine? className f.text = some (.ofAttribute f.toAttribute) := by
  have hmethod : (Method.grammar className).whole f.text = none := by
    rw [Option.eq_none_iff_forall_ne_some]
    intro m hm
    obtain ⟨-, -, -, -, -, hlist⟩ := Method.shape_of_run (whole_eq_some_iff.mp hm)
    exact f.no_parentheses.1 (hlist.subset List.mem_cons_self)
  rw [ofLine?, hmethod, whole_eq_some_iff.mpr f.run_text]
  rfl

theorem ofLine?_eq_method_iff {m : Method} : ofLine? className line = some (.ofMethod m) ↔
    ∃ f : MethodForm, f.text = line ∧ f.toMethod className = m := by
  constructor
  · intro h
    exact MethodForm.exists_of_run (run_of_ofLine?_method h)
  · rintro ⟨f, rfl, rfl⟩
    exact ofLine?_methodForm f

theorem ofLine?_eq_attribute_iff {a : Attribute} : ofLine? className line = some (.ofAttribute a) ↔
    ∃ f : AttributeForm, f.text = line ∧ f.toAttribute = a := by
  constructor
  · intro h
    exact AttributeForm.exists_of_run (run_of_ofLine?_attribute h)
  · rintro ⟨f, rfl, rfl⟩
    exact ofLine?_attributeForm f

theorem ofLine?_eq_none_iff : ofLine? className line = none ↔
    (¬ ∃ f : MethodForm, f.text = line) ∧ ¬ ∃ f : AttributeForm, f.text = line := by
  constructor
  · intro h
    constructor
    · rintro ⟨f, rfl⟩
      rw [ofLine?_methodForm] at h
      cases h
    · rintro ⟨f, rfl⟩
      rw [ofLine?_attributeForm] at h
      cases h
  · rintro ⟨hmethod, hattribute⟩
    rw [Option.eq_none_iff_forall_ne_some]
    rintro (a | m) h
    · obtain ⟨f, hf, -⟩ := ofLine?_eq_attribute_iff.mp h
      exact hattribute ⟨f, hf⟩
    · obtain ⟨f, hf, -⟩ := ofLine?_eq_method_iff.mp h
      exact hmethod ⟨f, hf⟩

end Member

/-- A line is a method if it has the form of one, an attribute if it has the form of one, and otherwise
nothing. It has at most one of the forms, in one way only. The member is made of the parts of the form,
except that a method which bears the name of the class has no type. -/
theorem member_lines_classified_exactly (className line : Text) :
    (∀ m, Member.ofLine? className line = some (.ofMethod m) ↔
      ∃ f : MethodForm, f.text = line ∧ f.toMethod className = m) ∧
    (∀ a, Member.ofLine? className line = some (.ofAttribute a) ↔
      ∃ f : AttributeForm, f.text = line ∧ f.toAttribute = a) ∧
    (Member.ofLine? className line = none ↔
      (¬ ∃ f : MethodForm, f.text = line) ∧ ¬ ∃ f : AttributeForm, f.text = line) ∧
    (∀ f g : MethodForm, f.text = line → g.text = line → f = g) ∧
    (∀ f g : AttributeForm, f.text = line → g.text = line → f = g) ∧
    (∀ (f : MethodForm) (g : AttributeForm), ¬ (f.text = line ∧ g.text = line)) ∧
    ∀ f : MethodForm, (f.toMethod className).returnType = [] ↔ f.name = className := by
  refine ⟨fun m => Member.ofLine?_eq_method_iff, fun a => Member.ofLine?_eq_attribute_iff, Member.ofLine?_eq_none_iff,
    fun f g hf hg => MethodForm.unique (hf.trans hg.symm), fun f g hf hg => AttributeForm.unique (hf.trans hg.symm), ?_,
    fun f => MethodForm.returnType_eq_nil_iff⟩
  rintro f g ⟨rfl, hg⟩
  -- both readings of the line would be right
  have hline : Member.ofLine? className f.text = _ := Member.ofLine?_methodForm f
  rw [← hg, Member.ofLine?_attributeForm] at hline
  cases hline

/-- A typed constructor with a parenthesis and a symbol among its parameters can be taken in this way only. -/
theorem member_lines_classified_exactly_constructor :
    let line := "-Box\tBox((int, +n)".toList
    Member.ofLine? "Box".toList line = some (.ofMethod ⟨.priv, [], "Box".toList, "(int, +n".toList⟩) ∧
    (∃ f : MethodForm, f.text = line ∧ f.type = some ("Box".toList, ['\t']) ∧
      ∀ g : MethodForm, g.text = line → g = f) ∧
    ∀ g : AttributeForm, g.text ≠ line := by
  intro line
  obtain ⟨hmethod, -, -, hunique, -, hdisjoint, -⟩ := member_lines_classified_exactly "Box".toList line
  have hgap : IsGap ['\t'] := ⟨by simp, List.all_eq_true.mp (by decide)⟩
  let f : MethodForm :=
    { start := ⟨some '-', [], by simp [Visibility.symbols], by simp⟩
      type := some ("Box".toList, ['\t'])
      name := "Box".toList
      parameters := "(int, +n".toList
      isWord_type := by simp; decide
      isGap_type := by simpa using hgap
      isWord_name := by decide
      close_not_mem := by decide }
  have hf : f.text = line := rfl
  exact ⟨(hmethod _).mpr ⟨f, hf, rfl⟩, ⟨f, hf, rfl, fun g hg => hunique g f hg hf⟩, fun g hg => hdisjoint f g ⟨hf, hg⟩⟩

end ClassNotation
