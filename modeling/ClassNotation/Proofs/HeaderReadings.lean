import ClassNotation.Header
import ClassNotation.Proofs.Scanning

/-! What class headers, enum headers and abstract marks look like where they are read, and that they
are read back where they are written so. Before its opening brace a header has words and blanks only. -/
namespace ClassNotation
open Grammar

theorem isWord_class : IsWord "class".toList := by decide
theorem isWord_enum : IsWord "enum".toList := by decide
theorem isWord_abstract : IsWord "abstract".toList := by decide
theorem isWord_extends : IsWord "extends".toList := by decide

theorem run_bracedBody_eq_some_iff {s body r : Text} :
    bracedBody.run s = some (body, r) ↔ s = '\x7b' :: (body ++ '\x7d' :: r) ∧ '\x7d' ∉ body :=
  run_between_eq_some_iff

/-- A grammar whose readings pass an opening brace before any closing one. -/
def OpensFirst {α : Type} (g : Grammar α) : Prop :=
  ∀ s a r, g.run s = some (a, r) → ∃ front back, s = front ++ '\x7b' :: back ∧ '\x7d' ∉ front

namespace OpensFirst
variable {α : Type} {g : Grammar α}

private theorem run_eq_none (hg : OpensFirst g) {s : Text} (hs : '\x7b' ∉ s) : g.run s = none := by
  rw [Option.eq_none_iff_forall_ne_some]
  rintro ⟨a, r⟩ hr
  obtain ⟨front, back, rfl, -⟩ := hg _ _ _ hr
  simp at hs

private theorem run_append_eq_none (hg : OpensFirst g) {u : Text} (hu : '\x7b' ∉ u) (t : Text) :
    g.run (u ++ '\x7d' :: t) = none := by
  rw [Option.eq_none_iff_forall_ne_some]
  rintro ⟨a, r⟩ hr
  obtain ⟨front, back, he, hf⟩ := hg _ _ _ hr
  obtain ⟨v, rfl, hv⟩ := append_eq_append_cons he hf
  cases v with
  | nil => simp at hv
  | cons c v =>
    obtain ⟨rfl, -⟩ := List.cons.inj hv
    simp at hu

/-- Text without an opening brace, up to a closing one, is passed over. -/
theorem scan_append (hg : OpensFirst g) {x : Text} (hx : '\x7b' ∉ x) (t : Text) :
    g.scan (x ++ '\x7d' :: t) = g.scan ('\x7d' :: t) := by
  apply scan_append_of_run_eq_none
  intro u hu _
  exact hg.run_append_eq_none (fun hm => hx (hu.subset hm)) t

theorem scan_eq_nil (hg : OpensFirst g) {s : Text} (hs : '\x7b' ∉ s) : g.scan s = [] := by
  rw [← List.append_nil s, scan_append_of_run_eq_none, scan_nil]
  intro u hu _
  rw [List.append_nil]
  exact hg.run_eq_none fun hm => hs (hu.subset hm)

end OpensFirst

/-- Words and blanks, the only text before the opening brace of a header. -/
def IsFront (t : Text) : Prop := ∀ c ∈ t, isWordChar c = true ∨ isBlank c = true

theorem IsFront.not_mem {t : Text} (h : IsFront t) : '\x7d' ∉ t := by
  intro hm
  rcases h _ hm with hc | hc <;> revert hc <;> decide

theorem IsFront.append {t u : Text} (ht : IsFront t) (hu : IsFront u) : IsFront (t ++ u) := by
  intro c hc
  rcases List.mem_append.mp hc with hc | hc
  · exact ht c hc
  · exact hu c hc

theorem IsWord.isFront {w : Text} (hw : IsWord w) : IsFront w := fun c hc => Or.inl (hw.chars c hc)

theorem isFront_of_blanks {b : Text} (hb : ∀ c ∈ b, isBlank c = true) : IsFront b :=
  fun c hc => Or.inr (hb c hc)

/-- A parent as it stands behind the name of a class: a clause of its own, or nothing. -/
def ParentText (clause : Text) : Option Text → Prop
  | none => clause = []
  | some p => ∃ b b', clause = b ++ ("extends".toList ++ (b' ++ p)) ∧
      IsGap b ∧ IsGap b' ∧ IsWord p

private theorem ParentText.isFront {clause : Text} {parent : Option Text} (h : ParentText clause parent) :
    IsFront clause := by
  cases parent with
  | none =>
    subst h
    simp [IsFront]
  | some p =>
    obtain ⟨b, b', rfl, hb, hb', hp⟩ := h
    exact (isFront_of_blanks hb.blank).append
      (isWord_extends.isFront.append ((isFront_of_blanks hb'.blank).append hp.isFront))

theorem ParentText.isWord {clause : Text} {parent : Option Text} (h : ParentText clause parent) :
    ∀ p ∈ parent, IsWord p := by
  intro p hp
  cases hp
  obtain ⟨_, _, _, _, _, hw⟩ := h
  exact hw

private theorem run_parentClause_eq_some_iff {s p r : Text} :
    parentClause.run s = some (p, r) ↔
      ∃ clause, s = clause ++ r ∧ ParentText clause (some p) ∧ Stops isWordChar r := by
  simp only [parentClause, run_bind_eq_some_iff, run_literal_eq_some_iff, run_blanks1_eq_some_iff,
    run_word_eq_some_iff]
  constructor
  · rintro ⟨b, _, ⟨rfl, hb, -⟩, _, _, ⟨-, rfl⟩, b', _, ⟨rfl, hb', -⟩, rfl, hp, hr⟩
    exact ⟨b ++ ("extends".toList ++ (b' ++ p)), by simp, ⟨b, b', rfl, hb, hb', hp⟩, hr⟩
  · rintro ⟨_, rfl, ⟨b, b', rfl, hb, hb', hp⟩, hr⟩
    exact ⟨b, "extends".toList ++ (b' ++ (p ++ r)), ⟨by simp, hb, isWord_extends.stops_isBlank _⟩,
      _, _, ⟨rfl, rfl⟩, b', p ++ r, ⟨rfl, hb', hp.stops_isBlank _⟩, rfl, hp, hr⟩

private theorem run_parentClause_of_brace {b t : Text} (hb : ∀ c ∈ b, isBlank c = true) :
    parentClause.run (b ++ '\x7b' :: t) = none := by
  rw [Option.eq_none_iff_forall_ne_some]
  rintro ⟨p, r⟩ hr
  obtain ⟨_, he, ⟨b₁, b₂, rfl, hb₁, -⟩, -⟩ := run_parentClause_eq_some_iff.mp hr
  simp only [List.append_assoc] at he
  have hu := run_unique he hb (stops_cons.mpr (by decide)) hb₁.blank (isWord_extends.stops_isBlank _)
  simp at hu

theorem stops_isWordChar_of_brace {b t : Text} (hb : ∀ c ∈ b, isBlank c = true) :
    Stops isWordChar (b ++ '\x7b' :: t) := by
  by_cases he : b = []
  · subst he
    exact stops_cons.mpr (by decide)
  · exact IsGap.stops_isWordChar ⟨he, hb⟩ _

theorem ParentText.stops_isWordChar {clause b t : Text} {parent : Option Text}
    (h : ParentText clause parent) (hb : ∀ c ∈ b, isBlank c = true) :
    Stops isWordChar (clause ++ (b ++ '\x7b' :: t)) := by
  cases parent with
  | none =>
    subst h
    exact stops_isWordChar_of_brace hb
  | some p =>
    obtain ⟨b₁, b₂, rfl, hb₁, -⟩ := h
    rw [List.append_assoc]
    exact hb₁.stops_isWordChar _

private theorem ParentText.run_optional {clause b t : Text} {parent : Option Text}
    (h : ParentText clause parent) (hb : ∀ c ∈ b, isBlank c = true) :
    parentClause.optional.run (clause ++ (b ++ '\x7b' :: t)) = some (parent, b ++ '\x7b' :: t) := by
  apply run_optional_eq_some_iff.mpr
  cases parent with
  | none =>
    subst h
    exact Or.inr ⟨rfl, run_parentClause_of_brace hb, rfl⟩
  | some p =>
    exact Or.inl ⟨p, rfl, run_parentClause_eq_some_iff.mpr ⟨clause, rfl, h, stops_isWordChar_of_brace hb⟩⟩

/-- What a class header is: the keyword, a name, perhaps a parent, and a body in braces. -/
theorem ClassHeader.run_eq_some_iff {s r : Text} {h : ClassHeader} :
    ClassHeader.grammar.run s = some (h, r) ↔
      ∃ b clause b', s = "class".toList ++ (b ++ (h.name ++ (clause ++ (b' ++ '\x7b' :: (h.body ++ '\x7d' :: r))))) ∧
        IsGap b ∧ IsWord h.name ∧ ParentText clause h.parent ∧
        (∀ c ∈ b', isBlank c = true) ∧ '\x7d' ∉ h.body := by
  simp only [ClassHeader.grammar, run_bind_eq_some_iff, run_literal_eq_some_iff, run_blanks1_eq_some_iff,
    run_word_eq_some_iff, run_bracedBody_eq_some_iff, run_pure, Option.some.injEq, Prod.mk.injEq]
  constructor
  · rintro ⟨_, _, ⟨-, rfl⟩, b, _, ⟨rfl, hb, -⟩, n, _, ⟨rfl, hn, -⟩, p, _, hp, b', _, hb', body, _, ⟨rfl, hclose⟩,
      rfl, rfl⟩
    obtain ⟨rfl, hblank, -⟩ := run_run0_eq_some_iff.mp hb'
    rcases run_optional_eq_some_iff.mp hp with ⟨q, rfl, hq⟩ | ⟨rfl, -, rfl⟩
    · obtain ⟨clause, rfl, hclause, -⟩ := run_parentClause_eq_some_iff.mp hq
      exact ⟨b, clause, b', rfl, hb, hn, hclause, hblank, hclose⟩
    · exact ⟨b, [], b', rfl, hb, hn, rfl, hblank, hclose⟩
  · obtain ⟨n, parent, body⟩ := h
    rintro ⟨b, clause, b', rfl, hb, hn, hclause, hb', hclose⟩
    exact ⟨_, _, ⟨rfl, rfl⟩, b, _, ⟨rfl, hb, hn.stops_isBlank _⟩, n, _, ⟨rfl, hn, hclause.stops_isWordChar hb'⟩,
      parent, _, hclause.run_optional hb', b', _, run_run0_eq_some_iff.mpr ⟨rfl, hb', stops_cons.mpr (by decide)⟩,
      body, r, ⟨rfl, hclose⟩, rfl, rfl⟩

/-- What an enum header is: the keyword, a name, and a body in braces. -/
theorem EnumHeader.run_eq_some_iff {s r : Text} {h : EnumHeader} :
    EnumHeader.grammar.run s = some (h, r) ↔
      ∃ b b', s = "enum".toList ++ (b ++ (h.name ++ (b' ++ '\x7b' :: (h.body ++ '\x7d' :: r)))) ∧
        IsGap b ∧ IsWord h.name ∧
        (∀ c ∈ b', isBlank c = true) ∧ '\x7d' ∉ h.body := by
  simp only [EnumHeader.grammar, run_bind_eq_some_iff, run_literal_eq_some_iff, run_blanks1_eq_some_iff,
    run_word_eq_some_iff, run_bracedBody_eq_some_iff, run_pure, Option.some.injEq, Prod.mk.injEq]
  constructor
  · rintro ⟨_, _, ⟨-, rfl⟩, b, _, ⟨rfl, hb, -⟩, n, _, ⟨rfl, hn, -⟩, b', _, hb', body, _, ⟨rfl, hclose⟩, rfl, rfl⟩
    obtain ⟨rfl, hblank, -⟩ := run_run0_eq_some_iff.mp hb'
    exact ⟨b, b', rfl, hb, hn, hblank, hclose⟩
  · obtain ⟨n, body⟩ := h
    rintro ⟨b, b', rfl, hb, hn, hb', hclose⟩
    exact ⟨_, _, ⟨rfl, rfl⟩, b, _, ⟨rfl, hb, hn.stops_isBlank _⟩, n, _, ⟨rfl, hn, stops_isWordChar_of_brace hb'⟩,
      b', _, run_run0_eq_some_iff.mpr ⟨rfl, hb', stops_cons.mpr (by decide)⟩, body, r, ⟨rfl, hclose⟩, rfl, rfl⟩

def ClassHeader.afterKeyword : Grammar ClassHeader := do
  let name ← word
  let parent ← parentClause.optional
  let _ ← blanks
  let body ← bracedBody
  return ⟨name, parent, body⟩

theorem ClassHeader.keyworded :
    Keyworded ClassHeader.grammar "class".toList ClassHeader.afterKeyword := ⟨isWord_class, rfl⟩

def EnumHeader.afterKeyword : Grammar EnumHeader := do
  let name ← word
  let _ ← blanks
  let body ← bracedBody
  return ⟨name, body⟩

theorem EnumHeader.keyworded :
    Keyworded EnumHeader.grammar "enum".toList EnumHeader.afterKeyword := ⟨isWord_enum, rfl⟩

/-- A name that another word follows does not head an enum. -/
theorem EnumHeader.run_afterKeyword_of_word {n w b t : Text} (hn : IsWord n) (hw : IsWord w)
    (hb : IsGap b) : EnumHeader.afterKeyword.run (n ++ (b ++ (w ++ t))) = none := by
  have hbody : bracedBody.run (w ++ t) = none := by
    rw [Option.eq_none_iff_forall_ne_some]
    rintro ⟨body, r⟩ hr
    obtain ⟨he, -⟩ := run_bracedBody_eq_some_iff.mp hr
    obtain ⟨c, w, rfl⟩ := List.exists_cons_of_ne_nil hw.ne_nil
    obtain ⟨rfl, -⟩ := List.cons.inj he
    exact absurd (hw.chars _ List.mem_cons_self) (by decide)
  have hblanks : blanks.run (b ++ (w ++ t)) = some (b, w ++ t) :=
    run_run0_eq_some_iff.mpr ⟨rfl, hb.blank, hw.stops_isBlank t⟩
  unfold EnumHeader.afterKeyword
  rw [run_bind_of_eq_some (run_word_append hn (hb.stops_isWordChar _)),
    run_bind_of_eq_some hblanks, run_bind_of_eq_none hbody]

def markedName : Grammar Text := do
  let _ ← literal "class".toList
  let _ ← blanks1
  word

theorem keyworded_abstractMark : Keyworded abstractMark "abstract".toList markedName :=
  ⟨isWord_abstract, rfl⟩

theorem keyworded_markedName : Keyworded markedName "class".toList word := ⟨isWord_class, rfl⟩

/-- A grammar whose readings consist of words and blanks, an opening brace, a body up to the first
closing brace, and that brace. What follows the brace has no part in the reading. -/
def Braced {α : Type} (g : Grammar α) (body : α → Text) : Prop :=
  ∀ s a r, g.run s = some (a, r) →
    ∃ front, s = front ++ '\x7b' :: (body a ++ '\x7d' :: r) ∧ IsFront front ∧ '\x7d' ∉ body a ∧
      ∀ t, g.run (front ++ '\x7b' :: (body a ++ '\x7d' :: t)) = some (a, t)

private theorem Braced.opensFirst {α : Type} {g : Grammar α} {body : α → Text} (hg : Braced g body) : OpensFirst g := by
  intro s a r hr
  obtain ⟨front, rfl, hfront, -, -⟩ := hg s a r hr
  exact ⟨front, _, rfl, hfront.not_mem⟩

theorem Braced.length_lt {α : Type} {g : Grammar α} {body : α → Text} (hg : Braced g body) {s r : Text} {a : α}
    (h : g.run s = some (a, r)) : r.length < s.length := by
  obtain ⟨front, rfl, -, -, -⟩ := hg s a r h
  simp only [List.length_append, List.length_cons]
  omega

/-- A header does not start where something else than words and blanks comes before the next brace. -/
theorem Braced.passes {α : Type} {g : Grammar α} {body : α → Text} (hg : Braced g body) {x : Text} {c : Char}
    (hx : '\x7b' ∉ x) (hc : IsSeparator c) (hne : c ≠ '\x7b') : g.Passes (x ++ [c]) := by
  intro u hu hu' t
  rcases List.suffix_concat_iff.mp hu with rfl | ⟨v, rfl, hv⟩
  · exact absurd rfl hu'
  · rw [Option.eq_none_iff_forall_ne_some]
    rintro ⟨a, r⟩ hr
    obtain ⟨front, he, hfront, -, -⟩ := hg _ a r hr
    have hcut : v ++ c :: t = (front ++ ['\x7b']) ++ (body a ++ '\x7d' :: r) := by simpa using he
    have hopen : c ∉ front ++ ['\x7b'] := by
      intro hm
      rcases List.mem_append.mp hm with hm | hm
      · rcases hfront c hm with hw | hb
        · exact absurd hw (by simp [hc.word])
        · exact absurd hb (by simp [hc.blank])
      · exact hne (List.mem_singleton.mp hm)
    obtain ⟨w, rfl, -⟩ := append_eq_append_cons hcut hopen
    exact hx (hv.subset (by simp))

/-- What a header scan finds stands in the document, with its braces. -/
theorem Braced.infix_of_mem_scan {α : Type} {g : Grammar α} {body : α → Text} (hg : Braced g body) {document : Text}
    {a : α} (h : a ∈ g.scan document) : '\x7b' :: (body a ++ ['\x7d']) <:+: document := by
  obtain ⟨s, r, hr, hs⟩ := exists_run_of_mem_scan h
  obtain ⟨front, rfl, -, -, -⟩ := hg s a r hr
  exact List.IsInfix.trans ⟨front, r, by simp⟩ hs.isInfix

theorem ClassHeader.braced : Braced ClassHeader.grammar ClassHeader.body := by
  intro s h r hr
  obtain ⟨b, clause, b', rfl, hb, hname, hclause, hb', hbody⟩ := ClassHeader.run_eq_some_iff.mp hr
  refine ⟨"class".toList ++ (b ++ (h.name ++ (clause ++ b'))), by simp, ?_, hbody, fun t => ?_⟩
  · exact isWord_class.isFront.append ((isFront_of_blanks hb.blank).append (hname.isFront.append
      (hclause.isFront.append (isFront_of_blanks hb'))))
  · exact ClassHeader.run_eq_some_iff.mpr ⟨b, clause, b', by simp, hb, hname, hclause, hb', hbody⟩

theorem EnumHeader.braced : Braced EnumHeader.grammar EnumHeader.body := by
  intro s h r hr
  obtain ⟨b, b', rfl, hb, hname, hb', hbody⟩ := EnumHeader.run_eq_some_iff.mp hr
  refine ⟨"enum".toList ++ (b ++ (h.name ++ b')), by simp, ?_, hbody, fun t => ?_⟩
  · exact isWord_enum.isFront.append ((isFront_of_blanks hb.blank).append (hname.isFront.append
      (isFront_of_blanks hb')))
  · exact EnumHeader.run_eq_some_iff.mpr ⟨b, b', by simp, hb, hname, hb', hbody⟩

theorem ClassHeader.opensFirst : OpensFirst ClassHeader.grammar := ClassHeader.braced.opensFirst

theorem EnumHeader.opensFirst : OpensFirst EnumHeader.grammar := EnumHeader.braced.opensFirst

end ClassNotation
