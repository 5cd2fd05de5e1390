import ClassNotation.Proofs.HeaderReadings
import ClassNotation.Proofs.RelationLinks
import ClassNotation.Proofs.RelationReadings

/-! Documents one behind the other. A semicolon belongs to no header, mark or relation, so what stands
before it is read as if the text ended there, unless an open brace lets a body run on. -/
namespace ClassNotation

/-- Every opening brace has a closing one somewhere behind it. Nesting does not matter. -/
def BracesClosed (t : Text) : Prop := ∀ u, '\x7b' :: u <:+ t → '\x7d' ∈ u

namespace BracesClosed

@[simp] theorem nil : BracesClosed [] := fun u hu => by simp at hu

@[simp] theorem cons_iff {c : Char} {t : Text} :
    BracesClosed (c :: t) ↔ (c = '\x7b' → '\x7d' ∈ t) ∧ BracesClosed t := by
  constructor
  · intro h
    refine ⟨?_, fun u hu => h u (hu.trans (List.suffix_cons c t))⟩
    rintro rfl
    exact h t List.suffix_rfl
  · rintro ⟨hc, ht⟩ u hu
    rcases List.suffix_cons_iff.mp hu with he | hu
    · obtain ⟨rfl, rfl⟩ := List.cons.inj he
      exact hc rfl
    · exact ht u hu

instance decidable : (t : Text) → Decidable (BracesClosed t)
  | [] => isTrue nil
  | _ :: t =>
    have := decidable t
    decidable_of_iff _ cons_iff.symm

theorem of_not_mem {t : Text} (h : '\x7b' ∉ t) : BracesClosed t :=
  fun _ hu => absurd (hu.subset List.mem_cons_self) h

end BracesClosed

namespace Grammar
variable {α β : Type} {c : Char} {x : Text}

/-- In `x` the mark `c` is to the grammar what the end of the text is: each end piece of `x` is read
in front of the mark as it is read alone, and the reading does not reach the mark. -/
def EndsAt (g : Grammar α) (c : Char) (x : Text) : Prop :=
  ∀ u, u <:+ x → ∀ t, g.run (u ++ c :: t) = (g.run u).map fun out => (out.1, out.2 ++ c :: t)

private theorem endsAt_pure (a : α) : (pure a : Grammar α).EndsAt c x := fun _ _ _ => rfl

private theorem EndsAt.bind {g : Grammar α} {next : α → Grammar β} (hg : g.EndsAt c x)
    (hnext : ∀ a, (next a).EndsAt c x) : (g >>= next).EndsAt c x := by
  intro u hu t
  have hgu := hg u hu t
  cases h : g.run u with
  | none =>
    rw [h] at hgu
    rw [run_bind_of_eq_none hgu, run_bind_of_eq_none h]
    rfl
  | some out =>
    obtain ⟨a, r⟩ := out
    rw [h] at hgu
    rw [run_bind_of_eq_some hgu, run_bind_of_eq_some h]
    exact hnext a r ((g.rest_suffix h).trans hu) t

private theorem EndsAt.orElse {g other : Grammar α} (hg : g.EndsAt c x) (hother : other.EndsAt c x) :
    (g <|> other).EndsAt c x := by
  intro u hu t
  have hrun (s : Text) : (g <|> other).run s = (g.run s).orElse fun _ => other.run s := by
    change (Grammar.orElse g fun _ => other).run s = _
    cases h : g.run s <;> simp [Grammar.orElse, h]
  rw [hrun, hrun, hg u hu t, hother u hu t]
  cases g.run u <;> rfl

private theorem EndsAt.optional {g : Grammar α} (hg : g.EndsAt c x) : g.optional.EndsAt c x :=
  (hg.bind fun a => endsAt_pure (some a)).orElse (endsAt_pure none)

private theorem endsAt_literal {k : Text} (hk : c ∉ k) : (literal k).EndsAt c x := by
  intro u _ t
  cases h : (literal k).run u with
  | some out =>
    obtain ⟨a, r⟩ := out
    obtain ⟨rfl, rfl⟩ := run_literal_eq_some_iff.mp h
    exact run_literal_eq_some_iff.mpr ⟨rfl, List.append_assoc _ _ _⟩
  | none =>
    rw [Option.map_none, Option.eq_none_iff_forall_ne_some]
    rintro ⟨a, r⟩ hr
    obtain ⟨rfl, he⟩ := run_literal_eq_some_iff.mp hr
    obtain ⟨v, rfl, -⟩ := append_eq_append_cons he hk
    rw [run_literal_eq_some_iff.mpr ⟨rfl, rfl⟩] at h
    cases h

private theorem endsAt_oneOf {value? : Char → Option α} (hc : value? c = none) : (oneOf value?).EndsAt c x := by
  intro u _ t
  cases u with
  | nil =>
    change (value? c).map (·, t) = none
    rw [hc, Option.map_none]
  | cons d u =>
    change (value? d).map (·, u ++ c :: t) = ((value? d).map (·, u)).map _
    cases value? d <;> rfl

private theorem takeWhile_append_mark {p : Char → Bool} (hc : p c = false) (u t : Text) :
    (u ++ c :: t).takeWhile p = u.takeWhile p ∧ (u ++ c :: t).dropWhile p = u.dropWhile p ++ c :: t := by
  induction u with
  | nil => simp [hc]
  | cons d u ih => by_cases hd : p d = true <;> simp [hd, ih]

private theorem endsAt_run0 {p : Char → Bool} (hc : p c = false) : (run0 p).EndsAt c x := by
  intro u _ t
  obtain ⟨htake, hdrop⟩ := takeWhile_append_mark hc u t
  simp only [run0, htake, hdrop, Option.map_some]

private theorem endsAt_run1 {p : Char → Bool} (hc : p c = false) : (run1 p).EndsAt c x := by
  intro u _ t
  obtain ⟨htake, hdrop⟩ := takeWhile_append_mark hc u t
  simp only [run1, htake, hdrop]
  split <;> rfl

/-- A scan comes to the mark as to the end of the text, and starts anew there. -/
theorem EndsAt.scan_append {g : Grammar α} (h : g.EndsAt c x) (t : Text) :
    g.scan (x ++ c :: t) = g.scan x ++ g.scan (c :: t) :=
  scan_append_of_run_eq_map fun u hu => h u hu t

end Grammar

open Grammar

private theorem isWordChar_semicolon : isWordChar ';' = false := by decide
private theorem isBlank_semicolon : isBlank ';' = false := by decide
private theorem isPadding_semicolon : isPadding ';' = false := by decide

/-- A body may hold the mark, but where it is closed it ends before the mark behind the text. -/
theorem endsAt_bracedBody {c : Char} {x : Text} (hc : c ≠ '\x7b') (hx : BracesClosed x) :
    bracedBody.EndsAt c x := by
  intro u hu t
  have hnone (s : Text) (hs : s.head? ≠ some '\x7b') : bracedBody.run s = none := by
    rw [Option.eq_none_iff_forall_ne_some]
    rintro ⟨body, r⟩ hr
    obtain ⟨rfl, -⟩ := run_bracedBody_eq_some_iff.mp hr
    exact hs rfl
  cases u with
  | nil => rw [hnone _ (by simpa using hc), hnone [] (by simp), Option.map_none]
  | cons d v =>
    by_cases hd : d = '\x7b'
    · subst hd
      obtain ⟨body, r, rfl, hbody⟩ := List.eq_append_cons_of_mem (hx v hu)
      rw [run_bracedBody_eq_some_iff.mpr ⟨rfl, hbody⟩]
      exact run_bracedBody_eq_some_iff.mpr ⟨by simp, hbody⟩
    · rw [hnone _ (by simpa using hd), hnone _ (by simpa using hd), Option.map_none]

private theorem ClassHeader.endsAt_semicolon {x : Text} (hx : BracesClosed x) : ClassHeader.grammar.EndsAt ';' x := by
  have hparent : parentClause.EndsAt ';' x :=
    (endsAt_run1 isBlank_semicolon).bind fun _ => (endsAt_literal (by decide)).bind fun _ =>
      (endsAt_run1 isBlank_semicolon).bind fun _ => endsAt_run1 isWordChar_semicolon
  exact (endsAt_literal (by decide)).bind fun _ => (endsAt_run1 isBlank_semicolon).bind fun _ =>
    (endsAt_run1 isWordChar_semicolon).bind fun _ => hparent.optional.bind fun _ =>
      (endsAt_run0 isBlank_semicolon).bind fun _ => (endsAt_bracedBody (by decide) hx).bind fun _ => endsAt_pure _

private theorem EnumHeader.endsAt_semicolon {x : Text} (hx : BracesClosed x) : EnumHeader.grammar.EndsAt ';' x :=
  (endsAt_literal (by decide)).bind fun _ => (endsAt_run1 isBlank_semicolon).bind fun _ =>
    (endsAt_run1 isWordChar_semicolon).bind fun _ => (endsAt_run0 isBlank_semicolon).bind fun _ =>
      (endsAt_bracedBody (by decide) hx).bind fun _ => endsAt_pure _

theorem IsSeparator.endsAt_abstractMark {c : Char} (hc : IsSeparator c) (x : Text) : abstractMark.EndsAt c x := by
  have hkeyword {k : Text} (hk : IsWord k) : c ∉ k := hk.not_mem hc.word
  exact (endsAt_literal (hkeyword isWord_abstract)).bind fun _ => (endsAt_run1 hc.blank).bind fun _ =>
    (endsAt_literal (hkeyword isWord_class)).bind fun _ => (endsAt_run1 hc.blank).bind fun _ => endsAt_run1 hc.word

private theorem Relation.endsAt_semicolon (x : Text) : Relation.grammar.EndsAt ';' x := by
  have hpadding : padding.EndsAt ';' x := endsAt_run0 isPadding_semicolon
  have hword : word.EndsAt ';' x := endsAt_run1 isWordChar_semicolon
  have hcardinality : Cardinality.grammar.EndsAt ';' x := endsAt_oneOf rfl
  have hexactly (a : Arrow) : (Arrow.exactly a).EndsAt ';' x :=
    (endsAt_literal (by cases a <;> decide)).bind fun _ => endsAt_pure a
  have harrow : Arrow.grammar.EndsAt ';' x := (hexactly _).orElse ((hexactly _).orElse (hexactly _))
  have hright : rightEnd.EndsAt ';' x :=
    (hpadding.bind fun _ => hcardinality.bind fun _ => hpadding.bind fun _ => hword.bind fun _ => endsAt_pure _).orElse
      (hpadding.bind fun _ => hword.bind fun _ => endsAt_pure _)
  exact hword.bind fun _ => hpadding.bind fun _ => hcardinality.optional.bind fun _ => hpadding.bind fun _ =>
    harrow.bind fun _ => hright.bind fun _ => endsAt_pure _

namespace Outline

def append (o p : Outline) : Outline :=
  ⟨o.classes ++ p.classes, o.enums ++ p.enums, o.abstractMarks ++ p.abstractMarks, o.relations ++ p.relations⟩

instance : Append Outline := ⟨append⟩

/-- Each scan of two documents with a semicolon between them is the scan of the one and then that of
the other. -/
theorem ofText_append {d : Text} (hd : BracesClosed d) (e : Text) :
    ofText (d ++ ';' :: e) = ofText d ++ ofText e := by
  have hscan {α : Type} {g : Grammar α} (hled : WordLed g) (hg : g.EndsAt ';' d) :
      g.scan (d ++ ';' :: e) = g.scan d ++ g.scan e := by
    rw [hg.scan_append, hled.scan_cons isWordChar_semicolon]
  change Outline.mk _ _ _ _ = Outline.mk _ _ _ _
  rw [hscan ClassHeader.keyworded.wordLed (ClassHeader.endsAt_semicolon hd),
    hscan EnumHeader.keyworded.wordLed (EnumHeader.endsAt_semicolon hd),
    hscan keyworded_abstractMark.wordLed (isSeparator_semicolon.endsAt_abstractMark d),
    hscan Relation.wordLed (Relation.endsAt_semicolon d)]
  rfl

/-- No relation and no mark of `o` names a class that `p` declares. -/
def LeavesAlone (o p : Outline) : Prop :=
  ∀ h ∈ p.classes, (∀ r ∈ o.relations, h.name ∉ r.ends) ∧ h.name ∉ o.abstractMarks

instance (o p : Outline) : Decidable (o.LeavesAlone p) :=
  inferInstanceAs (Decidable (∀ h ∈ p.classes, (∀ r ∈ o.relations, h.name ∉ r.ends) ∧ h.name ∉ o.abstractMarks))

end Outline

private theorem Relation.linksOf_eq_nil {r : Relation} {name : Text} (h : name ∉ r.ends) : r.linksOf name = [] := by
  simp only [ends, List.mem_cons, List.not_mem_nil, or_false, not_or] at h
  unfold linksOf
  split <;> simp [Ne.symm h.1, Ne.symm h.2]

namespace Outline
variable {o p : Outline} {h : ClassHeader}

theorem links_append (o p : Outline) (name : Text) :
    (o ++ p).links.of name = o.links.of name ++ p.links.of name := by
  change (Links.ofRelations (o.relations ++ p.relations)).of name = _
  simp only [links, Links.of_ofRelations, List.flatMap_append]

/-- An outline that leaves the class alone changes neither its links nor its mark. -/
theorem LeavesAlone.links_of (ho : o.LeavesAlone p) (hh : h ∈ p.classes) : o.links.of h.name = [] := by
  rw [links, Links.of_ofRelations, List.flatMap_eq_nil_iff]
  intro r hr
  exact Relation.linksOf_eq_nil ((ho h hh).1 r hr)

private theorem classDecl_append_left (hp : p.LeavesAlone o) (hh : h ∈ o.classes) :
    (o ++ p).classDecl h = o.classDecl h := by
  have hmarks : (o ++ p).abstractMarks.contains h.name = o.abstractMarks.contains h.name := by
    change (o.abstractMarks ++ p.abstractMarks).contains h.name = _
    simp [(hp h hh).2]
  simp only [classDecl, hmarks, links_append, hp.links_of hh, List.append_nil]

private theorem classDecl_append_right (ho : o.LeavesAlone p) (hh : h ∈ p.classes) :
    (o ++ p).classDecl h = p.classDecl h := by
  have hmarks : (o ++ p).abstractMarks.contains h.name = p.abstractMarks.contains h.name := by
    change (o.abstractMarks ++ p.abstractMarks).contains h.name = _
    simp [(ho h hh).2]
  simp only [classDecl, hmarks, links_append, ho.links_of hh, List.nil_append]

private theorem model_append (ho : o.LeavesAlone p) (hp : p.LeavesAlone o) : (o ++ p).model = o.model ++ p.model := by
  have hclasses : (o.classes ++ p.classes).map (o ++ p).classDecl =
      o.classes.map o.classDecl ++ p.classes.map p.classDecl := by
    rw [List.map_append]
    congr 1
    · exact List.map_congr_left fun _ hh => classDecl_append_left hp hh
    · exact List.map_congr_left fun _ hh => classDecl_append_right ho hh
  change Model.mk ((o.classes ++ p.classes).map (o ++ p).classDecl) ((o.enums ++ p.enums).map _) = _
  rw [hclasses, List.map_append]
  rfl

end Outline

/-- Independent documents compose: a semicolon between them keeps every scan apart, and where neither
speaks of the classes of the other, the model is that of the first and behind it that of the second. -/
theorem documents_compose (d e : Text) (hd : BracesClosed d) :
    Outline.ofText (d ++ ';' :: e) = Outline.ofText d ++ Outline.ofText e ∧
    ((Outline.ofText d).LeavesAlone (Outline.ofText e) → (Outline.ofText e).LeavesAlone (Outline.ofText d) →
      Model.ofText (d ++ ';' :: e) = Model.ofText d ++ Model.ofText e) := by
  refine ⟨Outline.ofText_append hd e, fun hde hed => ?_⟩
  rw [Model.ofText, Outline.ofText_append hd e]
  exact Outline.model_append hde hed

/-- The first document ends in the middle of a header that the second would complete. -/
theorem documents_compose_unfinished :
    let d := "class A \x7b +int x; \x7d abstract class A\nA -- X class B".toList
    let e := "\x7b \x7d enum E \x7b V \x7d class C \x7b\x7d C --> X".toList
    BracesClosed d ∧ (Outline.ofText d).LeavesAlone (Outline.ofText e) ∧
      (Outline.ofText e).LeavesAlone (Outline.ofText d) ∧
      Outline.ofText (d ++ ';' :: e) = Outline.ofText d ++ Outline.ofText e ∧
      Model.ofText (d ++ ';' :: e) = Model.ofText d ++ Model.ofText e := by
  intro d e
  have hd : BracesClosed d := by decide
  have hde : (Outline.ofText d).LeavesAlone (Outline.ofText e) := by decide
  have hed : (Outline.ofText e).LeavesAlone (Outline.ofText d) := by decide
  obtain ⟨hscans, hmodel⟩ := documents_compose d e hd
  exact ⟨hd, hde, hed, hscans, hmodel hde hed⟩

end ClassNotation
