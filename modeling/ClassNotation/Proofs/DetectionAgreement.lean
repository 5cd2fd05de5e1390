import ClassNotation.Detector
import ClassNotation.Proofs.HeaderReadings

/-! Detector and reader look at the same scans: a document is accepted if one of the first three finds
something, and declares something if one of the first two does. -/
namespace ClassNotation
open Grammar

private theorem Text.contains_iff_infix {part t : Text} : Text.contains part t = true ↔ part <:+: t := by
  induction t with
  | nil => simp [Text.contains]
  | cons c t ih => simp only [Text.contains, Bool.or_eq_true, ih, List.isPrefixOf_iff_prefix, List.infix_cons_iff]

private theorem Text.contains_of_suffix {part t u : Text} (hu : u <:+ t) (h : part <:+: u) :
    Text.contains part t = true :=
  Text.contains_iff_infix.mpr (h.trans hu.isInfix)

private theorem Grammar.Keyworded.exists_append_of_run {α : Type} {g next : Grammar α} {k s r : Text} {a : α}
    (hg : Keyworded g k next) (h : g.run s = some (a, r)) : ∃ b t, s = k ++ (b ++ t) ∧ next.run t = some (a, r) := by
  rw [hg.eq_bind] at h
  obtain ⟨_, u, hk, hu⟩ := run_bind_eq_some_iff.mp h
  obtain ⟨b, t, hb, ht⟩ := run_bind_eq_some_iff.mp hu
  obtain ⟨-, rfl⟩ := run_literal_eq_some_iff.mp hk
  obtain ⟨rfl, -, -⟩ := run_blanks1_eq_some_iff.mp hb
  exact ⟨b, t, rfl, ht⟩

private theorem Grammar.Keyworded.contains_of_mem_scan {α : Type} {g next : Grammar α} {k document : Text} {a : α}
    (hg : Keyworded g k next) (h : a ∈ g.scan document) : Text.contains k document = true := by
  obtain ⟨u, r, hr, hu⟩ := exists_run_of_mem_scan h
  obtain ⟨b, t, rfl, -⟩ := hg.exists_append_of_run hr
  exact Text.contains_of_suffix hu (List.prefix_append k _).isInfix

private theorem contains_class_of_mem_marks {document name : Text} (h : name ∈ abstractMark.scan document) :
    Text.contains "class".toList document = true := by
  obtain ⟨u, r, hr, hu⟩ := exists_run_of_mem_scan h
  obtain ⟨b, t, rfl, ht⟩ := keyworded_abstractMark.exists_append_of_run hr
  obtain ⟨b', t', rfl, -⟩ := keyworded_markedName.exists_append_of_run ht
  exact Text.contains_of_suffix hu ⟨"abstract".toList ++ b, b' ++ t', by simp⟩

namespace Signal
variable {document : Text}

/-- The signs are looked for one after the other. -/
theorem confidenceIn_eq (document : Text) : confidenceIn document =
    if appearsIn document classHeader then ⟨8, by decide⟩ else if appearsIn document enumHeader then ⟨8, by decide⟩
    else if appearsIn document abstractMark then ⟨6, by decide⟩
    else if appearsIn document relation then ⟨3, by decide⟩ else ⟨0, by decide⟩ := by
  unfold confidenceIn best? all
  simp only [List.find?_cons, List.find?_nil]
  cases appearsIn document classHeader with
  | true => rfl
  | false =>
    cases appearsIn document enumHeader with
    | true => rfl
    | false =>
      cases appearsIn document abstractMark with
      | true => rfl
      | false => cases appearsIn document relation <;> rfl

/-- The two surest signs are those that lead to declarations. -/
theorem isEmpty_ofText (document : Text) :
    (Model.ofText document).isEmpty = !(appearsIn document classHeader || appearsIn document enumHeader) := by
  simp [Model.isEmpty, Model.ofText, Outline.model, Outline.ofText, appearsIn]

private theorem appearsIn_abstractMark_iff :
    appearsIn document abstractMark = true ↔ ClassNotation.abstractMark.scan document ≠ [] := by
  simp [appearsIn]

end Signal

namespace Detector
variable {document : Text}

theorem confidence_eq_iff : classNotation.confidence document = ⟨8, by decide⟩ ↔
    (Model.ofText document).isEmpty = false := by
  change Signal.confidenceIn document = _ ↔ _
  rw [Signal.confidenceIn_eq, Signal.isEmpty_ofText]
  cases Signal.appearsIn document .classHeader <;> cases Signal.appearsIn document .enumHeader <;>
    cases Signal.appearsIn document .abstractMark <;> cases Signal.appearsIn document .relation <;> simp

/-- A relation alone is not enough. -/
theorem accepts_iff : classNotation.accepts document = true ↔
    (Model.ofText document).isEmpty = false ∨ abstractMark.scan document ≠ [] := by
  change decide ((Signal.confidenceIn document).tenths > 5) = true ↔ _
  rw [decide_eq_true_iff, Signal.confidenceIn_eq, Signal.isEmpty_ofText, ← Signal.appearsIn_abstractMark_iff]
  cases Signal.appearsIn document .classHeader <;> cases Signal.appearsIn document .enumHeader <;>
    cases Signal.appearsIn document .abstractMark <;> cases Signal.appearsIn document .relation <;> simp

/-- What is accepted passes the quick look, too. -/
theorem maybeDeclares_of_accepts (h : classNotation.accepts document = true) : maybeDeclares document = true := by
  rw [maybeDeclares, Bool.or_eq_true]
  rcases accepts_iff.mp h with h | h
  · rw [Signal.isEmpty_ofText, Bool.not_eq_false', Bool.or_eq_true] at h
    rcases h with h | h
    · have hs : ClassHeader.grammar.scan document ≠ [] := by simpa [Signal.appearsIn] using h
      obtain ⟨header, hm⟩ := List.exists_mem_of_ne_nil _ hs
      exact Or.inl (ClassHeader.keyworded.contains_of_mem_scan hm)
    · have hs : EnumHeader.grammar.scan document ≠ [] := by simpa [Signal.appearsIn] using h
      obtain ⟨header, hm⟩ := List.exists_mem_of_ne_nil _ hs
      exact Or.inr (EnumHeader.keyworded.contains_of_mem_scan hm)
  · obtain ⟨name, hm⟩ := List.exists_mem_of_ne_nil _ h
    exact Or.inl (contains_class_of_mem_marks hm)

end Detector

end ClassNotation
