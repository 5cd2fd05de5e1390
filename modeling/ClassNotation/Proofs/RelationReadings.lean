import ClassNotation.Proofs.RelationForms

/-! What relations look like where they are read. A relation consists of few kinds of characters and
has an arrow in it, so text without two hyphens in a row holds none, up to a character of another kind. -/
namespace ClassNotation
open Grammar

def isRelationChar (c : Char) : Bool := isWordChar c || isPadding c || c ∈ ['*', '-', '<', '>']

private theorem isRelationChar_of_word {w : Text} (hw : ∀ c ∈ w, isWordChar c = true) :
    ∀ c ∈ w, isRelationChar c = true := by
  intro c hc
  simp [isRelationChar, hw c hc]

private theorem isRelationChar_of_padding {p : Text} (hp : ∀ c ∈ p, isPadding c = true) :
    ∀ c ∈ p, isRelationChar c = true := by
  intro c hc
  simp [isRelationChar, hp c hc]

private theorem Cardinality.isRelationChar_written (k : Option Cardinality) :
    ∀ c ∈ written k, isRelationChar c = true := by
  apply List.all_eq_true.mp
  match k with
  | none => decide
  | some .one => decide
  | some .many => decide

namespace Arrow

private theorem hyphens_in_written (a : Arrow) : "--".toList <:+: a.written := by cases a <;> decide

private theorem isRelationChar_written (a : Arrow) : ∀ c ∈ a.written, isRelationChar c = true := by
  apply List.all_eq_true.mp
  cases a <;> decide

end Arrow

private theorem RelationEnd.mem_asLeft_iff {e : RelationEnd} {c : Char} : c ∈ e.asLeft ↔ c ∈ e.asRight := by
  simp only [asLeft, behindName, asRight, List.mem_append]
  grind

private theorem RelationEnd.isRelationChar_asRight (e : RelationEnd) : ∀ c ∈ e.asRight, isRelationChar c = true := by
  intro c hc
  simp only [asRight, List.mem_append] at hc
  rcases hc with hc | hc | hc | hc
  · exact isRelationChar_of_padding e.inner_padding c hc
  · exact Cardinality.isRelationChar_written e.cardinality c hc
  · exact isRelationChar_of_padding e.outer_padding c hc
  · exact isRelationChar_of_word e.isWord.chars c hc

private theorem RelationForm.isRelationChar_text (f : RelationForm) : ∀ c ∈ f.text, isRelationChar c = true := by
  intro c hc
  simp only [text, List.mem_append] at hc
  rcases hc with hc | hc | hc
  · exact f.left.isRelationChar_asRight c (RelationEnd.mem_asLeft_iff.mp hc)
  · exact f.arrow.isRelationChar_written c hc
  · exact f.right.isRelationChar_asRight c hc

namespace Relation

/-- The ends of a relation that was read are words, and what was read has an arrow in it. -/
theorem shape {s r : Text} {x : Relation} (h : Relation.grammar.run s = some (x, r)) :
    IsWord x.source ∧ IsWord x.target ∧
      ∃ u, s = u ++ r ∧ (∀ c ∈ u, isRelationChar c = true) ∧ "--".toList <:+: u := by
  obtain ⟨f, rfl, -, rfl⟩ := RelationForm.exists_preferred_of_run h
  have hends : IsWord f.relation.source ∧ IsWord f.relation.target := by
    unfold RelationForm.relation
    cases f.arrow
    · exact ⟨f.left.isWord, f.right.isWord⟩
    · exact ⟨f.left.isWord, f.right.isWord⟩
    · exact ⟨f.right.isWord, f.left.isWord⟩
  refine ⟨hends.1, hends.2, f.text, rfl, f.isRelationChar_text, ?_⟩
  exact f.arrow.hyphens_in_written.trans ⟨f.left.asLeft, f.right.asRight, by simp [RelationForm.text]⟩

theorem wordLed : WordLed Relation.grammar := wordLed_word_bind

/-- Text without an arrow, up to a character that no relation has, is passed over. -/
theorem scan_of_absent {x : Text} (hx : ¬ "--".toList <:+: x) {c : Char}
    (hc : isRelationChar c = false) (t : Text) :
    Relation.grammar.scan (x ++ c :: t) = Relation.grammar.scan (c :: t) := by
  apply scan_append_of_run_eq_none
  intro u hu _
  rw [Option.eq_none_iff_forall_ne_some]
  rintro ⟨a, r⟩ hr
  obtain ⟨-, -, v, he, hv, hi⟩ := shape hr
  have hcv : c ∉ v := fun hm => by simp [hv c hm] at hc
  obtain ⟨y, rfl, -⟩ := append_eq_append_cons he hcv
  exact hx (hi.trans ((List.prefix_append v y).isInfix.trans hu.isInfix))

end Relation
end ClassNotation
