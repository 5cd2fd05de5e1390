import ClassNotation.Proofs.HeaderReadings

/-! Headers are recognized exactly: a header is read off the front of a text where a front piece has
the form of one, and no text has two such front pieces or two headers of which one piece is the form.
The form says nothing of how blanks are shared out or of which part is tried first. -/
namespace ClassNotation

def Grammar.Reads {α : Type} (g : Grammar α) (s : Text) (a : α) (k : Nat) : Prop :=
  k ≤ s.length ∧ g.run s = some (a, s.drop k)

def FormAt {α : Type} (form : α → Text → Prop) (s : Text) (a : α) (k : Nat) : Prop :=
  k ≤ s.length ∧ form a (s.take k)

/-- A grammar that reads a result off a front piece where the piece has the form of the result,
whatever follows it. -/
def Grammar.Recognizes {α : Type} (g : Grammar α) (form : α → Text → Prop) : Prop :=
  ∀ s a r, g.run s = some (a, r) ↔ ∃ t, s = t ++ r ∧ form a t

namespace Grammar.Recognizes
variable {α : Type} {g : Grammar α} {form : α → Text → Prop} {s : Text} {a b : α} {k n : Nat}

private theorem reads_iff (hg : g.Recognizes form) : g.Reads s a k ↔ FormAt form s a k := by
  refine and_congr_right fun _ => (hg s a (s.drop k)).trans ⟨?_, fun h => ?_⟩
  · rintro ⟨t, hs, ht⟩
    have he : s.take k ++ s.drop k = t ++ s.drop k := (List.take_append_drop k s).trans hs
    rwa [List.append_cancel_right he]
  · exact ⟨s.take k, (List.take_append_drop k s).symm, h⟩

/-- A text has the form in one way at most, since the grammar reads it in one way. -/
theorem unique (hg : g.Recognizes form) (ha : FormAt form s a k) (hb : FormAt form s b n) : a = b ∧ k = n := by
  obtain ⟨hk, hrunA⟩ := hg.reads_iff.mpr ha
  obtain ⟨hn, hrunB⟩ := hg.reads_iff.mpr hb
  rw [hrunA, Option.some.injEq, Prod.mk.injEq] at hrunB
  obtain ⟨rfl, hdrop⟩ := hrunB
  have hlength := congrArg List.length hdrop
  simp only [List.length_drop] at hlength
  exact ⟨rfl, by omega⟩

end Grammar.Recognizes

/-- A keyword, blanks, a name, a clause behind the name, perhaps blanks, and a body in braces. -/
def HeaderForm (keyword name clause body t : Text) : Prop :=
  ∃ gap space, t = keyword ++ (gap ++ (name ++ (clause ++ (space ++ '\x7b' :: (body ++ ['\x7d']))))) ∧
    IsGap gap ∧ IsWord name ∧ (∀ c ∈ space, isBlank c = true) ∧ '\x7d' ∉ body

def ClassHeader.Form (h : ClassHeader) (t : Text) : Prop :=
  ∃ clause, ParentText clause h.parent ∧ HeaderForm "class".toList h.name clause h.body t

def EnumHeader.Form (h : EnumHeader) (t : Text) : Prop := HeaderForm "enum".toList h.name [] h.body t

private theorem ClassHeader.recognizes : ClassHeader.grammar.Recognizes ClassHeader.Form := by
  intro s h r
  rw [ClassHeader.run_eq_some_iff]
  constructor
  · rintro ⟨gap, clause, space, rfl, hgap, hname, hclause, hspace, hbody⟩
    exact ⟨_, by simp, clause, hclause, gap, space, rfl, hgap, hname, hspace, hbody⟩
  · rintro ⟨_, rfl, clause, hclause, gap, space, rfl, hgap, hname, hspace, hbody⟩
    exact ⟨gap, clause, space, by simp, hgap, hname, hclause, hspace, hbody⟩

private theorem EnumHeader.recognizes : EnumHeader.grammar.Recognizes EnumHeader.Form := by
  intro s h r
  rw [EnumHeader.run_eq_some_iff]
  constructor
  · rintro ⟨gap, space, rfl, hgap, hname, hspace, hbody⟩
    exact ⟨_, by simp, gap, space, rfl, hgap, hname, hspace, hbody⟩
  · rintro ⟨_, rfl, gap, space, rfl, hgap, hname, hspace, hbody⟩
    exact ⟨gap, space, by simp, hgap, hname, hspace, hbody⟩

/-- Class and enum headers are read off exactly the front pieces that have their form, and at most
one header and one front piece of a text fit together, whatever words the names are. -/
theorem headers_recognized_exactly (s : Text) :
    (∀ h k, ClassHeader.grammar.Reads s h k ↔ FormAt ClassHeader.Form s h k) ∧
    (∀ h k h' k', FormAt ClassHeader.Form s h k → FormAt ClassHeader.Form s h' k' → h = h' ∧ k = k') ∧
    (∀ h k, EnumHeader.grammar.Reads s h k ↔ FormAt EnumHeader.Form s h k) ∧
    (∀ h k h' k', FormAt EnumHeader.Form s h k → FormAt EnumHeader.Form s h' k' → h = h' ∧ k = k') :=
  ⟨fun _ _ => ClassHeader.recognizes.reads_iff, fun _ _ _ _ => ClassHeader.recognizes.unique,
    fun _ _ => EnumHeader.recognizes.reads_iff, fun _ _ _ _ => EnumHeader.recognizes.unique⟩

/-- A keyword in the place of a name is a name, and the text cannot be taken in any other way. -/
theorem headers_recognized_exactly_keywords :
    let s := "class extends extends class \x7b;\x7d\x7d".toList
    let h : ClassHeader := ⟨"extends".toList, some "class".toList, [';']⟩
    ClassHeader.grammar.Reads s h 31 ∧ FormAt ClassHeader.Form s h 31 ∧
      ∀ h' k, FormAt ClassHeader.Form s h' k → h' = h ∧ k = 31 := by
  intro s h
  obtain ⟨hreads, hunique, -⟩ := headers_recognized_exactly s
  have hread : ClassHeader.grammar.Reads s h 31 := ⟨by decide, by decide⟩
  have hform := (hreads h 31).mp hread
  exact ⟨hread, hform, fun h' k h'form => hunique h' k h 31 h'form hform⟩

end ClassNotation
