import ClassNotation.Proofs.MarkPieces
import ClassNotation.Proofs.ScanPlaces
import ClassNotation.Proofs.WellFormedModels

/-! Abstract marks count wherever they stand. A mark is overlooked in one case only: its keyword is the
end of the name of a mark before it, since the scan goes on behind that name. -/
namespace ClassNotation
open Grammar

/-- A mark of the name begins at the position. Its name goes to the end of the word; anything may stand
before its keyword. -/
def MarkAt (document : Text) (position : Nat) (name : Text) : Prop :=
  ∃ gap gap' rest,
    document.drop position = "abstract".toList ++ (gap ++ ("class".toList ++ (gap' ++ (name ++ rest)))) ∧
      IsGap gap ∧ IsGap gap' ∧ IsWord name ∧ Stops isWordChar rest

def Grammar.Reading.NameCovers (mark : Reading Text) (position : Nat) : Prop :=
  mark.stop - mark.result.length ≤ position ∧ position < mark.stop

private theorem markAt_iff {document name : Text} {position : Nat} :
    MarkAt document position name ↔ ∃ r, abstractMark.run (document.drop position) = some (name, r) := by
  constructor
  · rintro ⟨gap, gap', rest, h⟩
    exact ⟨rest, run_abstractMark_eq_some_iff.mpr ⟨gap, gap', h⟩⟩
  · rintro ⟨rest, h⟩
    obtain ⟨gap, gap', h⟩ := run_abstractMark_eq_some_iff.mp h
    exact ⟨gap, gap', rest, h⟩

private theorem eq_keyword_append_of_inside {s u name other r r' : Text} (hs : abstractMark.run s = some (name, r))
    (hu : abstractMark.run u = some (other, r')) (hsuffix : u <:+ s) (hlt : u.length < s.length)
    (hgt : r.length < u.length) : "abstract".toList <:+ name ∧ u = "abstract".toList ++ r := by
  have hk := keyworded_abstractMark
  obtain ⟨gap, gap', rfl, hgap, hgap', hname, hr⟩ := run_abstractMark_eq_some_iff.mp hs
  rcases hk.suffix_of_suffix_word_append isWord_abstract.chars (hgap.stops_isWordChar _) hsuffix hu with
    hsuffix | ⟨-, rfl⟩
  · have hsuffix := hk.wordLed.suffix_of_suffix_gap_append hgap hsuffix hu
    rcases hk.suffix_of_suffix_word_append isWord_class.chars (hgap'.stops_isWordChar _) hsuffix hu with
      hsuffix | ⟨hclass, -⟩
    · have hsuffix := hk.wordLed.suffix_of_suffix_gap_append hgap' hsuffix hu
      rcases hk.suffix_of_suffix_word_append hname.chars hr hsuffix hu with hsuffix | hends
      · have hle := hsuffix.length_le
        omega
      · exact hends
    · exact absurd hclass (by decide)
  · exact absurd hlt (Nat.lt_irrefl _)

section
variable {document name : Text} {position : Nat} {mark : Reading Text}

private theorem mem_marks_or_inside (h : MarkAt document position name) :
    name ∈ abstractMark.scan document ∨
      ∃ mark ∈ abstractMark.readings document, mark.start < position ∧ position < mark.stop := by
  obtain ⟨r, hrun⟩ := markAt_iff.mp h
  obtain ⟨-, -, -, -, -, -, hr⟩ := run_abstractMark_eq_some_iff.mp hrun
  exact mem_scan_or_inside hrun (keyworded_abstractMark.wordLed.length_lt_of_run hrun hr)

private theorem nameCovers_of_inside (hmark : mark ∈ abstractMark.readings document) (h : MarkAt document position name)
    (hstart : mark.start < position) (hstop : position < mark.stop) :
    "abstract".toList <:+ mark.result ∧ mark.NameCovers position := by
  obtain ⟨-, hsize, hrun⟩ := run_of_mem_readings hmark
  obtain ⟨r, hrun'⟩ := markAt_iff.mp h
  have hsuffix : document.drop position <:+ document.drop mark.start := by
    have hdrop : position = mark.start + (position - mark.start) := by omega
    rw [hdrop, ← List.drop_drop]
    exact List.drop_suffix _ _
  obtain ⟨hends, hdrop⟩ := eq_keyword_append_of_inside hrun hrun' hsuffix
    (by simp only [List.length_drop]; omega) (by simp only [List.length_drop]; omega)
  -- the keyword takes up the characters from the position to the end of the mark
  have hlength := congrArg List.length hdrop
  have hle := hends.length_le
  simp only [List.length_append, List.length_drop] at hlength
  exact ⟨hends, by omega, hstop⟩

end

/-- Every name that is marked has a mark somewhere. A mark somewhere marks its name, unless it begins
inside the name of a mark that was recorded before it, and that name ends in the keyword. So where no
name that is marked ends in the keyword, a class is abstract exactly if there is a mark of its name,
before its header, in it or behind it. -/
theorem marks_count_wherever_they_stand (document : Text) :
    (abstractMark.readings document).map Reading.result = abstractMark.scan document ∧
    (∀ name ∈ abstractMark.scan document, ∃ position, MarkAt document position name) ∧
    (∀ position name, MarkAt document position name → name ∈ abstractMark.scan document ∨
      ∃ mark ∈ abstractMark.readings document, mark.start < position ∧ mark.NameCovers position) ∧
    (∀ position name, MarkAt document position name → ∀ mark ∈ abstractMark.readings document,
      mark.start < position → mark.NameCovers position → "abstract".toList <:+ mark.result) ∧
    ((∀ name ∈ abstractMark.scan document, ¬ "abstract".toList <:+ name) →
      ∀ c ∈ (Model.ofText document).classes,
        c.isAbstract = true ↔ ∃ position, MarkAt document position c.name) := by
  have hresults := map_result_readings abstractMark document
  have hsound : ∀ name ∈ abstractMark.scan document, ∃ position, MarkAt document position name := by
    intro name hname
    rw [← hresults] at hname
    obtain ⟨mark, hmark, rfl⟩ := List.mem_map.mp hname
    exact ⟨mark.start, markAt_iff.mpr ⟨_, (run_of_mem_readings hmark).2.2⟩⟩
  refine ⟨hresults, hsound, fun position name h => ?_, fun position name h mark hmark hstart hcovers =>
    (nameCovers_of_inside hmark h hstart hcovers.2).1, fun hplain c hc => ?_⟩
  · rcases mem_marks_or_inside h with hname | ⟨mark, hmark, hstart, hstop⟩
    · exact Or.inl hname
    · exact Or.inr ⟨mark, hmark, hstart, (nameCovers_of_inside hmark h hstart hstop).2⟩
  · rw [Model.isAbstract_of_mem_classes hc, List.contains_iff_mem]
    refine ⟨hsound c.name, fun ⟨position, h⟩ => ?_⟩
    rcases mem_marks_or_inside h with hname | ⟨mark, hmark, hstart, hstop⟩
    · exact hname
    · have hends := (nameCovers_of_inside hmark h hstart hstop).1
      exact absurd hends (hplain mark.result (hresults ▸ List.mem_map.mpr ⟨mark, hmark, rfl⟩))

/-- The second mark of the first text is overlooked, since its keyword is the name of the first. In
the second text the mark behind the class is found. -/
theorem marks_count_wherever_they_stand_overlap :
    let overlapping := "abstract class abstract class Foo".toList
    let behind := "class Foo \x7b\x7d abstract class Foo".toList
    (MarkAt overlapping 15 "Foo".toList ∧ "Foo".toList ∉ abstractMark.scan overlapping ∧
      ∃ mark ∈ abstractMark.readings overlapping, mark.start < 15 ∧ mark.NameCovers 15) ∧
    (MarkAt behind 13 "Foo".toList ∧ ∃ c ∈ (Model.ofText behind).classes, c.isAbstract = true) := by
  intro overlapping behind
  obtain ⟨-, -, hcounts, -, -⟩ := marks_count_wherever_they_stand overlapping
  obtain ⟨-, -, -, -, habstract⟩ := marks_count_wherever_they_stand behind
  have hover : MarkAt overlapping 15 "Foo".toList := markAt_iff.mpr ⟨[], by decide⟩
  have hbehind : MarkAt behind 13 "Foo".toList := markAt_iff.mpr ⟨[], by decide⟩
  have hmissed : "Foo".toList ∉ abstractMark.scan overlapping := by decide
  have hplain : ∀ name ∈ abstractMark.scan behind, ¬ "abstract".toList <:+ name := by decide
  have hclass : ⟨"Foo".toList, true, none, [], []⟩ ∈ (Model.ofText behind).classes := by decide
  exact ⟨⟨hover, hmissed, (hcounts 15 _ hover).resolve_left hmissed⟩, hbehind, _, hclass,
    (habstract hplain _ hclass).mpr ⟨13, hbehind⟩⟩

end ClassNotation
