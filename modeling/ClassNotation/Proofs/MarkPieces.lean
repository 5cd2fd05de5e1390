import ClassNotation.Proofs.Composition
import ClassNotation.Proofs.TextLines

/-! Marks in pieces of a document. A mark consists of words and blanks, so any other character separates
marks: text between two such characters holds the same marks in the document as it holds alone, and
blanks at its ends do not matter. -/
namespace ClassNotation
open Grammar

theorem IsSeparator.marks_append {c : Char} (hc : IsSeparator c) (x t : Text) :
    abstractMark.scan (x ++ c :: t) = abstractMark.scan x ++ abstractMark.scan t := by
  rw [(hc.endsAt_abstractMark x).scan_append, keyworded_abstractMark.wordLed.scan_cons hc.word]

/-- The marks of a piece that is set off on both sides are marks of the document. -/
theorem marks_subset_of_infix {o c : Char} (ho : IsSeparator o) (hc : IsSeparator c) {piece document : Text}
    (h : o :: (piece ++ [c]) <:+: document) : abstractMark.scan piece ⊆ abstractMark.scan document := by
  obtain ⟨before, after, rfl⟩ := h
  have hsplit : before ++ o :: (piece ++ [c]) ++ after = before ++ o :: (piece ++ c :: after) := by simp
  intro name hname
  rw [hsplit, ho.marks_append, hc.marks_append]
  simp [hname]

/-- What a mark is: its keyword, that of a class, and a name, with blanks between them. -/
theorem run_abstractMark_eq_some_iff {s name r : Text} :
    abstractMark.run s = some (name, r) ↔
      ∃ b b', s = "abstract".toList ++ (b ++ ("class".toList ++ (b' ++ (name ++ r)))) ∧
        IsGap b ∧ IsGap b' ∧ IsWord name ∧ Stops isWordChar r := by
  simp only [abstractMark, run_bind_eq_some_iff, run_literal_eq_some_iff, run_blanks1_eq_some_iff, run_word_eq_some_iff]
  constructor
  · rintro ⟨_, _, ⟨-, rfl⟩, b, _, ⟨rfl, hb, -⟩, _, _, ⟨-, rfl⟩, b', _, ⟨rfl, hb', -⟩, rfl, hname, hr⟩
    exact ⟨b, b', rfl, hb, hb', hname, hr⟩
  · rintro ⟨b, b', rfl, hb, hb', hname, hr⟩
    exact ⟨_, _, ⟨rfl, rfl⟩, b, _, ⟨rfl, hb, isWord_class.stops_isBlank _⟩, _, _, ⟨rfl, rfl⟩,
      b', _, ⟨rfl, hb', hname.stops_isBlank r⟩, rfl, hname, hr⟩

section
variable {b : Text} (hb : ∀ c ∈ b, isBlank c = true)
include hb

private theorem stops_append_blanks {r : Text} : Stops isWordChar (r ++ b) ↔ Stops isWordChar r := by
  cases r with
  | cons c r => simp
  | nil =>
    cases b with
    | nil => simp
    | cons c b => simp [isWordChar_eq_false_of_isBlank (hb c List.mem_cons_self)]

private theorem append_blanks_eq_append_word {u k w r : Text} (hw : IsWord w) (h : u ++ b = k ++ w ++ r) :
    ∃ v, u = k ++ w ++ v ∧ r = v ++ b := by
  rcases List.append_eq_append_iff.mp h with ⟨v, hk, hv⟩ | ⟨v, hu, hr⟩
  · cases v with
    | nil => exact ⟨[], by simpa using hk.symm, by simpa using hv.symm⟩
    | cons c v =>
      -- the last character of the word would be one of the blanks
      obtain ⟨d, hd⟩ := Option.isSome_iff_exists.mp (List.getLast?_isSome.mpr hw.ne_nil)
      have hlast : (u ++ c :: v).getLast? = some d := by rw [← hk, List.getLast?_append, hd]; rfl
      have hmem : d ∈ c :: v := List.mem_of_getLast? (by simpa using hlast)
      have hblank := hb d (hv ▸ List.mem_append_left r hmem)
      exact absurd hblank (by simp [isBlank_eq_false_of_isWordChar (hw.chars d (List.mem_of_getLast? hd))])
  · exact ⟨v, hu, hr⟩

private theorem run_abstractMark_append_blanks (u : Text) :
    abstractMark.run (u ++ b) = (abstractMark.run u).map fun out => (out.1, out.2 ++ b) := by
  apply Option.ext
  rintro ⟨name, r⟩
  simp only [Option.map_eq_some_iff, Prod.exists, Prod.mk.injEq, run_abstractMark_eq_some_iff]
  constructor
  · rintro ⟨g, g', he, hg, hg', hname, hr⟩
    have hword : u ++ b = "abstract".toList ++ (g ++ ("class".toList ++ g')) ++ name ++ r := by
      rw [he]
      simp only [List.append_assoc]
    obtain ⟨v, rfl, rfl⟩ := append_blanks_eq_append_word hb hname hword
    exact ⟨name, v, ⟨g, g', by simp only [List.append_assoc], hg, hg', hname, (stops_append_blanks hb).mp hr⟩, rfl, rfl⟩
  · rintro ⟨_, v, ⟨g, g', rfl, hg, hg', hname, hr⟩, rfl, rfl⟩
    exact ⟨g, g', by simp only [List.append_assoc], hg, hg', hname, (stops_append_blanks hb).mpr hr⟩

theorem marks_blanks_append (t : Text) : abstractMark.scan (b ++ t) = abstractMark.scan t := by
  induction b with
  | nil => rfl
  | cons c b ih =>
    rw [List.cons_append, keyworded_abstractMark.wordLed.scan_cons (isWordChar_eq_false_of_isBlank (hb c List.mem_cons_self)),
      ih fun d hd => hb d (List.mem_cons_of_mem c hd)]

private theorem marks_append_blanks (t : Text) : abstractMark.scan (t ++ b) = abstractMark.scan t := by
  have hnone : abstractMark.scan b = [] := by
    rw [← List.append_nil b, marks_blanks_append hb, scan_nil]
  rw [scan_append_of_run_eq_map fun u _ => run_abstractMark_append_blanks hb u, hnone, List.append_nil]

end

theorem marks_trim (t : Text) : abstractMark.scan (Text.trim t) = abstractMark.scan t := by
  obtain ⟨b, b', he, hb, hb'⟩ := Text.exists_append_trim t
  have hmarks : abstractMark.scan (b ++ (Text.trim t ++ b')) = abstractMark.scan (Text.trim t) := by
    rw [marks_blanks_append hb, marks_append_blanks hb']
  rw [← hmarks, ← he]

end ClassNotation
