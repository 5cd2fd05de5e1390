import ClassNotation.Proofs.CanonicalDocument
import ClassNotation.Proofs.HeaderReadings
import ClassNotation.Proofs.RelationReadings

/-! Relations written out with single blanks between their parts, and how they are read in front of
other text. The digit that is a cardinality may also begin a name, and only there can the parts be
taken for others. -/
namespace ClassNotation.Canonical
open Grammar

/-- Two names with an arrow between them, and a quoted cardinality on each side of it where there is
one. -/
def relationText (left : Word) (k : Option Cardinality) (a : Arrow) (m : Option Cardinality) (right : Word) : Text :=
  left.text ++ ' ' :: (beforeArrow k ++ a.written ++ behindArrow m ++ ' ' :: right.text)

section
variable {left right w : Word} {k m : Option Cardinality} {a : Arrow} {t : Text}

theorem relationText_append : relationText left k a m right ++ t =
    left.text ++ ' ' :: (beforeArrow k ++ a.written ++ behindArrow m ++ ' ' :: (right.text ++ t)) := by
  simp only [relationText, List.append_assoc, List.cons_append]

def leftEnd (w : Word) : Option Cardinality → RelationEnd
  | none => ⟨w.text, none, [' '], [], w.isWord, by simp, by simp⟩
  | some k => ⟨w.text, some k, [' ', '"'], ['"', ' '], w.isWord, by simp, by simp⟩

def rightEnd (w : Word) : Option Cardinality → RelationEnd
  | none => ⟨w.text, none, [], [' '], w.isWord, by simp, by simp⟩
  | some k => ⟨w.text, some k, ['"', ' '], [' ', '"'], w.isWord, by simp, by simp⟩

private theorem asLeft_leftEnd (w : Word) (k : Option Cardinality) :
    (leftEnd w k).asLeft = w.text ++ ' ' :: beforeArrow k := by
  match k with
  | none => rfl
  | some .one => rfl
  | some .many => rfl

private theorem asRight_rightEnd (w : Word) (k : Option Cardinality) :
    (rightEnd w k).asRight = behindArrow k ++ ' ' :: w.text := by
  match k with
  | none => rfl
  | some .one => rfl
  | some .many => rfl

def relationForm (left : Word) (k : Option Cardinality) (a : Arrow) (m : Option Cardinality) (right : Word) : RelationForm :=
  ⟨leftEnd left k, a, rightEnd right m⟩

theorem text_relationForm : (relationForm left k a m right).text = relationText left k a m right := by
  simp [relationForm, RelationForm.text, asLeft_leftEnd, asRight_rightEnd, relationText]

private theorem relation_relationForm :
    (relationForm left k a m right).relation = .ofWritten left.text k a m right.text := by
  cases k <;> cases m <;> rfl

private theorem Word.run_cardinality (hw : w.text.head? ≠ some '1') (t : Text) :
    Cardinality.grammar.run (w.text ++ t) = none := by
  obtain ⟨c, u, he⟩ := List.exists_cons_of_ne_nil w.isWord.ne_nil
  have hone : c ≠ '1' := fun hc => hw (by simp [he, hc])
  have hmany : c ≠ '*' := by
    rintro rfl
    exact absurd (w.isWord.chars '*' (by simp [he])) (by decide)
  have hnone : Cardinality.ofSymbol? c = none := by
    unfold Cardinality.ofSymbol?
    split
    · exact absurd rfl hmany
    · exact absurd rfl hone
    · rfl
  rw [he]
  change (Cardinality.ofSymbol? c).map (·, u ++ t) = none
  rw [hnone, Option.map_none]

def cardinalName : Grammar (Option Cardinality × Text) := do
  let c ← Cardinality.grammar
  let _ ← padding
  let name ← word
  return (some c, name)

private theorem run_cardinalName
    (h : w.text.head? = some '1' → w.text = ['1'] ∧ Stops isWordChar (t.dropWhile isPadding)) :
    cardinalName.run (w.text ++ t) = none := by
  unfold cardinalName
  by_cases hone : w.text.head? = some '1'
  · obtain ⟨hw, ht⟩ := h hone
    have hcard : Cardinality.grammar.run (w.text ++ t) = some (.one, t) := by
      rw [hw]
      rfl
    have hpad : padding.run t = some (t.takeWhile isPadding, t.dropWhile isPadding) := rfl
    rw [run_bind_of_eq_some hcard, run_bind_of_eq_some hpad, run_bind_of_eq_none (wordLed_word _ ht)]
  · rw [run_bind_of_eq_none (Word.run_cardinality hone t)]

private theorem beginsWithCardinality_rightEnd (m : Option Cardinality)
    (h : m = none → w.text.head? = some '1' → w.text = ['1'] ∧ Stops isWordChar (t.dropWhile isPadding)) :
    (rightEnd w m).cardinality.isSome = true ↔ BeginsWithCardinality ((rightEnd w m).asRight ++ t) := by
  cases m with
  | some d => exact iff_of_true rfl ⟨rightEnd w (some d), rfl, List.prefix_append _ _⟩
  | none =>
    refine iff_of_false (by simp [rightEnd]) (Relation.run_cardinalEnd_eq_none_iff.mp ?_)
    have hpad : padding.run (' ' :: (w.text ++ t)) = some ([' '], w.text ++ t) :=
      run_run0_eq_some_iff.mpr ⟨rfl, by simp, w.isWord.stops_isPadding t⟩
    change Grammar.run (padding >>= fun _ => cardinalName) (' ' :: (w.text ++ t)) = none
    rw [run_bind_of_eq_some hpad, run_cardinalName (h rfl)]

/-- A relation text is read as it is meant, if a digit at the front of its right name is not taken for a
cardinality. -/
theorem run_relationText (ht : Stops isWordChar t)
    (h : m = none → right.text.head? = some '1' → right.text = ['1'] ∧ Stops isWordChar (t.dropWhile isPadding)) :
    Relation.grammar.run (relationText left k a m right ++ t) =
      some (Relation.ofWritten left.text k a m right.text, t) := by
  have hleft (u : Text) : Stops isWordChar ((leftEnd left k).behindName ++ u) := by
    cases k <;> exact stops_cons.mpr isWordChar_space
  have hpreferred : (relationForm left k a m right).Preferred t :=
    RelationForm.preferred_iff.mpr ⟨hleft _, beginsWithCardinality_rightEnd m h, ht⟩
  have hrun := hpreferred.run
  rwa [text_relationForm, relation_relationForm] at hrun

private theorem middle_chars (k : Option Cardinality) (a : Arrow) (m : Option Cardinality) :
    ∀ c ∈ beforeArrow k ++ a.written ++ behindArrow m, c ∈ "\"1* -<>".toList := by
  have hbefore : ∀ c ∈ beforeArrow k, c ∈ "\"1* -<>".toList := by
    match k with
    | none => simp [beforeArrow]
    | some .one => simp [beforeArrow, quoted]
    | some .many => simp [beforeArrow, quoted]
  have hbehind : ∀ c ∈ behindArrow m, c ∈ "\"1* -<>".toList := by
    match m with
    | none => simp [behindArrow]
    | some .one => simp [behindArrow, quoted]
    | some .many => simp [behindArrow, quoted]
  have harrow : ∀ c ∈ a.written, c ∈ "\"1* -<>".toList := by
    cases a <;> simp [Arrow.written]
  intro c hc
  rcases List.mem_append.mp hc with hc | hc
  · rcases List.mem_append.mp hc with hc | hc
    · exact hbefore c hc
    · exact harrow c hc
  · exact hbehind c hc

private theorem middle_no_abstract : ¬ "abstract".toList <:+: beforeArrow k ++ a.written ++ behindArrow m := by
  intro h
  have hm : 'a' ∈ beforeArrow k ++ a.written ++ behindArrow m := h.subset (by decide)
  exact absurd (middle_chars k a m _ hm) (by decide)

/-- No word follows the left name directly, blanks apart. -/
theorem stops_middle (k : Option Cardinality) (a : Arrow) (m : Option Cardinality) (t : Text) :
    Stops isWordChar ((' ' :: (beforeArrow k ++ a.written ++ behindArrow m ++ t)).dropWhile isBlank) := by
  have harrow (u : Text) : Stops isWordChar ((' ' :: (a.written ++ u)).dropWhile isBlank) := by
    cases a <;> exact stops_cons.mpr (by decide)
  simp only [List.append_assoc]
  match k with
  | none => exact harrow _
  | some .one => exact stops_cons.mpr isWordChar_quote
  | some .many => exact stops_cons.mpr isWordChar_quote

/-- A relation holds no mark, even if its names are keywords, and its right name begins none. -/
theorem marks_relationText (ht : Stops isWordChar t) (h : (afterBlanks markedName).run t = none) :
    abstractMark.scan (relationText left k a m right ++ t) = abstractMark.scan t := by
  have hk := keyworded_abstractMark
  rw [relationText_append, hk.scan_word_cons left.isWord.chars (by simp)
      (fun _ => keyworded_markedName.wordLed.run_afterBlanks (stops_middle _ _ _ _)),
    hk.scan_of_absent middle_no_abstract (by simp), hk.wordLed.scan_cons (by simp),
    hk.scan_word right.isWord.chars ht fun _ => h]

theorem relationText_no_brace : '\x7b' ∉ relationText left k a m right := by
  intro h
  simp only [relationText, List.mem_append (s := left.text), List.mem_cons,
    List.mem_append (s := beforeArrow k ++ a.written ++ behindArrow m)] at h
  rcases h with h | h | h | h | h
  · exact left.isWord.not_mem (by simp) h
  · revert h; decide
  · exact absurd (middle_chars k a m _ h) (by decide)
  · revert h; decide
  · exact right.isWord.not_mem (by simp) h

end
end ClassNotation.Canonical
