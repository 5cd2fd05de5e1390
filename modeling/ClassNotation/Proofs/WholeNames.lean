import ClassNotation.Proofs.MarkPieces
import ClassNotation.Proofs.RelationReadings
import ClassNotation.Proofs.ScanPlaces

/-! Scans never return part of a name. Most names stand between blanks and are read to their end, but a
relation begins with a name, and the scan tries it in the middle of words too. There it finds nothing
new: a relation that can be read from inside a word can be read from every earlier place of that word,
and the scan has come to none of them in the middle of a word. -/
namespace ClassNotation
open Grammar

/-- The word stands in the document behind the given front piece, and neither goes on there nor is the
rest of a longer word. -/
def WholeBehind (document front w : Text) : Prop :=
  ∃ after, document = front ++ (w ++ after) ∧ MaximalRun isWordChar front w after

private theorem IsGap.wholeBehind {document front gap w after : Text} (hgap : IsGap gap) (hw : IsWord w)
    (hafter : Stops isWordChar after) (h : document = front ++ (gap ++ (w ++ after))) :
    WholeBehind document (front ++ gap) w := by
  have hreverse : IsGap gap.reverse := ⟨by simpa using hgap.ne_nil, fun c hc => hgap.blank c (List.mem_reverse.mp hc)⟩
  refine ⟨after, by simpa using h, hw.maximalRun ?_ hafter⟩
  rw [List.reverse_append]
  exact hreverse.stops_isWordChar front.reverse

namespace Grammar
variable {α : Type}

/-- A grammar that starts with a word and reads to the end of a word. What it reads from inside a word
does not depend on where in the word it starts. -/
structure WordBound (g : Grammar α) : Prop where
  wordLed : WordLed g
  stops : ∀ s a r, g.run s = some (a, r) → Stops isWordChar r
  extends_left : ∀ c s out, isWordChar c = true → g.run s = some out → (g.run (c :: s)).isSome = true

namespace WordBound
variable {g : Grammar α}

private theorem run_eq_none (hg : WordBound g) {c : Char} {s : Text} (hc : isWordChar c = true)
    (hpass : ∀ a r, g.run (c :: s) = some (a, r) → r = c :: s) : g.run s = none := by
  rw [Option.eq_none_iff_forall_ne_some]
  intro out hout
  obtain ⟨⟨a, r⟩, hrun⟩ := Option.isSome_iff_exists.mp (hg.extends_left c s out hc hout)
  have hstops := hg.stops _ a r hrun
  rw [hpass a r hrun, stops_cons, hc] at hstops
  cases hstops

/-- The scan is in the middle of a word only where nothing can be read, so no reading starts there. -/
theorem stops_take_start (hg : WordBound g) (before : Text) {s : Text}
    (h : Stops isWordChar before.reverse ∨ g.run s = none) {reading : Reading α}
    (hm : reading ∈ (g.located (before ++ s).length).scan s) :
    Stops isWordChar ((before ++ s).take reading.start).reverse := by
  induction s using scan_induction g generalizing before with
  | nil => simp at hm
  | pass c s hpass ih =>
    have hsplit : before ++ c :: s = (before ++ [c]) ++ s := by simp
    rw [scan_located_cons hpass] at hm
    rw [hsplit] at hm ⊢
    apply ih _ _ hm
    by_cases hc : isWordChar c = true
    · exact Or.inr (hg.run_eq_none hc hpass)
    · left
      rw [List.reverse_append]
      exact stops_cons.mpr (by simpa using hc)
  | read s a r hrun hlt ih =>
    rw [scan_of_run_eq_some (run_located hrun) hlt] at hm
    rcases List.mem_cons.mp hm with rfl | hm
    · have hfront : (before ++ s).take ((before ++ s).length - s.length) = before := by simp
      rcases h with hstops | hnone
      · rw [hfront]
        exact hstops
      · rw [hrun] at hnone
        cases hnone
    · obtain ⟨x, rfl⟩ := g.rest_suffix hrun
      rw [← List.append_assoc] at hm ⊢
      exact ih _ (Or.inr (hg.wordLed r (hg.stops _ a r hrun))) hm

/-- No reading of a scan starts in the middle of a word. -/
theorem stops_before (hg : WordBound g) {document : Text} {reading : Reading α} (h : reading ∈ g.readings document) :
    Stops isWordChar (document.take reading.start).reverse :=
  hg.stops_take_start [] (Or.inl stops_nil) h

end WordBound
end Grammar

section
variable {α : Type} {g : Grammar α} {document : Text} {reading : Reading α}

private theorem Grammar.take_append_drop_reading (h : reading ∈ g.readings document) :
    ∃ t, document = document.take reading.start ++ (t ++ document.drop reading.stop) ∧
      document.take reading.stop = document.take reading.start ++ t ∧
      g.run (t ++ document.drop reading.stop) = some (reading.result, document.drop reading.stop) := by
  obtain ⟨-, -, hrun⟩ := run_of_mem_readings h
  obtain ⟨t, ht⟩ := g.rest_suffix hrun
  have hdocument : document = document.take reading.start ++ (t ++ document.drop reading.stop) := by
    rw [ht, List.take_append_drop]
  refine ⟨t, hdocument, ?_, ?_⟩
  · have hcut : document.take reading.stop ++ document.drop reading.stop =
        (document.take reading.start ++ t) ++ document.drop reading.stop := by
      rw [List.take_append_drop, List.append_assoc, ← hdocument]
    exact List.append_cancel_right hcut
  · rw [ht]
    exact hrun

end

def ClassHeader.NamesWhole (document : Text) (reading : Reading ClassHeader) : Prop :=
  ∃ gap, IsGap gap ∧ WholeBehind document (document.take reading.start ++ "class".toList ++ gap) reading.result.name ∧
    ∀ p ∈ reading.result.parent, ∃ gap₁ gap₂, IsGap gap₁ ∧ IsGap gap₂ ∧
      WholeBehind document (document.take reading.start ++ "class".toList ++ gap ++ reading.result.name ++ gap₁ ++
        "extends".toList ++ gap₂) p

private theorem ClassHeader.namesWhole {document : Text} {reading : Reading ClassHeader}
    (h : reading ∈ ClassHeader.grammar.readings document) : ClassHeader.NamesWhole document reading := by
  obtain ⟨t, hdocument, -, hrun⟩ := take_append_drop_reading h
  obtain ⟨gap, clause, space, ht, hgap, hname, hclause, hspace, -⟩ := ClassHeader.run_eq_some_iff.mp hrun
  have hbrace : Stops isWordChar (space ++ '\x7b' :: (reading.result.body ++ '\x7d' :: document.drop reading.stop)) :=
    stops_isWordChar_of_brace hspace
  rw [ht] at hdocument
  refine ⟨gap, hgap, hgap.wholeBehind hname (hclause.stops_isWordChar hspace) (by simpa using hdocument), fun p hp => ?_⟩
  rw [hp] at hclause
  obtain ⟨gap₁, gap₂, rfl, hgap₁, hgap₂, hparent⟩ := hclause
  exact ⟨gap₁, gap₂, hgap₁, hgap₂, hgap₂.wholeBehind hparent hbrace (by simpa using hdocument)⟩

def EnumHeader.NameWhole (document : Text) (reading : Reading EnumHeader) : Prop :=
  ∃ gap, IsGap gap ∧ WholeBehind document (document.take reading.start ++ "enum".toList ++ gap) reading.result.name

private theorem EnumHeader.nameWhole {document : Text} {reading : Reading EnumHeader}
    (h : reading ∈ EnumHeader.grammar.readings document) : EnumHeader.NameWhole document reading := by
  obtain ⟨t, hdocument, -, hrun⟩ := take_append_drop_reading h
  obtain ⟨gap, space, ht, hgap, hname, hspace, -⟩ := EnumHeader.run_eq_some_iff.mp hrun
  have hbrace : Stops isWordChar (space ++ '\x7b' :: (reading.result.body ++ '\x7d' :: document.drop reading.stop)) :=
    stops_isWordChar_of_brace hspace
  rw [ht] at hdocument
  exact ⟨gap, hgap, hgap.wholeBehind hname hbrace (by simpa using hdocument)⟩

def MarkWhole (document : Text) (reading : Reading Text) : Prop :=
  ∃ gap₁ gap₂, IsGap gap₁ ∧ IsGap gap₂ ∧
    WholeBehind document (document.take reading.start ++ "abstract".toList ++ gap₁ ++ "class".toList ++ gap₂) reading.result

private theorem markWhole {document : Text} {reading : Reading Text} (h : reading ∈ abstractMark.readings document) :
    MarkWhole document reading := by
  obtain ⟨t, hdocument, -, hrun⟩ := take_append_drop_reading h
  obtain ⟨gap₁, gap₂, ht, hgap₁, hgap₂, hname, hstops⟩ := run_abstractMark_eq_some_iff.mp hrun
  rw [ht] at hdocument
  exact ⟨gap₁, gap₂, hgap₁, hgap₂, hgap₂.wholeBehind hname hstops (by simpa using hdocument)⟩

namespace Relation

def left (r : Relation) : Text :=
  match r.arrow with
  | .backward => r.target
  | .forward | .plain => r.source

def right (r : Relation) : Text :=
  match r.arrow with
  | .backward => r.source
  | .forward | .plain => r.target

def rightCardinality (r : Relation) : Option Cardinality :=
  match r.arrow with
  | .backward => r.sourceCardinality
  | .forward | .plain => r.targetCardinality

variable {l r : Text} {k m : Option Cardinality} {a : Arrow}

@[simp] theorem left_ofWritten : (ofWritten l k a m r).left = l := by cases a <;> rfl

@[simp] theorem right_ofWritten : (ofWritten l k a m r).right = r := by cases a <;> rfl

@[simp] theorem rightCardinality_ofWritten : (ofWritten l k a m r).rightCardinality = m := by cases a <;> rfl

end Relation

/-- The left name stands whole where the relation begins, and the right one where it ends. There the
digit may stand directly before the name as its cardinality, and then the two of them are a whole word. -/
def Relation.NamesWhole (document : Text) (reading : Reading Relation) : Prop :=
  WholeBehind document (document.take reading.start) reading.result.left ∧
    ∃ front, (document.take reading.stop = front ++ reading.result.right ∧
        WholeBehind document front reading.result.right) ∨
      (document.take reading.stop = front ++ '1' :: reading.result.right ∧
        reading.result.rightCardinality = some .one ∧ WholeBehind document front ('1' :: reading.result.right))

/-- A relation can be read from one place further left in the word with which it begins. -/
theorem RelationForm.run_cons {f : RelationForm} {r : Text} (hf : f.Preferred r) {c : Char} (hc : isWordChar c = true) :
    (Relation.grammar.run (c :: (f.text ++ r))).isSome = true := by
  let longer : RelationForm := { f with left := { f.left with name := c :: f.left.name, isWord := f.left.isWord.cons hc } }
  have hlonger : longer.Preferred r := preferred_iff.mpr ((preferred_iff (f := f)).mp hf)
  have htext : c :: (f.text ++ r) = longer.text ++ r := rfl
  rw [htext, hlonger.run]
  rfl

private theorem Relation.wordBound : WordBound Relation.grammar where
  wordLed := Relation.wordLed
  stops s x r h := by
    obtain ⟨f, -, hf, -⟩ := RelationForm.exists_preferred_of_run h
    exact (RelationForm.preferred_iff.mp hf).2.2
  extends_left c s out hc h := by
    obtain ⟨f, rfl, hf, -⟩ := RelationForm.exists_preferred_of_run h
    exact RelationForm.run_cons hf hc

private theorem Stops.reverse_append_padding {t p : Text} (ht : Stops isWordChar t.reverse)
    (hp : ∀ c ∈ p, isPadding c = true) :
    Stops isWordChar (t ++ p).reverse := by
  rw [List.reverse_append]
  exact ht.padding_append fun c hc => hp c (List.mem_reverse.mp hc)

private theorem Arrow.stops_reverse_append (a : Arrow) (t : Text) : Stops isWordChar (t ++ a.written).reverse := by
  rw [List.reverse_append]
  cases a <;> exact stops_cons.mpr (by decide)

/-- No word goes on from the arrow and what follows it into the right name, unless from the digit. -/
theorem RelationEnd.stops_or_glued (e : RelationEnd) {t : Text} (ht : Stops isWordChar t.reverse) :
    ∃ front, (t ++ e.asRight = front ++ e.name ∧ Stops isWordChar front.reverse) ∨
      (t ++ e.asRight = front ++ '1' :: e.name ∧ e.cardinality = some .one ∧ Stops isWordChar front.reverse) := by
  have hinner := ht.reverse_append_padding e.inner_padding
  match hk : e.cardinality with
  | none =>
    refine ⟨t ++ e.inner ++ e.outer, Or.inl ⟨?_, hinner.reverse_append_padding e.outer_padding⟩⟩
    simp [asRight, hk, Cardinality.written]
  | some .many =>
    have hstar : Stops isWordChar (t ++ e.inner ++ ['*']).reverse := by
      rw [List.reverse_append]
      exact stops_cons.mpr (by decide)
    refine ⟨t ++ e.inner ++ ['*'] ++ e.outer, Or.inl ⟨?_, hstar.reverse_append_padding e.outer_padding⟩⟩
    simp [asRight, hk, Cardinality.written, Cardinality.symbol]
  | some .one =>
    by_cases houter : e.outer = []
    · refine ⟨t ++ e.inner, Or.inr ⟨?_, rfl, hinner⟩⟩
      simp [asRight, hk, houter, Cardinality.written, Cardinality.symbol]
    · refine ⟨t ++ e.inner ++ ['1'] ++ e.outer, Or.inl ⟨?_, ?_⟩⟩
      · simp [asRight, hk, Cardinality.written, Cardinality.symbol]
      · rw [List.reverse_append]
        exact stops_isWordChar_of_padding (fun c hc => e.outer_padding c (List.mem_reverse.mp hc))
          (by simpa using houter) _

private theorem Relation.namesWhole {document : Text} {reading : Reading Relation}
    (h : reading ∈ Relation.grammar.readings document) : Relation.NamesWhole document reading := by
  have hstart := Relation.wordBound.stops_before h
  obtain ⟨t, hdocument, htake, hrun⟩ := take_append_drop_reading h
  obtain ⟨f, ht, hf, hresult⟩ := RelationForm.exists_preferred_of_run hrun
  obtain rfl := List.append_cancel_right ht
  obtain ⟨hleft, -, hright⟩ := RelationForm.preferred_iff.mp hf
  unfold Relation.NamesWhole
  rw [hresult, RelationForm.relation, left_ofWritten, right_ofWritten, rightCardinality_ofWritten]
  refine ⟨⟨_, ?_, f.left.isWord.maximalRun hstart hleft⟩, ?_⟩
  · rw [← f.text_append]
    exact hdocument
  · -- up to the right name the reading ends in the arrow
    have harrow := f.arrow.stops_reverse_append (document.take reading.start ++ f.left.asLeft)
    have hcut : document = document.take reading.stop ++ document.drop reading.stop :=
      (List.take_append_drop ..).symm
    have hstop : document.take reading.stop =
        document.take reading.start ++ f.left.asLeft ++ f.arrow.written ++ f.right.asRight := by
      rw [htake, RelationForm.text]
      simp
    obtain ⟨front, hfront⟩ := f.right.stops_or_glued harrow
    rw [← hstop] at hfront
    refine ⟨front, hfront.imp ?_ ?_⟩
    · rintro ⟨he, hstops⟩
      refine ⟨he, _, ?_, f.right.isWord.maximalRun hstops hright⟩
      rw [← List.append_assoc, ← he]
      exact hcut
    · rintro ⟨he, hone, hstops⟩
      have hword : IsWord ('1' :: f.right.name) := f.right.isWord.cons (by decide)
      refine ⟨he, hone, _, ?_, hword.maximalRun hstops hright⟩
      rw [← List.append_assoc, ← he]
      exact hcut

/-- Every name that a scan finds is a whole word of the document where it was read: the characters next
to it, if there are any, belong to no word. Only a right name to which the digit is attached as its
cardinality is not, and then the digit and the name are. -/
theorem scans_find_whole_names (document : Text) :
    ((ClassHeader.grammar.readings document).map Reading.result = ClassHeader.grammar.scan document ∧
      ∀ reading ∈ ClassHeader.grammar.readings document, ClassHeader.NamesWhole document reading) ∧
    ((EnumHeader.grammar.readings document).map Reading.result = EnumHeader.grammar.scan document ∧
      ∀ reading ∈ EnumHeader.grammar.readings document, EnumHeader.NameWhole document reading) ∧
    ((abstractMark.readings document).map Reading.result = abstractMark.scan document ∧
      ∀ reading ∈ abstractMark.readings document, MarkWhole document reading) ∧
    ((Relation.grammar.readings document).map Reading.result = Relation.grammar.scan document ∧
      ∀ reading ∈ Relation.grammar.readings document, Relation.NamesWhole document reading) :=
  ⟨⟨map_result_readings _ _, fun _ => ClassHeader.namesWhole⟩, ⟨map_result_readings _ _, fun _ => EnumHeader.nameWhole⟩,
    ⟨map_result_readings _ _, fun _ => markWhole⟩, ⟨map_result_readings _ _, fun _ => Relation.namesWhole⟩⟩

/-- One reading of each scan. The digit is part of the left name and the cardinality of the right one. -/
theorem scans_find_whole_names_digits :
    let document := "abstract class A1 extends enum \x7b\x7d A1--1B enum E \x7b\x7d".toList
    let header : Reading ClassHeader := ⟨9, 33, ⟨"A1".toList, some "enum".toList, []⟩⟩
    let enumHeader : Reading EnumHeader := ⟨41, 50, ⟨"E".toList, []⟩⟩
    let mark : Reading Text := ⟨0, 17, "A1".toList⟩
    let relation : Reading Relation := ⟨34, 40, .ofWritten "A1".toList none .plain (some .one) "B".toList⟩
    (header ∈ ClassHeader.grammar.readings document ∧ ClassHeader.NamesWhole document header) ∧
    (enumHeader ∈ EnumHeader.grammar.readings document ∧ EnumHeader.NameWhole document enumHeader) ∧
    (mark ∈ abstractMark.readings document ∧ MarkWhole document mark) ∧
    (relation ∈ Relation.grammar.readings document ∧ Relation.NamesWhole document relation) := by
  intro document header enumHeader mark relation
  obtain ⟨⟨-, hheaders⟩, ⟨-, henums⟩, ⟨-, hmarks⟩, ⟨-, hrelations⟩⟩ := scans_find_whole_names document
  have hheader : header ∈ ClassHeader.grammar.readings document := by decide
  have henum : enumHeader ∈ EnumHeader.grammar.readings document := by decide
  have hmark : mark ∈ abstractMark.readings document := by decide
  have hrelation : relation ∈ Relation.grammar.readings document := by decide
  exact ⟨⟨hheader, hheaders _ hheader⟩, ⟨henum, henums _ henum⟩, ⟨hmark, hmarks _ hmark⟩,
    ⟨hrelation, hrelations _ hrelation⟩⟩

end ClassNotation
