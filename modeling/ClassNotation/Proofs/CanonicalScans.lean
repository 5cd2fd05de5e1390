import ClassNotation.Proofs.CanonicalDocument
import ClassNotation.Proofs.HeaderPhrases

/-! The scans for headers and marks over canonical documents. Each of them also runs through the
text that belongs to the others, and finds nothing there: a name may end in a keyword, but what
follows it never fits. -/
namespace ClassNotation.Canonical
open Grammar

/-- A member line has no brace and, but for its end, no newline. -/
theorem MemberLine.core_plain {owner : Word} (m : MemberLine owner) :
    ∀ c ∈ m.core, c ≠ '\x7b' ∧ c ≠ '\x7d' ∧ c ≠ '\n' := by
  have hword (w : Word) (c : Char) (hc : c ∈ w.text) : c ≠ '\x7b' ∧ c ≠ '\x7d' ∧ c ≠ '\n' := by
    refine ⟨?_, ?_, ?_⟩ <;> rintro rfl <;> exact w.isWord.not_mem (by decide) hc
  have hsymbol (a : Access) : a.symbol ≠ '\x7b' ∧ a.symbol ≠ '\x7d' ∧ a.symbol ≠ '\n' := by
    cases a <;> decide
  have hparameters (ps : Parameters) (c : Char) (hc : c ∈ ps.text) : c ≠ '\x7b' ∧ c ≠ '\x7d' ∧ c ≠ '\n' :=
    (ps.plain c hc).2
  intro c hc
  cases m with
  | ofAttribute a type name =>
    simp only [core, List.mem_cons, List.mem_append] at hc
    rcases hc with rfl | hc | rfl | hc
    · exact hsymbol a
    · exact hword type c hc
    · decide
    · exact hword name c hc
  | ofMethod a type name ps =>
    simp only [core, List.mem_cons, List.mem_append, List.not_mem_nil, or_false] at hc
    rcases hc with rfl | hc | rfl | hc | rfl | hc | rfl
    · exact hsymbol a
    · exact hword type c hc
    · decide
    · exact hword name c hc
    · decide
    · exact hparameters ps c hc
    · decide
  | ofConstructor a ps =>
    simp only [core, List.mem_cons, List.mem_append, List.not_mem_nil, or_false] at hc
    rcases hc with rfl | hc | rfl | hc | rfl
    · exact hsymbol a
    · exact hword owner c hc
    · decide
    · exact hparameters ps c hc
    · decide

theorem MemberLine.written_eq {owner : Word} (m : MemberLine owner) (t : Text) :
    m.written ++ t = ' ' :: ' ' :: (m.core ++ '\n' :: t) := by
  have hm : "  ".toList = [' ', ' '] := rfl
  have hn : "\n".toList = ['\n'] := rfl
  change "  ".toList ++ m.core ++ "\n".toList ++ t = _
  rw [hm, hn]
  simp only [List.append_assoc, List.cons_append, List.nil_append]

/-- Nothing is read where an item ends. -/
theorem scan_itemEnd {α : Type} {g : Grammar α} (hg : WordLed g) (t : Text) :
    g.scan ('\x7d' :: '\n' :: t) = g.scan t := by
  rw [hg.scan_cons isWordChar_closeBrace, hg.scan_cons isWordChar_newline]

namespace ClassItem

def header (c : ClassItem) : ClassHeader := ⟨c.name.text, c.parent.map Word.text, c.body⟩

private theorem written_append (c : ClassItem) (t : Text) : c.written ++ t =
    markedPhrase c.isAbstract c.name.text (c.parent.map Word.text) (c.body ++ '\x7d' :: '\n' :: t) := by
  have ha : "abstract ".toList = "abstract".toList ++ [' '] := rfl
  have hc : "class ".toList = "class".toList ++ [' '] := rfl
  have ho : " \x7b".toList = [' ', '\x7b'] := rfl
  have he : "\x7d\n".toList = ['\x7d', '\n'] := rfl
  have hclause : c.clause = parentPhrase (c.parent.map Word.text) := by
    unfold clause
    cases c.parent <;> rfl
  change (if c.isAbstract then "abstract ".toList else []) ++ "class ".toList ++ c.name.text ++ c.clause ++
    " \x7b".toList ++ c.body ++ "\x7d\n".toList ++ t = _
  rw [markedPhrase, classPhrase_eq, hclause, ha, hc, ho, he]
  split <;> simp only [List.append_assoc, List.cons_append, List.nil_append]

private theorem isWord_parent (c : ClassItem) : ∀ p ∈ c.parent.map Word.text, IsWord p := by
  intro p hp
  obtain ⟨w, -, rfl⟩ := Option.map_eq_some_iff.mp hp
  exact w.isWord

private theorem body_plain (c : ClassItem) : ∀ x ∈ c.body, x ≠ '\x7b' ∧ x ≠ '\x7d' := by
  intro x hx
  rcases List.mem_append.mp hx with hx | hx
  · have hx : x = '\n' := by simpa using hx
    subst hx
    decide
  · obtain ⟨m, -, hm⟩ := List.mem_flatMap.mp hx
    rw [← List.append_nil m.written, m.written_eq] at hm
    simp only [List.mem_cons, List.mem_append, List.not_mem_nil, or_false] at hm
    rcases hm with rfl | rfl | hm | rfl
    · decide
    · decide
    · exact ⟨(m.core_plain x hm).1, (m.core_plain x hm).2.1⟩
    · decide

/-- The class scan finds the item. -/
theorem classes_written (c : ClassItem) (t : Text) :
    ClassHeader.grammar.scan (c.written ++ t) = c.header :: ClassHeader.grammar.scan t := by
  have hclose : '\x7d' ∉ c.body := fun hm => (c.body_plain _ hm).2 rfl
  rw [written_append, classes_markedPhrase c.name.isWord c.isWord_parent _ hclose,
    ClassHeader.keyworded.wordLed.scan_cons (by simp)]
  rfl

/-- The enum scan passes over the item, its body included. -/
theorem enums_written (c : ClassItem) (t : Text) :
    EnumHeader.grammar.scan (c.written ++ t) = EnumHeader.grammar.scan t := by
  have hopen : '\x7b' ∉ c.body := fun hm => (c.body_plain _ hm).1 rfl
  rw [written_append, enums_markedPhrase c.name.isWord c.isWord_parent, EnumHeader.opensFirst.scan_append hopen,
    scan_itemEnd EnumHeader.keyworded.wordLed]

end ClassItem

namespace EnumItem

def header (e : EnumItem) : EnumHeader := ⟨e.name.text, e.values.text⟩

theorem written_append (e : EnumItem) (t : Text) :
    e.written ++ t = enumPhrase e.name.text (e.values.text ++ '\x7d' :: '\n' :: t) := by
  have hw : "enum ".toList = "enum".toList ++ [' '] := rfl
  have ho : " \x7b".toList = [' ', '\x7b'] := rfl
  have he : "\x7d\n".toList = ['\x7d', '\n'] := rfl
  change "enum ".toList ++ e.name.text ++ " \x7b".toList ++ e.values.text ++ "\x7d\n".toList ++ t = _
  rw [enumPhrase_eq, hw, ho, he]
  simp only [List.append_assoc, List.cons_append, List.nil_append]

/-- The class scan passes over the item, its values included. -/
theorem classes_written (e : EnumItem) (t : Text) :
    ClassHeader.grammar.scan (e.written ++ t) = ClassHeader.grammar.scan t := by
  have hopen : '\x7b' ∉ e.values.text := fun hm => (e.values.plain _ hm).1 rfl
  rw [written_append, classes_enumPhrase e.name.isWord, ClassHeader.opensFirst.scan_append hopen,
    scan_itemEnd ClassHeader.keyworded.wordLed]

/-- The enum scan finds the item. -/
theorem enums_written (e : EnumItem) (t : Text) :
    EnumHeader.grammar.scan (e.written ++ t) = e.header :: EnumHeader.grammar.scan t := by
  have hclose : '\x7d' ∉ e.values.text := fun hm => (e.values.plain _ hm).2 rfl
  rw [written_append, enums_enumPhrase e.name.isWord hclose, EnumHeader.keyworded.wordLed.scan_cons (by simp)]
  rfl

/-- The scan for marks passes over the item. -/
theorem marks_written (e : EnumItem) (t : Text) :
    abstractMark.scan (e.written ++ t) = abstractMark.scan t := by
  have hk := keyworded_abstractMark
  rw [written_append, marks_enumPhrase e.name.isWord, hk.scan_of_absent e.values.inert.noAbstract (by simp),
    scan_itemEnd hk.wordLed]

end EnumItem

namespace MemberLine
variable {owner : Word}

private theorem marks_written (m : MemberLine owner) {t : Text} (ht : Stops isWordChar (t.dropWhile isBlank)) :
    abstractMark.scan (m.written ++ t) = abstractMark.scan t := by
  -- a type may be the keyword of a mark, and the name behind it the keyword of a class
  have hk := keyworded_abstractMark
  have hsymbol (a : Access) : isWordChar a.symbol = false := by cases a <;> decide
  -- what a type is followed by, when the name behind it ends a line or is followed by a parenthesis
  have htype (name : Word) (c : Char) (u : Text) (hc : isWordChar c = false)
      (hu : (afterBlanks word).run (c :: u) = none) :
      (afterBlanks markedName).run (' ' :: (name.text ++ c :: u)) = none := by
    rw [run_afterBlanks_word isBlank_space name.isWord,
      keyworded_markedName.run_append name.isWord.chars (by simpa using hc), hu, ite_self]
  rw [written_eq, hk.wordLed.scan_cons (by simp), hk.wordLed.scan_cons (by simp)]
  cases m with
  | ofAttribute a type name =>
    simp only [core, List.cons_append, List.append_assoc]
    rw [hk.wordLed.scan_cons (hsymbol a), hk.scan_word_cons type.isWord.chars (by simp),
      hk.scan_word_cons name.isWord.chars (by simp)]
    · intro _
      exact keyworded_markedName.wordLed.run_afterBlanks (by simpa using ht)
    · intro _
      exact htype name '\n' t (by simp) (wordLed_word.run_afterBlanks (by simpa using ht))
  | ofMethod a type name ps =>
    simp only [core, List.cons_append, List.append_assoc, List.nil_append]
    rw [hk.wordLed.scan_cons (hsymbol a), hk.scan_word_cons type.isWord.chars (by simp),
      hk.scan_word_cons name.isWord.chars (by simp) (fun _ => run_afterBlanks_of_stops (by simp)),
      hk.scan_of_absent ps.inert.noAbstract (by simp), hk.wordLed.scan_cons (by simp), hk.wordLed.scan_cons (by simp)]
    intro _
    exact htype name '(' _ (by simp) (run_afterBlanks_of_stops (by simp))
  | ofConstructor a ps =>
    simp only [core, List.cons_append, List.append_assoc, List.nil_append]
    rw [hk.wordLed.scan_cons (hsymbol a),
      hk.scan_word_cons owner.isWord.chars (by simp) (fun _ => run_afterBlanks_of_stops (by simp)),
      hk.scan_of_absent ps.inert.noAbstract (by simp), hk.wordLed.scan_cons (by simp), hk.wordLed.scan_cons (by simp)]

private theorem stops_flatMap (ms : List (MemberLine owner)) (t : Text) :
    Stops isWordChar ((ms.flatMap written ++ '\x7d' :: t).dropWhile isBlank) := by
  cases ms with
  | nil => simp
  | cons m ms =>
    have hsymbol (a : Access) : isWordChar a.symbol = false ∧ isBlank a.symbol = false := by cases a <;> decide
    rw [List.flatMap_cons, List.append_assoc, written_eq]
    cases m <;> simp [core, hsymbol]

private theorem marks_flatMap (ms : List (MemberLine owner)) (t : Text) :
    abstractMark.scan (ms.flatMap written ++ '\x7d' :: t) = abstractMark.scan t := by
  induction ms with
  | nil => exact keyworded_abstractMark.wordLed.scan_cons (by simp) t
  | cons m ms ih => rw [List.flatMap_cons, List.append_assoc, m.marks_written (stops_flatMap ms t), ih]

end MemberLine

namespace ClassItem

/-- The scan for marks finds the item's own mark and no other. -/
theorem marks_written (c : ClassItem) (t : Text) :
    abstractMark.scan (c.written ++ t) = (if c.isAbstract then [c.name.text] else []) ++ abstractMark.scan t := by
  have hk := keyworded_abstractMark
  have hbody : abstractMark.scan (c.body ++ '\x7d' :: '\n' :: t) = abstractMark.scan t := by
    have hn : c.body = '\n' :: c.members.flatMap MemberLine.written := rfl
    rw [hn, List.cons_append, hk.wordLed.scan_cons (by simp), MemberLine.marks_flatMap, hk.wordLed.scan_cons (by simp)]
  rw [written_append, marks_markedPhrase c.name.isWord c.isWord_parent, hbody]

end ClassItem
end ClassNotation.Canonical
