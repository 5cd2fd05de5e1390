import ClassNotation.Proofs.CanonicalScans
import ClassNotation.Proofs.RelationPhrases

/-! The relation scan over canonical documents, and the scan for marks over relation lines. No item
has two hyphens in a row, so every arrow stands in a relation line. -/
namespace ClassNotation.Canonical
open Grammar

private theorem infix_append_cons {k x y : Text} {c : Char} (hc : c ∉ k) (h : k <:+: x ++ c :: y) :
    k <:+: x ∨ k <:+: y := by
  obtain ⟨s, t, he⟩ := h
  rw [List.append_assoc] at he
  rcases List.append_eq_append_iff.mp he with ⟨l, hx, ht⟩ | ⟨l, hs, ht⟩
  · obtain ⟨v, rfl, -⟩ := append_eq_append_cons ht.symm hc
    left
    exact ⟨s, v, by simp [hx]⟩
  · cases l with
    | nil =>
      rw [List.nil_append] at ht
      cases k with
      | nil => exact Or.inl (List.nil_infix)
      | cons d k =>
        obtain ⟨rfl, -⟩ := List.cons.inj ht
        simp at hc
    | cons d l =>
      obtain ⟨-, rfl⟩ := List.cons.inj ht
      right
      exact ⟨l, t, by simp⟩

theorem hyphen_mem_of_hyphens {t : Text} (h : "--".toList <:+: t) : '-' ∈ t := h.subset (by decide)

private theorem hyphen_mem_of_hyphens_cons {c : Char} {t : Text} (h : "--".toList <:+: c :: t) : '-' ∈ t := by
  rcases List.infix_cons_iff.mp h with hp | hi
  · exact (List.cons_prefix_cons.mp hp).2.subset (by decide)
  · exact hyphen_mem_of_hyphens hi

theorem Word.no_hyphen (w : Word) : '-' ∉ w.text := w.isWord.not_mem (by simp)

namespace MemberLine
variable {owner : Word}

private theorem core_no_hyphens (m : MemberLine owner) : ¬ "--".toList <:+: m.core := by
  have hhead (c : Char) (w : Word) : ¬ "--".toList <:+: c :: w.text :=
    fun h => w.no_hyphen (hyphen_mem_of_hyphens_cons h)
  have hlist (ps : Parameters) : ¬ "--".toList <:+: ps.text ++ [')'] := by
    intro h
    rcases infix_append_cons (by decide) h with h | h
    · exact ps.inert.noHyphens h
    · simpa using hyphen_mem_of_hyphens h
  intro h
  cases m with
  | ofAttribute a type name =>
    rcases infix_append_cons (x := a.symbol :: type.text) (by decide) h with h | h
    · exact hhead _ type h
    · exact name.no_hyphen (hyphen_mem_of_hyphens h)
  | ofMethod a type name ps =>
    rcases infix_append_cons (x := a.symbol :: type.text) (by decide) h with h | h
    · exact hhead _ type h
    · rcases infix_append_cons (by decide) h with h | h
      · exact name.no_hyphen (hyphen_mem_of_hyphens h)
      · exact hlist ps h
  | ofConstructor a ps =>
    rcases infix_append_cons (x := a.symbol :: owner.text) (by decide) h with h | h
    · exact hhead _ owner h
    · exact hlist ps h

private theorem flatMap_no_hyphens (ms : List (MemberLine owner)) : ¬ "--".toList <:+: ms.flatMap written := by
  induction ms with
  | nil => exact fun h => by simpa using hyphen_mem_of_hyphens h
  | cons m ms ih =>
    rw [List.flatMap_cons, written_eq]
    intro h
    rcases infix_append_cons (x := []) (by decide) h with h | h
    · simpa using hyphen_mem_of_hyphens h
    · rcases infix_append_cons (x := ' ' :: m.core) (by decide) h with h | h
      · rcases infix_append_cons (x := []) (by decide) h with h | h
        · simpa using hyphen_mem_of_hyphens h
        · exact m.core_no_hyphens h
      · exact ih h

end MemberLine

namespace ClassItem

def front (c : ClassItem) : Text :=
  ((if c.isAbstract then "abstract ".toList else []) ++ "class ".toList ++ c.name.text ++ c.clause) ++
    ' ' :: '\x7b' :: '\n' :: c.members.flatMap MemberLine.written

private theorem written_eq_front (c : ClassItem) (t : Text) : c.written ++ t = c.front ++ '\x7d' :: '\n' :: t := by
  have ho : " \x7b".toList = [' ', '\x7b'] := rfl
  have he : "\x7d\n".toList = ['\x7d', '\n'] := rfl
  have hb : c.body = '\n' :: c.members.flatMap MemberLine.written := rfl
  change (if c.isAbstract then "abstract ".toList else []) ++ "class ".toList ++ c.name.text ++ c.clause ++
    " \x7b".toList ++ c.body ++ "\x7d\n".toList ++ t = _
  rw [ho, he, hb, front]
  simp only [List.append_assoc, List.cons_append, List.nil_append]

private theorem front_no_hyphens (c : ClassItem) : ¬ "--".toList <:+: c.front := by
  have hclause : '-' ∉ c.clause := by
    unfold clause
    cases c.parent with
    | none => simp
    | some p =>
      intro h
      rcases List.mem_append.mp h with h | h
      · revert h; decide
      · exact p.no_hyphen h
  have hmark : '-' ∉ (if c.isAbstract then "abstract ".toList else []) := by
    split <;> decide
  intro h
  rcases infix_append_cons (by decide) h with h | h
  · have hm := hyphen_mem_of_hyphens h
    simp only [List.mem_append] at hm
    rcases hm with ((hm | hm) | hm) | hm
    · exact hmark hm
    · revert hm; decide
    · exact c.name.no_hyphen hm
    · exact hclause hm
  · rcases infix_append_cons (x := ['\x7b']) (by decide) h with h | h
    · simpa using hyphen_mem_of_hyphens h
    · exact MemberLine.flatMap_no_hyphens c.members h

theorem relations_written (c : ClassItem) (t : Text) :
    Relation.grammar.scan (c.written ++ t) = Relation.grammar.scan t := by
  rw [written_eq_front, Relation.scan_of_absent c.front_no_hyphens (by decide), scan_itemEnd Relation.wordLed]

end ClassItem

namespace EnumItem

theorem relations_written (e : EnumItem) (t : Text) :
    Relation.grammar.scan (e.written ++ t) = Relation.grammar.scan t := by
  have hfront : ¬ "--".toList <:+: "enum".toList ++ ' ' :: (e.name.text ++ ' ' :: '\x7b' :: e.values.text) := by
    intro h
    rcases infix_append_cons (by decide) h with h | h
    · revert h; decide
    · rcases infix_append_cons (by decide) h with h | h
      · exact e.name.no_hyphen (hyphen_mem_of_hyphens h)
      · rcases infix_append_cons (x := []) (by decide) h with h | h
        · simpa using hyphen_mem_of_hyphens h
        · exact e.values.inert.noHyphens h
  have hsplit : e.written ++ t =
      ("enum".toList ++ ' ' :: (e.name.text ++ ' ' :: '\x7b' :: e.values.text)) ++ '\x7d' :: '\n' :: t := by
    rw [written_append, enumPhrase_eq]
    simp only [List.append_assoc, List.cons_append]
  rw [hsplit, Relation.scan_of_absent hfront (by decide), scan_itemEnd Relation.wordLed]

end EnumItem

namespace RelationLine

private theorem written_append (r : RelationLine) (t : Text) :
    r.written ++ t =
      relationText r.left r.leftCardinality r.arrow r.rightCardinality r.right ++ '\n' :: t := by
  have hb : " ".toList = [' '] := rfl
  have hn : "\n".toList = ['\n'] := rfl
  have harrow : arrowText r.arrow = r.arrow.written := by cases r.arrow <;> rfl
  change r.left.text ++ " ".toList ++ r.middle ++ " ".toList ++ r.right.text ++ "\n".toList ++ t = _
  rw [hb, hn, relationText, middle, harrow]
  simp only [List.append_assoc, List.cons_append, List.nil_append]

/-- A relation line is read as the relation that it stands for. -/
theorem run_written (r : RelationLine) (t : Text) :
    Relation.grammar.run (r.written ++ t) = some (r.relation, '\n' :: t) := by
  have hofWritten : Relation.ofWritten r.left.text r.leftCardinality r.arrow r.rightCardinality r.right.text =
      r.relation := by
    unfold relation
    cases r.arrow <;> rfl
  rw [written_append, run_relationText (by simp) fun hk hone => absurd hone (r.unglued hk), hofWritten]

theorem relations_written (r : RelationLine) (t : Text) :
    Relation.grammar.scan (r.written ++ t) = r.relation :: Relation.grammar.scan t := by
  rw [Relation.wordLed.scan_of_run (r.run_written t) (by simp), Relation.wordLed.scan_cons (by simp)]

private theorem run_markedName_newline (rs : List RelationLine) :
    (afterBlanks markedName).run ('\n' :: rs.flatMap written) = none := by
  -- the line break before a relation line completes no mark, even if the left name is a keyword
  cases rs with
  | nil => exact keyworded_markedName.wordLed.run_afterBlanks (by simp)
  | cons r rs =>
    rw [List.flatMap_cons, written_append, relationText_append, run_afterBlanks_word isBlank_newline r.left.isWord,
      keyworded_markedName.run_append r.left.isWord.chars (by simp),
      wordLed_word.run_afterBlanks (stops_middle _ _ _ _), ite_self]

theorem marks_flatMap (rs : List RelationLine) : abstractMark.scan (rs.flatMap written) = [] := by
  induction rs with
  | nil => rfl
  | cons r rs ih =>
    rw [List.flatMap_cons, written_append, marks_relationText (by simp) (run_markedName_newline rs),
      keyworded_abstractMark.wordLed.scan_cons (by simp), ih]

/-- Relation lines open no brace. -/
theorem no_brace (rs : List RelationLine) : '\x7b' ∉ rs.flatMap written := by
  intro h
  obtain ⟨r, -, hr⟩ := List.mem_flatMap.mp h
  rw [← List.append_nil r.written, r.written_append, List.mem_append] at hr
  rcases hr with hr | hr
  · exact relationText_no_brace hr
  · revert hr; decide

end RelationLine
end ClassNotation.Canonical
