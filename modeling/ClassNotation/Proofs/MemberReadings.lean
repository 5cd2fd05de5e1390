import ClassNotation.Member
import ClassNotation.Proofs.TextLines

/-! What member lines look like where they are read, and that every member of a body was read of a
piece of one of its lines. -/
namespace ClassNotation
open Grammar

namespace Visibility

private theorem ne_unspecified_of_ofSymbol? {c : Char} {v : Visibility} (h : ofSymbol? c = some v) :
    v ≠ .unspecified := by
  unfold ofSymbol? at h
  split at h
  · cases h; decide
  · cases h; decide
  · cases h; decide
  · cases h

private theorem ne_unspecified_of_run {s r : Text} {v : Visibility} (h : Visibility.grammar.run s = some (v, r)) :
    v ≠ .unspecified := by
  simp only [Visibility.grammar, run_bind_eq_some_iff, run_pure, Option.some.injEq, Prod.mk.injEq] at h
  obtain ⟨found, _, hf, _, _, -, rfl, -⟩ := h
  rcases run_optional_eq_some_iff.mp hf with ⟨w, rfl, hw⟩ | ⟨rfl, -⟩
  · obtain ⟨c, -, hc⟩ := run_oneOf_eq_some_iff.mp hw
    exact ne_unspecified_of_ofSymbol? hc
  · decide

end Visibility

private theorem run_wordPair_append {u w b t : Text} (hu : IsWord u) (hb : IsGap b)
    (hw : IsWord w) (ht : Stops isWordChar t) : wordPair.run (u ++ (b ++ (w ++ t))) = some ((u, w), t) := by
  have hblanks : blanks1.run (b ++ (w ++ t)) = some (b, w ++ t) :=
    run_blanks1_eq_some_iff.mpr ⟨rfl, hb, hw.stops_isBlank t⟩
  unfold wordPair
  rw [run_bind_of_eq_some (run_word_append hu (hb.stops_isWordChar _)),
    run_bind_of_eq_some hblanks, run_bind_of_eq_some (run_word_append hw ht), run_pure]

theorem run_wordPair_eq_some_iff {s u w r : Text} : wordPair.run s = some ((u, w), r) ↔
    ∃ b, s = u ++ (b ++ (w ++ r)) ∧ IsWord u ∧ IsGap b ∧ IsWord w ∧ Stops isWordChar r := by
  constructor
  · intro h
    simp only [wordPair, run_bind_eq_some_iff, run_pure, Option.some.injEq, Prod.mk.injEq] at h
    obtain ⟨_, _, hu, b, _, hb, _, _, hw, ⟨rfl, rfl⟩, rfl⟩ := h
    obtain ⟨rfl, hword, -⟩ := run_word_eq_some_iff.mp hu
    obtain ⟨rfl, hgap, -⟩ := run_blanks1_eq_some_iff.mp hb
    obtain ⟨rfl, hword', hr⟩ := run_word_eq_some_iff.mp hw
    exact ⟨b, rfl, hword, hgap, hword', hr⟩
  · rintro ⟨b, rfl, hu, hb, hw, hr⟩
    exact run_wordPair_append hu hb hw hr

private theorem run_wordPair_of_stops {w t : Text} (hw : IsWord w) (ht : Stops isWordChar t) (hb : Stops isBlank t) :
    wordPair.run (w ++ t) = none := by
  have hblanks : blanks1.run t = none := run_run1_eq_none hb
  unfold wordPair
  rw [run_bind_of_eq_some (run_word_append hw ht), run_bind_of_eq_none hblanks]

namespace Method

theorem run_signature_pair {type name b t : Text} (htype : IsWord type)
    (hb : IsGap b) (hname : IsWord name) (ht : Stops isWordChar t) :
    signature.run (type ++ (b ++ (name ++ t))) = some ((some type, name), t) := by
  refine run_orElse_eq_some_iff.mpr (Or.inl ?_)
  rw [run_bind_of_eq_some (run_wordPair_append htype hb hname ht), run_pure]

theorem run_signature_single {name t : Text} (hname : IsWord name) (ht : Stops isWordChar t)
    (hb : Stops isBlank t) : signature.run (name ++ t) = some ((none, name), t) := by
  refine run_orElse_eq_some_iff.mpr (Or.inr ⟨run_bind_of_eq_none (run_wordPair_of_stops hname ht hb), ?_⟩)
  rw [run_bind_of_eq_some (run_word_append hname ht), run_pure]

private theorem signature_shape {s r name : Text} {type : Option Text}
    (h : signature.run s = some ((type, name), r)) : IsWord name ∧ ∀ u ∈ type, IsWord u := by
  simp only [signature, run_orElse_eq_some_iff, run_bind_eq_some_iff, run_pure, Option.some.injEq,
    Prod.mk.injEq] at h
  rcases h with ⟨⟨u, w⟩, _, hp, ⟨rfl, rfl⟩, -⟩ | ⟨-, w, _, hw, ⟨rfl, rfl⟩, -⟩
  · obtain ⟨-, -, hu, -, hw, -⟩ := run_wordPair_eq_some_iff.mp hp
    exact ⟨hw, by simpa using hu⟩
  · exact ⟨isWord_of_run hw, by simp⟩

theorem run_parameterList_eq_some_iff {s text r : Text} :
    parameterList.run s = some (text, r) ↔ s = '(' :: (text ++ ')' :: r) ∧ ')' ∉ text :=
  run_between_eq_some_iff

/-- A method that was read has an access and a name, and it lacks a type exactly if it is a
constructor. Its parameters stand in the text as they are, in parentheses. -/
theorem shape_of_run {className s r : Text} {m : Method}
    (h : (Method.grammar className).run s = some (m, r)) :
    m.visibility ≠ .unspecified ∧ IsWord m.name ∧ (m.returnType = [] ↔ m.name = className) ∧
      (m.returnType ≠ [] → IsWord m.returnType) ∧ ')' ∉ m.parameters ∧ '(' :: (m.parameters ++ [')']) <:+: s := by
  simp only [Method.grammar, run_bind_eq_some_iff, run_pure, Option.some.injEq, Prod.mk.injEq] at h
  obtain ⟨v, s₁, hv, ⟨type, name⟩, s₂, hs, text, r, hp, rfl, rfl⟩ := h
  have hvis := Visibility.ne_unspecified_of_run hv
  obtain ⟨hname, htype⟩ := signature_shape hs
  have hsub : s₂ <:+ s := (signature.rest_suffix hs).trans (Visibility.grammar.rest_suffix hv)
  obtain ⟨rfl, hclose⟩ := run_parameterList_eq_some_iff.mp hp
  have hlist : '(' :: (text ++ [')']) <:+: s := by
    refine List.IsInfix.trans (List.IsPrefix.isInfix ?_) hsub.isInfix
    exact ⟨r, by simp⟩
  split
  · next he => exact ⟨hvis, hname, iff_of_true rfl he, fun hne => absurd rfl hne, hclose, hlist⟩
  · next he =>
    have hreturn : IsWord (type.getD "void".toList) := by
      cases type with
      | none => exact (by decide : IsWord "void".toList)
      | some u => exact htype u rfl
    exact ⟨hvis, hname, iff_of_false hreturn.ne_nil he, fun _ => hreturn, hclose, hlist⟩

end Method

theorem Attribute.shape_of_run {s r : Text} {a : Attribute} (h : Attribute.grammar.run s = some (a, r)) :
    a.visibility ≠ .unspecified ∧ IsWord a.typeName ∧ IsWord a.name := by
  simp only [Attribute.grammar, run_bind_eq_some_iff, run_pure, Option.some.injEq, Prod.mk.injEq] at h
  obtain ⟨v, _, hv, ⟨u, w⟩, _, hp, rfl, -⟩ := h
  obtain ⟨-, -, hu, -, hw, -⟩ := run_wordPair_eq_some_iff.mp hp
  exact ⟨Visibility.ne_unspecified_of_run hv, hu, hw⟩

namespace Member
variable {className : Text}

theorem ofLine?_of_run_method {s : Text} {m : Method} (h : (Method.grammar className).run s = some (m, [])) :
    ofLine? className s = some (.ofMethod m) := by
  rw [ofLine?, whole_eq_some_iff.mpr h]

theorem run_of_ofLine?_attribute {s : Text} {a : Attribute} (h : ofLine? className s = some (.ofAttribute a)) :
    Attribute.grammar.run s = some (a, []) := by
  unfold ofLine? at h
  split at h
  · cases h
  · obtain ⟨_, ha, he⟩ := Option.map_eq_some_iff.mp h
    cases he
    exact whole_eq_some_iff.mp ha

theorem run_of_ofLine?_method {s : Text} {m : Method} (h : ofLine? className s = some (.ofMethod m)) :
    (Method.grammar className).run s = some (m, []) := by
  unfold ofLine? at h
  split at h
  · next hm =>
    cases h
    exact whole_eq_some_iff.mp hm
  · obtain ⟨_, -, he⟩ := Option.map_eq_some_iff.mp h
    cases he

/-- A line is cut into pieces that stand in it as they are. -/
theorem piecesOf_cutPieces (depth : Nat) (afterBlank : Bool) (t : Text) :
    Text.PiecesOf t (cutPieces depth afterBlank t) := by
  induction t generalizing depth afterBlank with
  | nil => exact ⟨by simp [cutPieces], by simp [cutPieces]⟩
  | cons c t ih =>
    have hpieces := (ih (depthAfter depth c) (isBlank c)).consFirst c
    unfold cutPieces
    split
    · exact .nil_cons hpieces.inside
    · exact hpieces

private theorem infix_of_mem_segments {line piece : Text} (hp : piece ∈ segments line) : piece <:+: line := by
  obtain ⟨uncut, hu, rfl⟩ := List.mem_map.mp (List.mem_filter.mp hp).1
  exact (Text.trim_infix uncut).trans ((piecesOf_cutPieces 0 false line).inside uncut hu)

end Member

namespace Finding
variable {className : Text} {m : Member}

private theorem ofLine?_of_mem_ofLine {line : Text} (h : .member m ∈ ofLine className line) :
    ∃ piece, Member.ofLine? className piece = some m ∧ piece <:+: line := by
  unfold ofLine at h
  split at h
  · next n hn =>
    obtain rfl : m = n := by simpa using h
    exact ⟨line, hn, List.infix_rfl⟩
  · dsimp only at h
    split at h
    · simp at h
    · obtain ⟨piece, hp, hf⟩ := List.mem_map.mp h
      split at hf
      · next n hn =>
        obtain rfl : n = m := by simpa using hf
        exact ⟨piece, hn, Member.infix_of_mem_segments hp⟩
      · cases hf

/-- Every member of a body is the reading of a piece of one of its lines. -/
theorem ofLine?_of_mem_ofBody {body : Text} (h : .member m ∈ ofBody className body) :
    ∃ piece, Member.ofLine? className piece = some m ∧ piece <:+: body ∧ '\n' ∉ piece := by
  obtain ⟨trimmed, ht, hm⟩ := List.mem_flatMap.mp h
  obtain ⟨line, hl, rfl⟩ := List.mem_map.mp (List.mem_filter.mp ht).1
  obtain ⟨piece, hp, hinfix⟩ := ofLine?_of_mem_ofLine hm
  have hline := hinfix.trans (Text.trim_infix line)
  exact ⟨piece, hp, hline.trans ((Text.piecesOf_lines body).inside line hl),
    fun hm => Text.newline_not_mem_of_mem_lines hl (hline.subset hm)⟩

theorem mem_of_mem_attributes {found : List Finding} {a : Attribute} (h : a ∈ attributes found) :
    .member (.ofAttribute a) ∈ found := by
  obtain ⟨f, hf, ha⟩ := List.mem_filterMap.mp h
  obtain ⟨n, hn, ha⟩ := Option.bind_eq_some_iff.mp ha
  cases f <;> cases hn
  cases n <;> cases ha
  exact hf

theorem mem_of_mem_methods {found : List Finding} {m : Method} (h : m ∈ methods found) :
    .member (.ofMethod m) ∈ found := by
  obtain ⟨f, hf, hm⟩ := List.mem_filterMap.mp h
  obtain ⟨n, hn, hm⟩ := Option.bind_eq_some_iff.mp hm
  cases f <;> cases hn
  cases n <;> cases hm
  exact hf

end Finding
end ClassNotation
