import ClassNotation.Relation.Basic
import ClassNotation.Proofs.Scanning

/-! The ways to write a relation, and which of them is read. A text may begin with a relation in
several ways: the digit may be a cardinality or belong to a name on either side, and a name may be cut
short. The grammar decides early and never turns back, yet it fails only where there is no way at all. -/
namespace ClassNotation
open Grammar

private theorem isPadding_eq_false_of_isWordChar {c : Char} (h : isWordChar c = true) : isPadding c = false := by
  have hq : c ≠ '"' := by
    rintro rfl
    simp at h
  simp [isPadding, hq, isBlank_eq_false_of_isWordChar h]

theorem IsWord.stops_isPadding {w : Text} (hw : IsWord w) (t : Text) : Stops isPadding (w ++ t) := by
  obtain ⟨c, w, rfl⟩ := List.exists_cons_of_ne_nil hw.ne_nil
  exact stops_cons.mpr (isPadding_eq_false_of_isWordChar (hw.chars c List.mem_cons_self))

private theorem isWordChar_eq_false_of_isPadding {c : Char} (h : isPadding c = true) : isWordChar c = false := by
  cases hw : isWordChar c with
  | false => rfl
  | true => simp [isPadding_eq_false_of_isWordChar hw] at h

theorem stops_isWordChar_of_padding {p : Text} (hp : ∀ c ∈ p, isPadding c = true) (hne : p ≠ []) (t : Text) :
    Stops isWordChar (p ++ t) := by
  obtain ⟨c, p, rfl⟩ := List.exists_cons_of_ne_nil hne
  exact stops_cons.mpr (isWordChar_eq_false_of_isPadding (hp c List.mem_cons_self))

/-- Where no word goes on, none goes on if padding is put in between. -/
theorem Stops.padding_append {p t : Text} (ht : Stops isWordChar t) (hp : ∀ c ∈ p, isPadding c = true) :
    Stops isWordChar (p ++ t) := by
  by_cases hne : p = []
  · subst hne
    exact ht
  · exact stops_isWordChar_of_padding hp hne t

namespace Cardinality

def symbol : Cardinality → Char
  | one => '1'
  | many => '*'

def written : Option Cardinality → Text
  | none => []
  | some k => [k.symbol]

private theorem ofSymbol?_eq_some_iff {c : Char} {k : Cardinality} : ofSymbol? c = some k ↔ c = k.symbol := by
  constructor
  · intro h
    unfold ofSymbol? at h
    split at h
    · cases h
      rfl
    · cases h
      rfl
    · cases h
  · rintro rfl
    cases k <;> rfl

private theorem isPadding_symbol (k : Cardinality) : isPadding k.symbol = false := by cases k <;> decide

private theorem run_symbol (k : Cardinality) (t : Text) : Cardinality.grammar.run (k.symbol :: t) = some (k, t) :=
  run_oneOf_eq_some_iff.mpr ⟨k.symbol, rfl, ofSymbol?_eq_some_iff.mpr rfl⟩

private theorem eq_cons_of_run {k : Cardinality} {s r : Text} (h : Cardinality.grammar.run s = some (k, r)) :
    s = k.symbol :: r := by
  obtain ⟨c, rfl, hc⟩ := run_oneOf_eq_some_iff.mp h
  rw [ofSymbol?_eq_some_iff.mp hc]

private theorem eq_append_of_run_optional {k : Option Cardinality} {s r : Text}
    (h : Cardinality.grammar.optional.run s = some (k, r)) : s = written k ++ r := by
  rcases run_optional_eq_some_iff.mp h with ⟨d, rfl, hd⟩ | ⟨rfl, -, rfl⟩
  · exact eq_cons_of_run hd
  · rfl

end Cardinality

namespace Arrow

private theorem run_exactly_eq_some_iff {a b : Arrow} {s r : Text} :
    (exactly a).run s = some (b, r) ↔ b = a ∧ s = a.written ++ r := by
  simp only [exactly, run_bind_eq_some_iff, run_literal_eq_some_iff, run_pure, Option.some.injEq, Prod.mk.injEq]
  constructor
  · rintro ⟨_, _, ⟨-, hs⟩, rfl, rfl⟩
    exact ⟨rfl, hs⟩
  · rintro ⟨rfl, hs⟩
    exact ⟨_, _, ⟨rfl, hs⟩, rfl, rfl⟩

private theorem eq_append_of_run {a : Arrow} {s r : Text} (h : Arrow.grammar.run s = some (a, r)) :
    s = a.written ++ r := by
  simp only [Arrow.grammar, run_orElse_eq_some_iff, run_exactly_eq_some_iff] at h
  rcases h with ⟨rfl, hs⟩ | ⟨-, ⟨rfl, hs⟩ | ⟨-, rfl, hs⟩⟩ <;> exact hs

private theorem stops_isPadding (a : Arrow) (t : Text) : Stops isPadding (a.written ++ t) := by
  cases a <;> exact stops_cons.mpr (by decide)

private theorem run_cardinality (a : Arrow) (t : Text) : Cardinality.grammar.run (a.written ++ t) = none := by
  cases a <;> rfl

private theorem stops_isWordChar (a : Arrow) (t : Text) : Stops isWordChar (a.written ++ t) := by
  cases a <;> exact stops_cons.mpr (by decide)

/-- The plain arrow is the beginning of the forward one, but not if no tip follows it. -/
theorem eq_forward_of_isPrefix {a : Arrow} {t : Text} (ht : t.head? ≠ some '>')
    (h : Arrow.forward.written <+: a.written ++ t) : a = .forward := by
  obtain ⟨u, hu⟩ := h
  cases a with
  | forward => rfl
  | plain =>
    obtain rfl : '>' :: u = t := by simpa [written] using hu
    simp at ht
  | backward => simp [written] at hu

private theorem run_written {a : Arrow} {t : Text} (ht : t.head? ≠ some '>') :
    Arrow.grammar.run (a.written ++ t) = some (a, t) := by
  have hother (b : Arrow) (hb : ¬ b.written <+: a.written ++ t) : (exactly b).run (a.written ++ t) = none := by
    rw [Option.eq_none_iff_forall_ne_some]
    rintro ⟨b', r⟩ hr
    obtain ⟨-, he⟩ := run_exactly_eq_some_iff.mp hr
    exact hb ⟨r, he.symm⟩
  have hown : (exactly a).run (a.written ++ t) = some (a, t) := run_exactly_eq_some_iff.mpr ⟨rfl, rfl⟩
  have hforward (hne : a ≠ .forward) := hother .forward fun h => hne (eq_forward_of_isPrefix ht h)
  cases a with
  | forward => exact run_orElse_eq_some_iff.mpr (Or.inl hown)
  | plain =>
    exact run_orElse_eq_some_iff.mpr (Or.inr ⟨hforward (by decide), run_orElse_eq_some_iff.mpr (Or.inl hown)⟩)
  | backward =>
    have hplain := hother .plain (by simp [written])
    exact run_orElse_eq_some_iff.mpr
      (Or.inr ⟨hforward (by decide), run_orElse_eq_some_iff.mpr (Or.inr ⟨hplain, hown⟩)⟩)

end Arrow

/-- One end of a relation as it may be written: a name, perhaps a cardinality between it and the
arrow, and padding on both sides of that. The name need not be a whole word of the text. -/
structure RelationEnd where
  name : Text
  cardinality : Option Cardinality
  outer : Text
  inner : Text
  isWord : IsWord name
  outer_padding : ∀ c ∈ outer, isPadding c = true
  inner_padding : ∀ c ∈ inner, isPadding c = true

namespace RelationEnd
variable {e : RelationEnd} {t r : Text}

def behindName (e : RelationEnd) : Text := e.outer ++ (Cardinality.written e.cardinality ++ e.inner)

def asLeft (e : RelationEnd) : Text := e.name ++ e.behindName

def asRight (e : RelationEnd) : Text := e.inner ++ (Cardinality.written e.cardinality ++ (e.outer ++ e.name))

/-- Padding, cardinality and padding are found as they are, up to where the padding is cut if there is
no cardinality in it. -/
theorem run_behindName (e : RelationEnd) (ht : Stops isPadding t) (hk : Cardinality.grammar.run t = none) :
    ∃ p u q v, padding.run (e.behindName ++ t) = some (p, u) ∧
      Cardinality.grammar.optional.run u = some (e.cardinality, v) ∧ padding.run v = some (q, t) := by
  cases he : e.cardinality with
  | none =>
    have hpad : ∀ c ∈ e.behindName, isPadding c = true := by
      intro c hc
      simp only [behindName, he, Cardinality.written, List.nil_append, List.mem_append] at hc
      exact hc.elim (e.outer_padding c) (e.inner_padding c)
    exact ⟨e.behindName, t, [], t, run_run0_eq_some_iff.mpr ⟨rfl, hpad, ht⟩,
      run_optional_eq_some_iff.mpr (Or.inr ⟨rfl, hk, rfl⟩), run_run0_eq_some_iff.mpr ⟨rfl, by simp, ht⟩⟩
  | some k =>
    refine ⟨e.outer, k.symbol :: (e.inner ++ t), e.inner, e.inner ++ t,
      run_run0_eq_some_iff.mpr ⟨?_, e.outer_padding, ?_⟩,
      run_optional_eq_some_iff.mpr (Or.inl ⟨k, rfl, k.run_symbol _⟩),
      run_run0_eq_some_iff.mpr ⟨rfl, e.inner_padding, ht⟩⟩
    · simp [behindName, he, Cardinality.written]
    · exact stops_cons.mpr k.isPadding_symbol

/-- A name that is cut short goes on with the digit only, and the digit can as well be the end of it. -/
theorem exists_whole_asLeft (e : RelationEnd) (ht : Stops isWordChar t) :
    ∃ e' : RelationEnd, e'.asLeft = e.asLeft ∧ Stops isWordChar (e'.behindName ++ t) := by
  have hinner := ht.padding_append e.inner_padding
  match hk : e.cardinality with
  | none =>
    refine ⟨e, rfl, ?_⟩
    simpa [behindName, hk, Cardinality.written] using hinner.padding_append e.outer_padding
  | some .many =>
    have hstar : Stops isWordChar ('*' :: (e.inner ++ t)) := stops_cons.mpr (by decide)
    refine ⟨e, rfl, ?_⟩
    simpa [behindName, hk, Cardinality.written, Cardinality.symbol] using hstar.padding_append e.outer_padding
  | some .one =>
    by_cases houter : e.outer = []
    · have hword : IsWord (e.name ++ ['1']) := by
        refine ⟨by simp, fun c hc => ?_⟩
        rcases List.mem_append.mp hc with hc | hc
        · exact e.isWord.chars c hc
        · rw [List.mem_singleton.mp hc]
          decide
      refine ⟨⟨e.name ++ ['1'], none, [], e.inner, hword, by simp, e.inner_padding⟩, ?_, hinner⟩
      simp [asLeft, behindName, hk, houter, Cardinality.written, Cardinality.symbol]
    · refine ⟨e, rfl, ?_⟩
      rw [behindName, List.append_assoc]
      exact stops_isWordChar_of_padding e.outer_padding houter _

private theorem head?_asRight_append (e : RelationEnd) (r : Text) : (e.asRight ++ r).head? ≠ some '>' := by
  have hpadding {p : Text} (hp : ∀ c ∈ p, isPadding c = true) : '>' ∉ p := fun h => absurd (hp _ h) (by decide)
  have hname : '>' ∉ e.name := e.isWord.not_mem (by decide)
  have hsymbol : '>' ∉ Cardinality.written e.cardinality := by
    match e.cardinality with
    | none => decide
    | some .one => decide
    | some .many => decide
  have hmem : '>' ∉ e.asRight := by simp [asRight, hpadding e.inner_padding, hpadding e.outer_padding, hname, hsymbol]
  have hne : e.asRight ≠ [] := by simp [asRight, e.isWord.ne_nil]
  obtain ⟨c, t, ht⟩ := List.exists_cons_of_ne_nil hne
  rw [ht] at hmem ⊢
  intro he
  obtain rfl : c = '>' := by simpa using he
  simp at hmem

/-- A name at the right end can be followed to where the word ends. -/
theorem exists_whole_asRight (e : RelationEnd) (r : Text) :
    ∃ (e' : RelationEnd) (r' : Text), e'.asRight ++ r' = e.asRight ++ r ∧ e'.cardinality = e.cardinality ∧
      Stops isWordChar r' := by
  have hword : IsWord (e.name ++ r.takeWhile isWordChar) := by
    refine ⟨by simp [e.isWord.ne_nil], fun c hc => ?_⟩
    rcases List.mem_append.mp hc with hc | hc
    · exact e.isWord.chars c hc
    · exact List.all_eq_true.mp List.all_takeWhile c hc
  refine ⟨{ e with name := _, isWord := hword }, r.dropWhile isWordChar, ?_, rfl, stops_dropWhile r⟩
  simp [asRight, List.takeWhile_append_dropWhile]

end RelationEnd

/-- A right end with a cardinality stands at the front of the text: padding, the cardinality, padding
and a name. -/
def BeginsWithCardinality (t : Text) : Prop := ∃ e : RelationEnd, e.cardinality.isSome = true ∧ e.asRight <+: t

namespace Relation
variable {t r name : Text} {k : Option Cardinality}

def cardinalEnd : Grammar (Option Cardinality × Text) := do
  let _ ← padding
  let c ← Cardinality.grammar
  let _ ← padding
  let name ← word
  return (some c, name)

def plainEnd : Grammar (Option Cardinality × Text) := do
  let _ ← padding
  let name ← word
  return (none, name)

private theorem rightEnd_eq : rightEnd = (cardinalEnd <|> plainEnd) := rfl

private theorem run_cardinalEnd_eq_some_iff : cardinalEnd.run t = some ((k, name), r) ↔
    ∃ e : RelationEnd, t = e.asRight ++ r ∧ e.cardinality = k ∧ e.name = name ∧ Stops isWordChar r ∧
      k.isSome = true := by
  simp only [cardinalEnd, run_bind_eq_some_iff, run_pure, Option.some.injEq, Prod.mk.injEq]
  constructor
  · rintro ⟨p, _, hp, d, _, hd, q, _, hq, w, _, hw, ⟨rfl, rfl⟩, rfl⟩
    obtain ⟨rfl, hpad, -⟩ := run_run0_eq_some_iff.mp hp
    obtain rfl := Cardinality.eq_cons_of_run hd
    obtain ⟨rfl, hpad', -⟩ := run_run0_eq_some_iff.mp hq
    obtain ⟨rfl, hword, hr⟩ := run_word_eq_some_iff.mp hw
    refine ⟨⟨w, some d, q, p, hword, hpad', hpad⟩, ?_, rfl, rfl, hr, rfl⟩
    simp [RelationEnd.asRight, Cardinality.written]
  · rintro ⟨e, rfl, hk, rfl, hr, hsome⟩
    obtain ⟨d, rfl⟩ := Option.isSome_iff_exists.mp hsome
    refine ⟨e.inner, _, run_run0_eq_some_iff.mpr ⟨?_, e.inner_padding, stops_cons.mpr d.isPadding_symbol⟩,
      d, _, d.run_symbol _, e.outer, _, run_run0_eq_some_iff.mpr ⟨rfl, e.outer_padding, e.isWord.stops_isPadding r⟩, e.name, r,
      run_word_append e.isWord hr, ⟨rfl, rfl⟩, rfl⟩
    simp [RelationEnd.asRight, hk, Cardinality.written]

private theorem run_plainEnd_eq_some_iff : plainEnd.run t = some ((k, name), r) ↔
    ∃ e : RelationEnd, t = e.asRight ++ r ∧ e.cardinality = k ∧ e.name = name ∧ Stops isWordChar r ∧
      k = none := by
  simp only [plainEnd, run_bind_eq_some_iff, run_pure, Option.some.injEq, Prod.mk.injEq]
  constructor
  · rintro ⟨p, _, hp, w, _, hw, ⟨rfl, rfl⟩, rfl⟩
    obtain ⟨rfl, hpad, -⟩ := run_run0_eq_some_iff.mp hp
    obtain ⟨rfl, hword, hr⟩ := run_word_eq_some_iff.mp hw
    refine ⟨⟨w, none, [], p, hword, by simp, hpad⟩, ?_, rfl, rfl, hr, rfl⟩
    simp [RelationEnd.asRight, Cardinality.written]
  · rintro ⟨e, rfl, hk, rfl, hr, rfl⟩
    have hpad : ∀ c ∈ e.inner ++ e.outer, isPadding c = true := by
      intro c hc
      exact (List.mem_append.mp hc).elim (e.inner_padding c) (e.outer_padding c)
    refine ⟨e.inner ++ e.outer, _, run_run0_eq_some_iff.mpr ⟨?_, hpad, e.isWord.stops_isPadding r⟩, e.name, r,
      run_word_append e.isWord hr, ⟨rfl, rfl⟩, rfl⟩
    simp [RelationEnd.asRight, hk, Cardinality.written]

theorem run_cardinalEnd_eq_none_iff : cardinalEnd.run t = none ↔ ¬ BeginsWithCardinality t := by
  constructor
  · rintro hnone ⟨e, hsome, r, rfl⟩
    obtain ⟨e', r', he, hk, hr⟩ := e.exists_whole_asRight r
    have hrun := run_cardinalEnd_eq_some_iff.mpr ⟨e', he.symm, hk, rfl, hr, hsome⟩
    rw [hnone] at hrun
    cases hrun
  · intro hnot
    rw [Option.eq_none_iff_forall_ne_some]
    rintro ⟨⟨k, name⟩, r⟩ hrun
    obtain ⟨e, rfl, rfl, -, -, hsome⟩ := run_cardinalEnd_eq_some_iff.mp hrun
    exact hnot ⟨e, hsome, List.prefix_append _ _⟩

/-- A right end is read to where its name ends, and with a cardinality where there can be one. -/
theorem run_rightEnd_eq_some_iff : rightEnd.run t = some ((k, name), r) ↔
    ∃ e : RelationEnd, t = e.asRight ++ r ∧ e.cardinality = k ∧ e.name = name ∧ Stops isWordChar r ∧
      (k.isSome = true ↔ BeginsWithCardinality t) := by
  rw [rightEnd_eq, run_orElse_eq_some_iff, run_cardinalEnd_eq_none_iff, run_cardinalEnd_eq_some_iff,
    run_plainEnd_eq_some_iff]
  constructor
  · rintro (⟨e, rfl, hk, hn, hr, hsome⟩ | ⟨hnot, e, rfl, hk, hn, hr, rfl⟩)
    · exact ⟨e, rfl, hk, hn, hr, iff_of_true hsome ⟨e, hk ▸ hsome, List.prefix_append _ _⟩⟩
    · exact ⟨e, rfl, hk, hn, hr, iff_of_false (by simp) hnot⟩
  · rintro ⟨e, rfl, hk, hn, hr, hiff⟩
    cases k with
    | some d => exact Or.inl ⟨e, rfl, hk, hn, hr, rfl⟩
    | none => exact Or.inr ⟨fun h => by simpa using hiff.mpr h, e, rfl, hk, hn, hr, rfl⟩

end Relation

structure RelationForm where
  left : RelationEnd
  arrow : Arrow
  right : RelationEnd

namespace RelationForm
variable {s r : Text}

def text (f : RelationForm) : Text := f.left.asLeft ++ (f.arrow.written ++ f.right.asRight)

def relation (f : RelationForm) : Relation :=
  .ofWritten f.left.name f.left.cardinality f.arrow f.right.cardinality f.right.name

def parts (f : RelationForm) : Text × Option Cardinality × Arrow × Option Cardinality × Text :=
  (f.left.name, f.left.cardinality, f.arrow, f.right.cardinality, f.right.name)

private theorem parts_eq_of_relation_eq {f g : RelationForm} (h : f.relation = g.relation) : f.parts = g.parts := by
  obtain ⟨left, a, right⟩ := f
  obtain ⟨left', a', right'⟩ := g
  cases a <;> cases a' <;> simp_all [relation, parts, Relation.ofWritten]

/-- The way in which a relation is read in front of the text `r`: both names are whole words, the
forward arrow is taken where it stands, and so is a cardinality that a name still follows. -/
structure Preferred (f : RelationForm) (r : Text) : Prop where
  left_whole : (f.text ++ r).takeWhile isWordChar = f.left.name
  arrow_long : Arrow.forward.written <+: f.arrow.written ++ (f.right.asRight ++ r) → f.arrow = .forward
  cardinality_taken : f.right.cardinality.isSome = true ↔ BeginsWithCardinality (f.right.asRight ++ r)
  right_whole : (f.right.name ++ r).takeWhile isWordChar = f.right.name

theorem text_append (f : RelationForm) (r : Text) :
    f.text ++ r = f.left.name ++ (f.left.behindName ++ (f.arrow.written ++ (f.right.asRight ++ r))) := by
  simp [text, RelationEnd.asLeft]

theorem preferred_iff {f : RelationForm} : f.Preferred r ↔
    Stops isWordChar (f.left.behindName ++ (f.arrow.written ++ (f.right.asRight ++ r))) ∧
    (f.right.cardinality.isSome = true ↔ BeginsWithCardinality (f.right.asRight ++ r)) ∧ Stops isWordChar r := by
  constructor
  · rintro ⟨hleft, -, hcard, hright⟩
    rw [text_append] at hleft
    exact ⟨stops_of_takeWhile_append f.left.isWord.chars hleft, hcard,
      stops_of_takeWhile_append f.right.isWord.chars hright⟩
  · rintro ⟨hleft, hcard, hright⟩
    refine ⟨?_, Arrow.eq_forward_of_isPrefix (f.right.head?_asRight_append r), hcard,
      takeWhile_append_of_stops f.right.isWord.chars hright⟩
    rw [text_append]
    exact takeWhile_append_of_stops f.left.isWord.chars hleft

theorem Preferred.run {f : RelationForm} (h : f.Preferred r) :
    Relation.grammar.run (f.text ++ r) = some (f.relation, r) := by
  obtain ⟨hleft, hcard, hright⟩ := preferred_iff.mp h
  obtain ⟨p, u, q, v, hp, hk, hq⟩ :=
    f.left.run_behindName (f.arrow.stops_isPadding (f.right.asRight ++ r)) (f.arrow.run_cardinality _)
  have hend := Relation.run_rightEnd_eq_some_iff.mpr ⟨f.right, rfl, rfl, rfl, hright, hcard⟩
  rw [text_append]
  unfold Relation.grammar
  rw [run_bind_of_eq_some (run_word_append f.left.isWord hleft), run_bind_of_eq_some hp, run_bind_of_eq_some hk,
    run_bind_of_eq_some hq, run_bind_of_eq_some (Arrow.run_written (f.right.head?_asRight_append r)),
    run_bind_of_eq_some hend, run_pure]
  rfl

theorem exists_preferred_of_run {x : Relation} (h : Relation.grammar.run s = some (x, r)) :
    ∃ f : RelationForm, s = f.text ++ r ∧ f.Preferred r ∧ x = f.relation := by
  simp only [Relation.grammar, run_bind_eq_some_iff, run_pure, Option.some.injEq, Prod.mk.injEq] at h
  obtain ⟨left, _, hl, p, _, hp, k, _, hk, q, _, hq, a, _, ha, ⟨m, right⟩, _, hr, rfl, rfl⟩ := h
  obtain ⟨rfl, hleft, hstops⟩ := run_word_eq_some_iff.mp hl
  obtain ⟨rfl, hpad, -⟩ := run_run0_eq_some_iff.mp hp
  obtain rfl := Cardinality.eq_append_of_run_optional hk
  obtain ⟨rfl, hpad', -⟩ := run_run0_eq_some_iff.mp hq
  obtain rfl := Arrow.eq_append_of_run ha
  obtain ⟨e, rfl, rfl, rfl, hright, hcard⟩ := Relation.run_rightEnd_eq_some_iff.mp hr
  let f : RelationForm := ⟨⟨left, k, p, q, hleft, hpad, hpad'⟩, a, e⟩
  refine ⟨f, ?_, preferred_iff.mpr ⟨?_, hcard, hright⟩, rfl⟩
  · rw [text_append]
    simp [f, RelationEnd.behindName]
  · simpa [f, RelationEnd.behindName] using hstops

/-- Whatever way there is to write a front piece of a text as a relation, there is a preferred way. -/
theorem exists_preferred (f : RelationForm) (r : Text) :
    ∃ (g : RelationForm) (r' : Text), f.text ++ r = g.text ++ r' ∧ g.Preferred r' := by
  obtain ⟨left, hleft, hwhole⟩ :=
    f.left.exists_whole_asLeft (f.arrow.stops_isWordChar (f.right.asRight ++ r))
  obtain ⟨right, r', hright, hcard, hr⟩ : ∃ (e : RelationEnd) (r' : Text), e.asRight ++ r' = f.right.asRight ++ r ∧
      (e.cardinality.isSome = true ↔ BeginsWithCardinality (f.right.asRight ++ r)) ∧ Stops isWordChar r' := by
    by_cases hbegins : BeginsWithCardinality (f.right.asRight ++ r)
    · obtain ⟨e, hsome, r₁, he⟩ := hbegins
      obtain ⟨e', r', he', hk, hr⟩ := e.exists_whole_asRight r₁
      exact ⟨e', r', he'.trans he, iff_of_true (hk ▸ hsome) ⟨e, hsome, r₁, he⟩, hr⟩
    · obtain ⟨e', r', he', hk, hr⟩ := f.right.exists_whole_asRight r
      refine ⟨e', r', he', iff_of_false (fun hsome => hbegins ?_) hbegins, hr⟩
      exact ⟨f.right, hk ▸ hsome, List.prefix_append _ _⟩
  refine ⟨⟨left, f.arrow, right⟩, r', ?_, preferred_iff.mpr ⟨?_, ?_, hr⟩⟩
  · simp [text, hleft, hright]
  · rw [hright]
    exact hwhole
  · rw [hright]
    exact hcard

end RelationForm

/-- The grammar of relations finds what is found by trying all ways to write a relation. It fails where
there is none, and else it reads the preferred one, whole. Preferred ways differ at most in where the
padding is cut. -/
theorem relations_read_as_with_backtracking (s : Text) :
    (Relation.grammar.run s = none ↔ ¬ ∃ f : RelationForm, f.text <+: s) ∧
    (∀ x r, Relation.grammar.run s = some (x, r) ↔
      ∃ f : RelationForm, s = f.text ++ r ∧ f.Preferred r ∧ x = f.relation) ∧
    (∀ (f g : RelationForm) (r r' : Text), s = f.text ++ r → f.Preferred r → s = g.text ++ r' → g.Preferred r' →
      f.parts = g.parts ∧ r = r') := by
  refine ⟨⟨?_, ?_⟩, fun x r => ⟨RelationForm.exists_preferred_of_run, ?_⟩, ?_⟩
  · rintro hnone ⟨f, r, rfl⟩
    obtain ⟨g, r', he, hg⟩ := f.exists_preferred r
    rw [he, hg.run] at hnone
    cases hnone
  · intro hnot
    rw [Option.eq_none_iff_forall_ne_some]
    rintro ⟨x, r⟩ hrun
    obtain ⟨f, rfl, -, -⟩ := RelationForm.exists_preferred_of_run hrun
    exact hnot ⟨f, List.prefix_append _ _⟩
  · rintro ⟨f, rfl, hf, rfl⟩
    exact hf.run
  · intro f g r r' hs hf hs' hg
    have hrun := hf.run
    rw [← hs, hs', hg.run, Option.some.injEq, Prod.mk.injEq] at hrun
    exact ⟨RelationForm.parts_eq_of_relation_eq hrun.1.symm, hrun.2.symm⟩

/-- A digit may be part of a name, or a cardinality. Both digits here could also be taken the other way. -/
theorem relations_read_as_with_backtracking_digits :
    let s := "A1--1B".toList
    Relation.grammar.run s = some (.ofWritten "A1".toList none .plain (some .one) "B".toList, []) ∧
    (∃ f : RelationForm, f.text = s ∧ f.parts = ("A".toList, some .one, .plain, none, "1B".toList)) ∧
    ∀ (f : RelationForm) (r : Text), s = f.text ++ r → f.Preferred r →
      f.parts = ("A1".toList, none, .plain, some .one, "B".toList) ∧ r = [] := by
  intro s
  obtain ⟨-, hrun, hunique⟩ := relations_read_as_with_backtracking s
  have hread : Relation.grammar.run s = some (.ofWritten "A1".toList none .plain (some .one) "B".toList, []) := by decide
  -- an end without padding
  let bare (name : Text) (k : Option Cardinality) (h : name ≠ [] ∧ name.all isWordChar = true) : RelationEnd :=
    ⟨name, k, [], [], isWord_iff.mp h, by simp, by simp⟩
  let whole : RelationForm := ⟨bare ['A', '1'] none (by decide), .plain, bare ['B'] (some .one) (by decide)⟩
  let other : RelationForm := ⟨bare ['A'] (some .one) (by decide), .plain, bare ['1', 'B'] none (by decide)⟩
  refine ⟨hread, ⟨other, rfl, rfl⟩, fun f r hs hf => ?_⟩
  obtain ⟨g, hs', hg, hx⟩ := (hrun _ _).mp hread
  obtain ⟨hparts, hr⟩ := hunique f g r [] hs hf hs' hg
  have hwhole : whole.parts = g.parts := RelationForm.parts_eq_of_relation_eq hx
  exact ⟨hparts.trans hwhole.symm, hr⟩

end ClassNotation
