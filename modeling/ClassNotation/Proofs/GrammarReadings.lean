import ClassNotation.Grammar.Basic

/-! What each small grammar reads, as equations between the text, the part that was read and the
rest. Larger grammars are read off from these without unfolding. -/
namespace ClassNotation

/-- No run of the class goes on at the front of the text. -/
def Stops (p : Char → Bool) (t : Text) : Prop := ∀ c ∈ t.head?, p c = false

section Stops
variable {p : Char → Bool}

@[simp] theorem stops_nil : Stops p [] := by simp [Stops]

@[simp] theorem stops_cons {c : Char} {t : Text} : Stops p (c :: t) ↔ p c = false := by simp [Stops]

theorem Stops.append {x : Text} (h : Stops p x) (hne : x ≠ []) (y : Text) : Stops p (x ++ y) := by
  obtain ⟨c, x, rfl⟩ := List.exists_cons_of_ne_nil hne
  simpa using h

theorem stops_dropWhile (t : Text) : Stops p (t.dropWhile p) := by
  induction t with
  | nil => simp
  | cons c t ih => by_cases h : p c = true <;> simp_all

theorem takeWhile_append_of_stops {w t : Text} (hw : ∀ c ∈ w, p c = true) (ht : Stops p t) :
    (w ++ t).takeWhile p = w := by
  rw [List.takeWhile_append_of_pos hw]
  cases t with
  | nil => simp
  | cons c t => simp [stops_cons.mp ht]

theorem dropWhile_append_of_stops {w t : Text} (hw : ∀ c ∈ w, p c = true) (ht : Stops p t) :
    (w ++ t).dropWhile p = t := by
  rw [List.dropWhile_append_of_pos hw]
  cases t with
  | nil => simp
  | cons c t => simp [stops_cons.mp ht]

theorem stops_of_takeWhile_append {w t : Text} (hw : ∀ c ∈ w, p c = true) (h : (w ++ t).takeWhile p = w) :
    Stops p t := by
  rw [List.takeWhile_append_of_pos hw] at h
  have hrun : t.takeWhile p = [] := List.append_right_eq_self.mp h
  have hrest : t.takeWhile p ++ t.dropWhile p = t := List.takeWhile_append_dropWhile
  rw [hrun, List.nil_append] at hrest
  exact hrest ▸ stops_dropWhile t

/-- A text falls in one way only into a whole run and what stops it. -/
theorem run_unique {w w' t t' : Text} (h : w ++ t = w' ++ t') (hw : ∀ c ∈ w, p c = true)
    (ht : Stops p t) (hw' : ∀ c ∈ w', p c = true) (ht' : Stops p t') : w = w' ∧ t = t' := by
  constructor
  · rw [← takeWhile_append_of_stops hw ht, h, takeWhile_append_of_stops hw' ht']
  · rw [← dropWhile_append_of_stops hw ht, h, dropWhile_append_of_stops hw' ht']

end Stops

/-- The text `w` between two others is a whole run of the class: it does not go on on either side. -/
structure MaximalRun (p : Char → Bool) (before w after : Text) : Prop where
  ne_nil : w ≠ []
  chars : ∀ c ∈ w, p c = true
  left : Stops p before.reverse
  right : Stops p after

/-- A front piece without a character ends before that character. -/
theorem append_eq_append_cons {k r x t : Text} {c : Char} (h : x ++ c :: t = k ++ r) (hc : c ∉ k) :
    ∃ v, x = k ++ v ∧ r = v ++ c :: t := by
  rcases List.append_eq_append_iff.mp h with ⟨v, hk, ht⟩ | ⟨v, hx, hr⟩
  · cases v with
    | nil => exact ⟨[], by simpa using hk.symm, by simpa using ht.symm⟩
    | cons d v =>
      obtain ⟨rfl, -⟩ := List.cons.inj ht
      exact absurd (by simp [hk]) hc
  · exact ⟨v, hx, hr⟩

/-- A text is cut in one way only at the first place where a character stands. -/
theorem append_cons_unique {x y t u : Text} {c : Char} (h : x ++ c :: t = y ++ c :: u) (hx : c ∉ x)
    (hy : c ∉ y) : x = y ∧ t = u := by
  obtain ⟨v, rfl, hv⟩ := append_eq_append_cons h hy
  cases v with
  | nil => exact ⟨List.append_nil y, (List.cons.inj hv).2.symm⟩
  | cons d v =>
    obtain ⟨rfl, -⟩ := List.cons.inj hv
    exact absurd (by simp) hx

/-- A nonempty run of word characters, as a text of its own. -/
structure IsWord (w : Text) : Prop where
  ne_nil : w ≠ []
  chars : ∀ c ∈ w, isWordChar c = true

theorem isWord_iff {w : Text} : w ≠ [] ∧ w.all isWordChar = true ↔ IsWord w :=
  ⟨fun h => ⟨h.1, List.all_eq_true.mp h.2⟩, fun h => ⟨h.ne_nil, List.all_eq_true.mpr h.chars⟩⟩

instance (w : Text) : Decidable (IsWord w) := decidable_of_iff _ isWord_iff

-- The marks that delimit words in a document.
@[simp] theorem isWordChar_space : isWordChar ' ' = false := by decide
@[simp] theorem isWordChar_newline : isWordChar '\n' = false := by decide
@[simp] theorem isWordChar_openBrace : isWordChar '\x7b' = false := by decide
@[simp] theorem isWordChar_closeBrace : isWordChar '\x7d' = false := by decide
@[simp] theorem isWordChar_openParenthesis : isWordChar '(' = false := by decide
@[simp] theorem isWordChar_closeParenthesis : isWordChar ')' = false := by decide
@[simp] theorem isWordChar_quote : isWordChar '"' = false := by decide
@[simp] theorem isWordChar_hyphen : isWordChar '-' = false := by decide
@[simp] theorem isBlank_space : isBlank ' ' = true := by decide
@[simp] theorem isBlank_newline : isBlank '\n' = true := by decide
@[simp] theorem isBlank_openBrace : isBlank '\x7b' = false := by decide
@[simp] theorem isBlank_closeBrace : isBlank '\x7d' = false := by decide
@[simp] theorem isBlank_openParenthesis : isBlank '(' = false := by decide
@[simp] theorem isBlank_closeParenthesis : isBlank ')' = false := by decide
@[simp] theorem isPadding_space : isPadding ' ' = true := by decide
@[simp] theorem isPadding_quote : isPadding '"' = true := by decide

private theorem isWordChar_range {c : Char} (h : isWordChar c = true) : 0x30 ≤ c.toNat ∧ c.toNat ≤ 0x7A := by
  change (((decide (65 ≤ c.val ∧ c.val ≤ 90) || decide (97 ≤ c.val) && decide (c.val ≤ 122)) ||
    decide (48 ≤ c.val) && decide (c.val ≤ 57)) || c == '_') = true at h
  simp only [Bool.or_eq_true, Bool.and_eq_true, decide_eq_true_eq, beq_iff_eq, UInt32.le_iff_toNat_le] at h
  change ((((65 ≤ c.toNat ∧ c.toNat ≤ 90) ∨ 97 ≤ c.toNat ∧ c.toNat ≤ 122) ∨ 48 ≤ c.toNat ∧ c.toNat ≤ 57) ∨ c = '_') at h
  rcases h with h | rfl
  · omega
  · decide

theorem isBlank_eq_false_of_isWordChar {c : Char} (h : isWordChar c = true) : isBlank c = false := by
  have hr := isWordChar_range h
  simp only [isBlank, blankRanges, List.any_cons, List.any_nil, Bool.or_false, Bool.or_eq_false_iff,
    Bool.and_eq_false_iff, decide_eq_false_iff_not]
  omega

theorem isWordChar_eq_false_of_isBlank {c : Char} (h : isBlank c = true) : isWordChar c = false := by
  cases hw : isWordChar c with
  | false => rfl
  | true => simp [isBlank_eq_false_of_isWordChar hw] at h

structure IsGap (b : Text) : Prop where
  ne_nil : b ≠ []
  blank : ∀ c ∈ b, isBlank c = true

theorem isGap_space : IsGap [' '] := ⟨by simp, by simp⟩

/-- A word ends where blanks follow. -/
theorem IsGap.stops_isWordChar {b : Text} (hb : IsGap b) (t : Text) : Stops isWordChar (b ++ t) := by
  obtain ⟨c, b, rfl⟩ := List.exists_cons_of_ne_nil hb.ne_nil
  exact stops_cons.mpr (isWordChar_eq_false_of_isBlank (hb.blank c (by simp)))

structure IsSeparator (c : Char) : Prop where
  word : isWordChar c = false
  blank : isBlank c = false

theorem isSeparator_semicolon : IsSeparator ';' := ⟨by decide, by decide⟩
theorem isSeparator_openParenthesis : IsSeparator '(' := ⟨by decide, by decide⟩
theorem isSeparator_closeParenthesis : IsSeparator ')' := ⟨by decide, by decide⟩
theorem isSeparator_openBrace : IsSeparator '\x7b' := ⟨by decide, by decide⟩
theorem isSeparator_closeBrace : IsSeparator '\x7d' := ⟨by decide, by decide⟩
theorem isSeparator_openBracket : IsSeparator '[' := ⟨by decide, by decide⟩

theorem IsSeparator.not_mem_blanks {b : Text} {c : Char} (hc : IsSeparator c) (hb : ∀ d ∈ b, isBlank d = true) :
    c ∉ b := by
  intro hm
  have hblank := hc.blank
  simp [hb c hm] at hblank

theorem IsWord.not_mem {w : Text} (hw : IsWord w) {c : Char} (hc : isWordChar c = false) : c ∉ w := by
  intro hm
  simp [hw.chars c hm] at hc

theorem IsWord.reverse {w : Text} (hw : IsWord w) : IsWord w.reverse :=
  ⟨by simpa using hw.ne_nil, fun c hc => hw.chars c (List.mem_reverse.mp hc)⟩

theorem IsWord.cons {w : Text} (hw : IsWord w) {c : Char} (hc : isWordChar c = true) : IsWord (c :: w) := by
  refine ⟨List.cons_ne_nil c w, fun d hd => ?_⟩
  rcases List.mem_cons.mp hd with rfl | hd
  · exact hc
  · exact hw.chars d hd

theorem IsWord.maximalRun {before w after : Text} (hw : IsWord w) (hbefore : Stops isWordChar before.reverse)
    (hafter : Stops isWordChar after) : MaximalRun isWordChar before w after :=
  ⟨hw.ne_nil, hw.chars, hbefore, hafter⟩

theorem IsWord.stops_isBlank {w : Text} (hw : IsWord w) (t : Text) : Stops isBlank (w ++ t) := by
  obtain ⟨c, w, rfl⟩ := List.exists_cons_of_ne_nil hw.ne_nil
  exact stops_cons.mpr (isBlank_eq_false_of_isWordChar (hw.chars c (by simp)))

namespace Grammar
variable {α β : Type} {s r : Text}

theorem run_literal_eq_some_iff {t a : Text} :
    (literal t).run s = some (a, r) ↔ a = t ∧ s = t ++ r := by
  simp only [literal]
  constructor
  · intro h
    split at h
    · next hp =>
      cases h
      obtain ⟨u, rfl⟩ := List.isPrefixOf_iff_prefix.mp hp
      simp
    · cases h
  · rintro ⟨rfl, rfl⟩
    simp [List.isPrefixOf_iff_prefix]

theorem run_oneOf_eq_some_iff {value? : Char → Option α} {a : α} :
    (oneOf value?).run s = some (a, r) ↔ ∃ c, s = c :: r ∧ value? c = some a := by
  cases s with
  | nil => simp [oneOf]
  | cons c s =>
    simp only [oneOf, Option.map_eq_some_iff, Prod.mk.injEq, List.cons.injEq]
    constructor
    · rintro ⟨b, hb, rfl, rfl⟩
      exact ⟨c, ⟨rfl, rfl⟩, hb⟩
    · rintro ⟨_, ⟨rfl, rfl⟩, hb⟩
      exact ⟨a, hb, rfl, rfl⟩

theorem run_oneOf_eq_none {value? : Char → Option α} (h : Stops (fun c => (value? c).isSome) s) :
    (oneOf value?).run s = none := by
  cases s with
  | nil => rfl
  | cons c s => simpa [oneOf] using h

theorem run_run0_eq_some_iff {p : Char → Bool} {w : Text} :
    (run0 p).run s = some (w, r) ↔ s = w ++ r ∧ (∀ c ∈ w, p c = true) ∧ Stops p r := by
  simp only [run0, Option.some.injEq, Prod.mk.injEq]
  constructor
  · rintro ⟨rfl, rfl⟩
    exact ⟨List.takeWhile_append_dropWhile.symm, fun c hc => List.all_eq_true.mp List.all_takeWhile c hc, stops_dropWhile s⟩
  · rintro ⟨rfl, hw, hr⟩
    exact ⟨takeWhile_append_of_stops hw hr, dropWhile_append_of_stops hw hr⟩

theorem run_run1_eq_some_iff {p : Char → Bool} {w : Text} :
    (run1 p).run s = some (w, r) ↔ s = w ++ r ∧ w ≠ [] ∧ (∀ c ∈ w, p c = true) ∧ Stops p r := by
  have h0 := run_run0_eq_some_iff (s := s) (r := r) (p := p) (w := w)
  simp only [run0, Option.some.injEq, Prod.mk.injEq] at h0
  simp only [run1]
  split
  · next he =>
    simp only [reduceCtorEq, false_iff]
    rintro ⟨rfl, hne, hw, hr⟩
    exact hne (by simpa [takeWhile_append_of_stops hw hr] using he)
  · next he =>
    simp only [Option.some.injEq, Prod.mk.injEq, h0]
    constructor
    · rintro ⟨rfl, hw, hr⟩
      exact ⟨rfl, by simpa [takeWhile_append_of_stops hw hr] using he, hw, hr⟩
    · rintro ⟨hs, -, hw, hr⟩
      exact ⟨hs, hw, hr⟩

theorem run_run1_eq_none {p : Char → Bool} (h : Stops p s) : (run1 p).run s = none := by
  have ht := takeWhile_append_of_stops (w := []) (by simp) h
  rw [List.nil_append] at ht
  unfold run1
  simp only [ht, List.isEmpty_nil, if_true]

/-- Text between two marks, up to the first closing one. -/
theorem run_between_eq_some_iff {o c : Char} {body : Text} :
    (do let _ ← literal [o]; let body ← run0 (· != c); let _ ← literal [c]; return body : Grammar Text).run s =
      some (body, r) ↔ s = o :: (body ++ c :: r) ∧ c ∉ body := by
  simp only [run_bind_eq_some_iff, run_literal_eq_some_iff, run_run0_eq_some_iff, run_pure,
    Option.some.injEq, Prod.mk.injEq]
  constructor
  · rintro ⟨_, _, ⟨-, rfl⟩, _, _, ⟨rfl, hb, -⟩, _, _, ⟨-, rfl⟩, rfl, rfl⟩
    exact ⟨by simp, fun hm => by simpa using hb _ hm⟩
  · rintro ⟨rfl, hb⟩
    refine ⟨_, _, ⟨rfl, rfl⟩, body, c :: r, ⟨rfl, ?_, by simp⟩, _, _, ⟨rfl, rfl⟩, rfl, rfl⟩
    intro d hd
    simpa using fun he : d = c => hb (he ▸ hd)

theorem run_orElse_eq_some_iff {g other : Grammar α} {out : α × Text} :
    (g <|> other).run s = some out ↔ g.run s = some out ∨ g.run s = none ∧ other.run s = some out := by
  change (Grammar.orElse g fun _ => other).run s = some out ↔ _
  cases h : g.run s <;> simp [Grammar.orElse, h]

private theorem run_map_eq_some_iff {g : Grammar α} {f : α → β} {b : β} :
    (f <$> g).run s = some (b, r) ↔ ∃ a, g.run s = some (a, r) ∧ f a = b := by
  change (g >>= fun a => pure (f a)).run s = _ ↔ _
  rw [run_bind_eq_some_iff]
  simp

theorem run_optional_eq_some_iff {g : Grammar α} {found : Option α} :
    g.optional.run s = some (found, r) ↔
      (∃ a, found = some a ∧ g.run s = some (a, r)) ∨ found = none ∧ g.run s = none ∧ r = s := by
  have hn : (some <$> g).run s = none ↔ g.run s = none := by
    change (g >>= fun a => pure (some a)).run s = none ↔ _
    cases h : g.run s with
    | none => simp [run_bind_of_eq_none h]
    | some out => simp [run_bind_of_eq_some h]
  rw [optional, run_orElse_eq_some_iff, run_map_eq_some_iff, hn]
  simp only [run_pure, Option.some.injEq, Prod.mk.injEq]
  constructor
  · rintro (⟨a, ha, rfl⟩ | ⟨hg, rfl, rfl⟩)
    · exact Or.inl ⟨a, rfl, ha⟩
    · exact Or.inr ⟨rfl, hg, rfl⟩
  · rintro (⟨a, rfl, ha⟩ | ⟨rfl, hg, rfl⟩)
    · exact Or.inl ⟨a, ha, rfl⟩
    · exact Or.inr ⟨hg, rfl, rfl⟩

theorem run_word_eq_some_iff {w : Text} :
    word.run s = some (w, r) ↔ s = w ++ r ∧ IsWord w ∧ Stops isWordChar r := by
  refine run_run1_eq_some_iff.trans ⟨?_, ?_⟩
  · rintro ⟨hs, hne, hw, hr⟩
    exact ⟨hs, ⟨hne, hw⟩, hr⟩
  · rintro ⟨hs, hw, hr⟩
    exact ⟨hs, hw.ne_nil, hw.chars, hr⟩

theorem run_blanks1_eq_some_iff {b : Text} :
    blanks1.run s = some (b, r) ↔ s = b ++ r ∧ IsGap b ∧ Stops isBlank r := by
  refine run_run1_eq_some_iff.trans ⟨?_, ?_⟩
  · rintro ⟨hs, hne, hb, hr⟩
    exact ⟨hs, ⟨hne, hb⟩, hr⟩
  · rintro ⟨hs, hb, hr⟩
    exact ⟨hs, hb.ne_nil, hb.blank, hr⟩

theorem run_word_append {w t : Text} (hw : IsWord w) (ht : Stops isWordChar t) :
    word.run (w ++ t) = some (w, t) := run_word_eq_some_iff.mpr ⟨rfl, hw, ht⟩

theorem isWord_of_run {s w r : Text} (h : word.run s = some (w, r)) : IsWord w := (run_word_eq_some_iff.mp h).2.1

theorem whole_eq_some_iff {g : Grammar α} {a : α} : g.whole s = some a ↔ g.run s = some (a, []) := by
  unfold whole
  split
  · next b h => simp [h]
  · next h =>
    simp only [reduceCtorEq, false_iff]
    exact h a

end Grammar
end ClassNotation
