import ClassNotation.Grammar.Scan
import ClassNotation.Proofs.GrammarReadings

/-! Scans over text in which no reading starts, and over words that may or may not be keywords. A
grammar is tried at every character, so also in the middle of a word. -/
namespace ClassNotation.Grammar
variable {α : Type}

/-- A scan passes a character where at most nothing is read. -/
theorem scan_cons_of_run_eq_nothing {g : Grammar α} {c : Char} {s : Text}
    (h : ∀ a r, g.run (c :: s) = some (a, r) → r = c :: s) : g.scan (c :: s) = g.scan s := by
  cases hr : g.run (c :: s) with
  | none => exact scan_cons_of_run_eq_none hr
  | some out =>
    obtain ⟨a, r⟩ := out
    obtain rfl := h a r hr
    exact scan_cons_of_run_eq_self hr

/-- The steps of a scan as an induction over the text: it passes a character where at most nothing is
read, and where something is read it goes on behind that. -/
@[elab_as_elim]
theorem scan_induction (g : Grammar α) {motive : Text → Prop} (nil : motive [])
    (pass : ∀ c s, (∀ a r, g.run (c :: s) = some (a, r) → r = c :: s) → motive s → motive (c :: s))
    (read : ∀ s a r, g.run s = some (a, r) → r.length < s.length → motive r → motive s)
    (s : Text) : motive s := by
  induction hn : s.length using Nat.strongRecOn generalizing s with
  | ind n ih =>
    subst hn
    cases s with
    | nil => exact nil
    | cons c s =>
      by_cases h : ∃ a r, g.run (c :: s) = some (a, r) ∧ r.length < (c :: s).length
      · obtain ⟨a, r, hr, hlt⟩ := h
        exact read _ a r hr hlt (ih _ hlt r rfl)
      · refine pass c s (fun a r hr => ?_) (ih _ (Nat.lt_succ_self _) s rfl)
        have hlt : ¬ r.length < (c :: s).length := fun hlt => h ⟨a, r, hr, hlt⟩
        exact (g.rest_suffix hr).eq_of_length_le (Nat.le_of_not_lt hlt)

/-- Where no reading starts a scan finds nothing and goes on behind. -/
theorem scan_append_of_run_eq_none {g : Grammar α} {x t : Text}
    (h : ∀ u, u <:+ x → u ≠ [] → g.run (u ++ t) = none) : g.scan (x ++ t) = g.scan t := by
  induction x with
  | nil => rfl
  | cons c x ih =>
    have hc : g.run (c :: (x ++ t)) = none := h (c :: x) List.suffix_rfl (by simp)
    rw [List.cons_append, scan_cons_of_run_eq_none hc]
    apply ih
    intro u hu hne
    exact h u (hu.trans (List.suffix_cons c x)) hne

/-- Text behind that changes no reading of an end piece is come to as the end would be, and the scan
starts anew there. -/
theorem scan_append_of_run_eq_map {g : Grammar α} {x t : Text}
    (h : ∀ u, u <:+ x → g.run (u ++ t) = (g.run u).map fun out => (out.1, out.2 ++ t)) :
    g.scan (x ++ t) = g.scan x ++ g.scan t := by
  have hx := h x List.suffix_rfl
  induction x using scan_induction g with
  | nil => rfl
  | pass c x hpass ih =>
    have hpass' : ∀ a r, g.run (c :: (x ++ t)) = some (a, r) → r = c :: (x ++ t) := by
      intro a r hr
      rw [List.cons_append, hr] at hx
      obtain ⟨⟨a', r'⟩, hrun, he⟩ := Option.map_eq_some_iff.mp hx.symm
      obtain rfl := hpass a' r' hrun
      exact (Prod.mk.inj he).2.symm
    have hrest : ∀ u, u <:+ x → _ := fun u hu => h u (hu.trans (List.suffix_cons c x))
    rw [List.cons_append, scan_cons_of_run_eq_nothing hpass', scan_cons_of_run_eq_nothing hpass,
      ih hrest (hrest x List.suffix_rfl)]
  | read x a r hrun hlt ih =>
    rw [hrun] at hx
    have hrest : ∀ u, u <:+ r → _ := fun u hu => h u (hu.trans (g.rest_suffix hrun))
    have hlonger : (r ++ t).length < (x ++ t).length := by
      simp only [List.length_append]
      omega
    rw [scan_of_run_eq_some hx hlonger, scan_of_run_eq_some hrun hlt, ih hrest (hrest r List.suffix_rfl), List.cons_append]

/-- Pieces that are each scanned as if nothing stood behind them are scanned one after the other. -/
theorem scan_flatMap_append_of_mem {ι : Type} {g : Grammar α} {written : ι → Text} {found : ι → List α}
    {pieces : List ι} (h : ∀ i ∈ pieces, ∀ t, g.scan (written i ++ t) = found i ++ g.scan t) (t : Text) :
    g.scan (pieces.flatMap written ++ t) = pieces.flatMap found ++ g.scan t := by
  induction pieces with
  | nil => rfl
  | cons i pieces ih =>
    rw [List.flatMap_cons, List.append_assoc, h i List.mem_cons_self, ih fun j hj => h j (List.mem_cons_of_mem i hj),
      List.flatMap_cons, List.append_assoc]

/-- Pieces of which each holds at most one reading are scanned one after the other. -/
theorem scan_flatMap_append {ι : Type} {g : Grammar α} {written : ι → Text} {found : ι → Option α}
    (h : ∀ i t, g.scan (written i ++ t) = (found i).toList ++ g.scan t) (pieces : List ι) (t : Text) :
    g.scan (pieces.flatMap written ++ t) = pieces.filterMap found ++ g.scan t := by
  have hfound : pieces.flatMap (fun i => (found i).toList) = pieces.filterMap found := by
    induction pieces with
    | nil => rfl
    | cons i pieces ih =>
      rw [List.flatMap_cons, ih, List.filterMap_cons]
      cases found i <;> rfl
  rw [scan_flatMap_append_of_mem (fun i _ => h i), hfound]

private theorem suffix_append_cases {u x y : Text} (h : u <:+ x ++ y) :
    u <:+ y ∨ ∃ v, v <:+ x ∧ v ≠ [] ∧ u = v ++ y := by
  obtain ⟨z, hz⟩ := h
  rcases List.append_eq_append_iff.mp hz with ⟨v, rfl, rfl⟩ | ⟨v, -, rfl⟩
  · by_cases hv : v = []
    · subst hv
      exact Or.inl List.suffix_rfl
    · exact Or.inr ⟨v, List.suffix_append z v, hv, rfl⟩
  · exact Or.inl (List.suffix_append v u)

section
variable {g : Grammar α} {x y : Text}

/-- Nothing is read that starts in the text, whatever follows it. -/
def Passes (g : Grammar α) (x : Text) : Prop := ∀ u, u <:+ x → u ≠ [] → ∀ t, g.run (u ++ t) = none

theorem Passes.scan_append (h : g.Passes x) (t : Text) : g.scan (x ++ t) = g.scan t :=
  scan_append_of_run_eq_none fun u hu hne => h u hu hne t

theorem Passes.of_suffix (h : g.Passes x) (hy : y <:+ x) : g.Passes y := fun u hu => h u (hu.trans hy)

theorem passes_nil : g.Passes [] := fun _ hu hne => absurd (List.suffix_nil.mp hu) hne

theorem Passes.append (hx : g.Passes x) (hy : g.Passes y) : g.Passes (x ++ y) := by
  intro u hu hne t
  rcases suffix_append_cases hu with hu | ⟨v, hv, hv', rfl⟩
  · exact hy u hu hne t
  · rw [List.append_assoc]
    exact hx v hv hv' (y ++ t)

theorem passes_flatMap {ι : Type} {written : ι → Text} {pieces : List ι} (h : ∀ i ∈ pieces, g.Passes (written i)) :
    g.Passes (pieces.flatMap written) := by
  induction pieces with
  | nil => exact passes_nil
  | cons i pieces ih =>
    rw [List.flatMap_cons]
    exact (h i List.mem_cons_self).append (ih fun j hj => h j (List.mem_cons_of_mem i hj))

/-- Pieces with other text between them, in which no reading starts. -/
theorem scan_joinWith {ι : Type} {separator : Text} (hseparator : g.Passes separator) {written : ι → Text}
    {found : ι → List α} {pieces : List ι}
    (h : ∀ i ∈ pieces, ∀ t, g.scan (written i ++ t) = found i ++ g.scan t) :
    g.scan (Text.joinWith separator (pieces.map written)) = pieces.flatMap found := by
  induction pieces with
  | nil => exact scan_nil g
  | cons i pieces ih =>
    have hi := h i List.mem_cons_self
    have hrest := ih fun j hj => h j (List.mem_cons_of_mem i hj)
    cases pieces with
    | nil =>
      have hlast := hi []
      rw [List.append_nil, scan_nil] at hlast
      simpa [Text.joinWith] using hlast
    | cons j pieces =>
      rw [List.map_cons, List.map_cons, Text.joinWith, List.append_assoc, hi, hseparator.scan_append, ← List.map_cons,
        hrest]
      rfl

end

private theorem exists_run_of_mem_scanAfter {g : Grammar α} {covered : Nat} {s : Text} {a : α}
    (h : a ∈ g.scanAfter covered s) : ∃ u r, g.run u = some (a, r) ∧ u <:+ s := by
  fun_induction scanAfter g covered s with
  | case1 => simp at h
  | case2 _ c s ih | case3 c s _ ih | case4 c s _ _ _ _ ih =>
    obtain ⟨u, r, hu, hs⟩ := ih h
    exact ⟨u, r, hu, hs.trans (List.suffix_cons c s)⟩
  | case5 c s b r hr more _ ih =>
    rcases List.mem_cons.mp h with rfl | h
    · exact ⟨c :: s, r, hr, List.suffix_rfl⟩
    · obtain ⟨u, r, hu, hs⟩ := ih h
      exact ⟨u, r, hu, hs.trans (List.suffix_cons c s)⟩

/-- What a scan finds was read somewhere in the text. -/
theorem exists_run_of_mem_scan {g : Grammar α} {s : Text} {a : α} (h : a ∈ g.scan s) :
    ∃ u r, g.run u = some (a, r) ∧ u <:+ s := exists_run_of_mem_scanAfter h

def afterBlanks (next : Grammar α) : Grammar α := do
  let _ ← blanks1
  next

private theorem run_afterBlanks_append {next : Grammar α} {b t : Text} (hb : IsGap b) (ht : Stops isBlank t) :
    (afterBlanks next).run (b ++ t) = next.run t :=
  run_bind_of_eq_some (run_blanks1_eq_some_iff.mpr ⟨rfl, hb, ht⟩)

/-- One blank before a word. -/
theorem run_afterBlanks_word {next : Grammar α} {c : Char} {w : Text} (hc : isBlank c = true) (hw : IsWord w)
    (t : Text) : (afterBlanks next).run (c :: (w ++ t)) = next.run (w ++ t) :=
  run_afterBlanks_append (b := [c]) ⟨by simp, by simpa using hc⟩ (hw.stops_isBlank t)

theorem run_afterBlanks_of_stops {next : Grammar α} {t : Text} (ht : Stops isBlank t) :
    (afterBlanks next).run t = none :=
  run_bind_of_eq_none (run_run1_eq_none ht)

private theorem run_afterBlanks_eq_none {next : Grammar α} {t : Text}
    (h : next.run (t.dropWhile isBlank) = none) : (afterBlanks next).run t = none := by
  have hs : t.takeWhile isBlank ++ t.dropWhile isBlank = t := List.takeWhile_append_dropWhile
  by_cases hne : t.takeWhile isBlank = []
  · rw [hne, List.nil_append] at hs
    exact run_afterBlanks_of_stops (hs ▸ stops_dropWhile t)
  · have hb : IsGap (t.takeWhile isBlank) := ⟨hne, List.all_eq_true.mp List.all_takeWhile⟩
    rw [← hs, run_afterBlanks_append hb (stops_dropWhile t), h]

/-- A grammar that reads nothing unless a word character comes first. -/
def WordLed (g : Grammar α) : Prop := ∀ t, Stops isWordChar t → g.run t = none

theorem wordLed_word_bind {next : Text → Grammar α} : WordLed (word >>= next) :=
  fun _ ht => run_bind_of_eq_none (run_run1_eq_none ht)

theorem wordLed_word : WordLed word := fun _ ht => run_run1_eq_none ht

namespace WordLed
variable {g : Grammar α}

theorem scan_cons (hg : WordLed g) {c : Char} (hc : isWordChar c = false) (t : Text) :
    g.scan (c :: t) = g.scan t :=
  scan_cons_of_run_eq_none (hg _ (stops_cons.mpr hc))

/-- A reading is not empty if no word goes on where it ends. -/
theorem length_lt_of_run (hg : WordLed g) {s r : Text} {a : α} (h : g.run s = some (a, r))
    (hr : Stops isWordChar r) : r.length < s.length := by
  have hs := g.rest_suffix h
  rcases Nat.lt_or_ge r.length s.length with hlt | hge
  · exact hlt
  · rw [hs.eq_of_length_le hge, hg s (hs.eq_of_length_le hge ▸ hr)] at h
    cases h

/-- The scan goes on where a reading ends, if no word goes on there. -/
theorem scan_of_run (hg : WordLed g) {s r : Text} {a : α} (h : g.run s = some (a, r))
    (hr : Stops isWordChar r) : g.scan s = a :: g.scan r :=
  scan_of_run_eq_some h (hg.length_lt_of_run h hr)

/-- No reading starts in blanks. -/
theorem suffix_of_suffix_gap_append (hg : WordLed g) {b t u : Text} {out : α × Text} (hb : IsGap b)
    (hu : u <:+ b ++ t) (h : g.run u = some out) : u <:+ t := by
  rcases suffix_append_cases hu with hu | ⟨v, hv, hne, rfl⟩
  · exact hu
  · have hgap : IsGap v := ⟨hne, fun c hc => hb.blank c (hv.subset hc)⟩
    rw [hg _ (hgap.stops_isWordChar t)] at h
    cases h

theorem passes (hg : WordLed g) {x : Text} (hx : ∀ c ∈ x, isWordChar c = false) : g.Passes x := by
  intro u hu hne t
  obtain ⟨c, u, rfl⟩ := List.exists_cons_of_ne_nil hne
  exact hg _ (stops_cons.mpr (hx c (hu.subset List.mem_cons_self)))

/-- Blanks do not help where no word stands behind them. -/
theorem run_afterBlanks (hg : WordLed g) {t : Text} (ht : Stops isWordChar (t.dropWhile isBlank)) :
    (afterBlanks g).run t = none :=
  run_afterBlanks_eq_none (hg _ ht)

end WordLed

structure Keyworded (g : Grammar α) (k : Text) (next : Grammar α) : Prop where
  isWord : IsWord k
  eq_bind : g = (do let _ ← literal k; afterBlanks next)

namespace Keyworded
variable {g next : Grammar α} {k : Text}

/-- A keyword is read exactly where the whole word is the keyword. -/
theorem run_append (hg : Keyworded g k next) {w t : Text} (hw : ∀ c ∈ w, isWordChar c = true)
    (ht : Stops isWordChar t) : g.run (w ++ t) = if w = k then (afterBlanks next).run t else none := by
  rw [hg.eq_bind]
  split
  · next h =>
    subst h
    exact run_bind_of_eq_some (run_literal_eq_some_iff.mpr ⟨rfl, rfl⟩)
  · next h =>
    rw [Option.eq_none_iff_forall_ne_some]
    rintro ⟨a, r⟩ hr
    obtain ⟨_, r₁, hl, hr⟩ := run_bind_eq_some_iff.mp hr
    obtain ⟨b, r₂, hb, -⟩ := run_bind_eq_some_iff.mp hr
    obtain ⟨-, he⟩ := run_literal_eq_some_iff.mp hl
    obtain ⟨rfl, hb, -⟩ := run_blanks1_eq_some_iff.mp hb
    exact h (run_unique he hw ht hg.isWord.chars (hb.stops_isWordChar r₂)).1

/-- A reading that starts in a word starts with the keyword, which ends the word. -/
theorem suffix_of_suffix_word_append (hg : Keyworded g k next) {w t u : Text} {out : α × Text}
    (hw : ∀ c ∈ w, isWordChar c = true) (ht : Stops isWordChar t) (hu : u <:+ w ++ t) (h : g.run u = some out) :
    u <:+ t ∨ k <:+ w ∧ u = k ++ t := by
  rcases suffix_append_cases hu with hu | ⟨v, hv, -, rfl⟩
  · exact Or.inl hu
  · rw [hg.run_append (fun c hc => hw c (hv.subset hc)) ht] at h
    split at h
    · next he => exact Or.inr ⟨he ▸ hv, by rw [he]⟩
    · cases h

theorem wordLed (hg : Keyworded g k next) : WordLed g := by
  intro t ht
  change g.run ([] ++ t) = none
  rw [hg.run_append (by simp) ht, if_neg (Ne.symm hg.isWord.ne_nil)]

/-- A word is passed over unless it ends in the keyword and the rest fits. -/
theorem scan_word (hg : Keyworded g k next) {w t : Text} (hw : ∀ c ∈ w, isWordChar c = true)
    (ht : Stops isWordChar t) (h : k <:+ w → (afterBlanks next).run t = none) :
    g.scan (w ++ t) = g.scan t := by
  apply scan_append_of_run_eq_none
  intro u hu _
  rw [hg.run_append (fun c hc => hw c (hu.subset hc)) ht]
  split
  · next he => exact h (he ▸ hu)
  · rfl

theorem scan_word_cons (hg : Keyworded g k next) {w t : Text} {c : Char} (hw : ∀ c ∈ w, isWordChar c = true)
    (hc : isWordChar c = false) (h : k <:+ w → (afterBlanks next).run (c :: t) = none) :
    g.scan (w ++ c :: t) = g.scan t := by
  rw [hg.scan_word hw (stops_cons.mpr hc) h, hg.wordLed.scan_cons hc]

/-- A word that does not end in the keyword is passed over, with the character behind it. -/
theorem scan_other_cons (hg : Keyworded g k next) {w t : Text} {c : Char} (hw : IsWord w) (hk : ¬ k <:+ w)
    (hc : isWordChar c = false) : g.scan (w ++ c :: t) = g.scan t :=
  hg.scan_word_cons hw.chars hc fun h => absurd h hk

/-- Text that does not contain the keyword, up to a character that no word has, is passed over. -/
theorem scan_of_absent (hg : Keyworded g k next) {x : Text} (hx : ¬ k <:+: x) {c : Char}
    (hc : isWordChar c = false) (t : Text) : g.scan (x ++ c :: t) = g.scan (c :: t) := by
  apply scan_append_of_run_eq_none
  intro u hu _
  rw [Option.eq_none_iff_forall_ne_some]
  rintro ⟨a, r⟩ hr
  rw [hg.eq_bind] at hr
  obtain ⟨_, r₁, hl, -⟩ := run_bind_eq_some_iff.mp hr
  obtain ⟨-, he⟩ := run_literal_eq_some_iff.mp hl
  have hck : c ∉ k := fun hm => by simp [hg.isWord.chars c hm] at hc
  obtain ⟨v, rfl, -⟩ := append_eq_append_cons he hck
  exact hx ((List.prefix_append k v).isInfix.trans hu.isInfix)

end Keyworded
end ClassNotation.Grammar
