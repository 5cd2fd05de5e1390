import ClassNotation.Proofs.LeftmostReadings

/-! Scans for runs of characters. A grammar that takes a whole run of a character class off the front of
a text finds the maximal runs of the document when it is scanned for: it comes to the middle of a run
only behind a character of it, and that character would have been read with the run. -/
namespace ClassNotation.Grammar

/-- What the grammar reads, if it is not nothing, is a whole run of the class. -/
def TakesRuns (p : Char → Bool) (g : Grammar Text) : Prop :=
  ∀ s w r, (g.run s = some (w, r) ∧ r.length < s.length) ↔
    s = w ++ r ∧ w ≠ [] ∧ (∀ c ∈ w, p c = true) ∧ Stops p r

private theorem length_lt_append {w : Text} (hne : w ≠ []) (r : Text) : r.length < (w ++ r).length := by
  have hpos := List.length_pos_iff.mpr hne
  rw [List.length_append]
  omega

private theorem takesRuns_run0 (p : Char → Bool) : (run0 p).TakesRuns p := by
  intro s w r
  rw [run_run0_eq_some_iff]
  constructor
  · rintro ⟨⟨rfl, hw, hr⟩, hlt⟩
    refine ⟨rfl, ?_, hw, hr⟩
    rintro rfl
    simp at hlt
  · rintro ⟨rfl, hne, hw, hr⟩
    exact ⟨⟨rfl, hw, hr⟩, length_lt_append hne r⟩

private theorem takesRuns_run1 (p : Char → Bool) : (run1 p).TakesRuns p := by
  intro s w r
  rw [run_run1_eq_some_iff]
  constructor
  · exact fun h => h.1
  · rintro ⟨rfl, hne, hw, hr⟩
    exact ⟨⟨rfl, hne, hw, hr⟩, length_lt_append hne r⟩

/-- The reading is a maximal run of the class, and stands where it says. -/
def Reading.IsMaximalRun (p : Char → Bool) (document : Text) (x : Reading Text) : Prop :=
  ∃ before after, document = before ++ (x.result ++ after) ∧ x.start = before.length ∧
    x.stop = (before ++ x.result).length ∧ MaximalRun p before x.result after

/-- A scan finds the maximal runs of the class and nothing else. They are in order, some other character
stands between any two of them, and together they are all the characters of the class. -/
structure FindsRuns (p : Char → Bool) (document : Text) (g : Grammar Text) : Prop where
  results : g.scan document = (g.readings document).map Reading.result
  mem_iff : ∀ x, x ∈ g.readings document ↔ x.IsMaximalRun p document
  apart : (g.readings document).Pairwise fun x y => x.stop < y.start
  flatten : (g.scan document).flatten = document.filter p

namespace TakesRuns
variable {p : Char → Bool} {g : Grammar Text} {document : Text} {x y : Reading Text} {position : Nat}

/-- Around a reading the document falls into what stands before it, a run that goes on no further, and
what stands behind it. -/
theorem isReadBy_iff (hg : g.TakesRuns p) : x.IsReadBy (byLength g) document ↔
    ∃ before after, document = before ++ (x.result ++ after) ∧ x.start = before.length ∧
      x.stop = (before ++ x.result).length ∧ x.result ≠ [] ∧ (∀ c ∈ x.result, p c = true) ∧ Stops p after := by
  rw [Reading.isReadBy_byLength_iff]
  constructor
  · rintro ⟨hlt, hle, hrun⟩
    have hshorter : (document.drop x.stop).length < (document.drop x.start).length := by
      simp only [List.length_drop]
      omega
    obtain ⟨hs, hne, hchars, hstops⟩ := (hg _ _ _).mp ⟨hrun, hshorter⟩
    have hlength := congrArg List.length hs
    simp only [List.length_append, List.length_drop] at hlength
    refine ⟨document.take x.start, document.drop x.stop, ?_, ?_, ?_, hne, hchars, hstops⟩
    · rw [← hs, List.take_append_drop]
    · rw [List.length_take]
      omega
    · rw [List.length_append, List.length_take]
      omega
  · rintro ⟨before, after, rfl, hstart, hstop, hne, hchars, hstops⟩
    have hpos := List.length_pos_iff.mpr hne
    obtain ⟨hrun, -⟩ := (hg _ _ _).mpr ⟨rfl, hne, hchars, hstops⟩
    rw [List.length_append] at hstop
    refine ⟨by omega, by simp only [List.length_append]; omega, ?_⟩
    rw [hstart, List.drop_left, hstop, List.drop_append, hrun]
    simp

private theorem readsAt_iff (hg : g.TakesRuns p) :
    ReadsAt (byLength g) document position ↔ ¬ Stops p (document.drop position) := by
  constructor
  · rintro ⟨x, hx, rfl⟩ hstops
    obtain ⟨before, after, rfl, hstart, -, hne, hchars, -⟩ := hg.isReadBy_iff.mp hx
    obtain ⟨c, w, hw⟩ := List.exists_cons_of_ne_nil hne
    rw [hstart, List.drop_left, hw, List.cons_append, stops_cons] at hstops
    simp [hchars c (by simp [hw])] at hstops
  · intro hstops
    have hsplit : (document.drop position).takeWhile p ++ (document.drop position).dropWhile p = document.drop position :=
      List.takeWhile_append_dropWhile
    have hne : (document.drop position).takeWhile p ≠ [] := by
      intro hnil
      rw [hnil, List.nil_append] at hsplit
      exact hstops (hsplit ▸ stops_dropWhile _)
    have hlt : position < document.length := by
      by_contra hle
      rw [List.drop_eq_nil_of_le (by omega)] at hne
      exact hne rfl
    have htake : (document.take position).length = position := by
      rw [List.length_take]
      omega
    refine ⟨⟨position, (document.take position ++ (document.drop position).takeWhile p).length, _⟩,
      hg.isReadBy_iff.mpr ⟨document.take position, (document.drop position).dropWhile p, ?_, htake.symm, rfl, hne,
        List.all_eq_true.mp List.all_takeWhile, stops_dropWhile _⟩, rfl⟩
    rw [hsplit, List.take_append_drop]

private theorem not_readsAt_stop (hg : g.TakesRuns p) (hx : x.IsReadBy (byLength g) document) :
    ¬ ReadsAt (byLength g) document x.stop := by
  obtain ⟨before, after, rfl, -, hstop, -, -, hstops⟩ := hg.isReadBy_iff.mp hx
  rw [hg.readsAt_iff, hstop, ← List.append_assoc, List.drop_left]
  exact fun h => h hstops

private theorem readsAt_of_inside (hg : g.TakesRuns p) (hx : x.IsReadBy (byLength g) document)
    (hle : x.start ≤ position)
    (hlt : position < x.stop) : ReadsAt (byLength g) document position := by
  obtain ⟨before, after, rfl, hstart, hstop, -, hchars, -⟩ := hg.isReadBy_iff.mp hx
  rw [List.length_append] at hstop
  have hinside : position - before.length < x.result.length := by omega
  have hdrop : (before ++ (x.result ++ after)).drop position =
      x.result[position - before.length] :: (x.result.drop (position - before.length + 1) ++ after) := by
    rw [List.drop_append, List.drop_eq_nil_of_le (by omega), List.nil_append, List.drop_append_of_le_length (by omega),
      List.drop_eq_getElem_cons hinside, List.cons_append]
  rw [hg.readsAt_iff, hdrop, stops_cons, hchars _ (List.getElem_mem hinside)]
  simp

private theorem stops_reverse_iff (hg : g.TakesRuns p) {before rest : Text} (h : document = before ++ rest) :
    Stops p before.reverse ↔ ∀ i, before.length = i + 1 → ¬ ReadsAt (byLength g) document i := by
  rcases List.eq_nil_or_concat before with rfl | ⟨front, c, rfl⟩
  · simp
  · rw [List.concat_eq_append] at h ⊢
    have hdrop : document.drop front.length = c :: rest := by simp [h]
    have hlength (i : Nat) : (front ++ [c]).length = i + 1 ↔ front.length = i := by simp
    simp only [hlength, forall_eq', hg.readsAt_iff, hdrop, not_not]
    simp

private theorem isMaximalRun_iff (hg : g.TakesRuns p) : x.IsMaximalRun p document ↔
    x.IsReadBy (byLength g) document ∧ ∀ i, x.start = i + 1 → ¬ ReadsAt (byLength g) document i := by
  rw [hg.isReadBy_iff]
  constructor
  · rintro ⟨before, after, hdocument, hstart, hstop, hne, hchars, hleft, hright⟩
    refine ⟨⟨before, after, hdocument, hstart, hstop, hne, hchars, hright⟩, ?_⟩
    rw [hstart]
    exact (hg.stops_reverse_iff hdocument).mp hleft
  · rintro ⟨⟨before, after, hdocument, hstart, hstop, hne, hchars, hright⟩, hbefore⟩
    rw [hstart] at hbefore
    exact ⟨before, after, hdocument, hstart, hstop, hne, hchars, (hg.stops_reverse_iff hdocument).mpr hbefore, hright⟩

/-- From a place where no run is cut, a leftmost sequence has no reading that begins inside a run. -/
theorem not_readsAt_before (hg : g.TakesRuns p) {readings : List (Reading Text)}
    (h : Leftmost (byLength g) document position readings)
    (hposition : position = 0 ∨ ¬ ReadsAt (byLength g) document position) (hx : x ∈ readings) {i : Nat}
    (hi : x.start = i + 1) : ¬ ReadsAt (byLength g) document i := by
  induction readings generalizing position with
  | nil => simp at hx
  | cons y rest ih =>
    obtain ⟨hleast, hread, hrest⟩ := h
    rcases List.mem_cons.mp hx with rfl | hx
    · intro hreads
      -- a reading begins at `position` itself only at the front of the document
      have hne : position ≠ x.start := by
        intro he
        rcases hposition with hzero | hnot
        · omega
        · exact hnot (he ▸ hleast.1.2)
      have hle := hleast.1.1
      have hbefore : x.start ≤ i := hleast.2 ⟨by omega, hreads⟩
      omega
    · exact ih hrest (Or.inr (hg.not_readsAt_stop hread)) hx

private theorem mem_readings_iff (hg : g.TakesRuns p) : x ∈ g.readings document ↔ x.IsMaximalRun p document := by
  have hleftmost := leftmost_readings g document
  rw [hg.isMaximalRun_iff]
  constructor
  · intro hx
    exact ⟨(hleftmost.of_mem hx).2, fun i => hg.not_readsAt_before hleftmost (Or.inl rfl) hx⟩
  · rintro ⟨hx, hbefore⟩
    obtain ⟨y, hy, hle, hlt⟩ := hleftmost.exists_mem (Nat.zero_le _) ⟨x, hx, rfl⟩
    have hread := (hleftmost.of_mem hy).2
    by_cases hstart : y.start = x.start
    · exact hread.eq hx hstart ▸ hy
    · -- a reading that goes over the front of the run has a character of the class before it
      have hpred : x.start = x.start - 1 + 1 := by omega
      exact absurd (hg.readsAt_of_inside hread (by omega) (by omega)) (hbefore _ hpred)

private theorem pairwise_readings (hg : g.TakesRuns p) :
    (g.readings document).Pairwise fun x y => x.stop < y.start := by
  have hleftmost := leftmost_readings g document
  refine hleftmost.pairwise.imp_of_mem fun {x y} hx hy hle => ?_
  refine Nat.lt_of_le_of_ne hle fun he => ?_
  have hy := (hleftmost.of_mem hy).2
  exact hg.not_readsAt_stop (hleftmost.of_mem hx).2 (he ▸ ⟨y, hy, rfl⟩)

/-- The runs are all that the document has of the class. -/
theorem flatten_readingsFrom (hg : g.TakesRuns p) (document : Text) (position : Nat) :
    ((g.readingsFrom document position).map Reading.result).flatten = (document.drop position).filter p := by
  induction position using place_induction (byLength g) document with
  | finished i h => simp [readingsFrom_of_length_le h, List.drop_eq_nil_of_le h]
  | pass i hlt h ih =>
    have hother : p document[i] = false := by
      rw [hg.readsAt_iff, List.drop_eq_getElem_cons hlt, stops_cons] at h
      simpa using h
    rw [readingsFrom_of_not_readsAt hlt h, ih, List.drop_eq_getElem_cons hlt, List.filter_cons_of_neg (by simp [hother])]
  | found x h ih =>
    obtain ⟨before, after, hdocument, hstart, hstop, -, hchars, -⟩ := hg.isReadBy_iff.mp h
    have hbehind : document.drop x.stop = after := by rw [hstop, hdocument, ← List.append_assoc, List.drop_left]
    have hfront : document.drop x.start = x.result ++ after := by rw [hstart, hdocument, List.drop_left]
    rw [readingsFrom_of_isReadBy h, List.map_cons, List.flatten_cons, ih, hbehind, hfront, List.filter_append,
      List.filter_eq_self.mpr hchars]

private theorem findsRuns (hg : g.TakesRuns p) (document : Text) : FindsRuns p document g where
  results := (map_result_readings g document).symm
  mem_iff _ := hg.mem_readings_iff
  apart := hg.pairwise_readings
  flatten := by
    rw [← map_result_readings]
    exact hg.flatten_readingsFrom document 0

private theorem readings_eq {g' : Grammar Text} (hg : g.TakesRuns p) (hg' : g'.TakesRuns p) (document : Text) :
    g.readings document = g'.readings document := by
  apply readings_congr
  intro x
  rw [hg.isReadBy_iff, hg'.isReadBy_iff]

end TakesRuns

/-- Scanned for, words, blanks and padding are the maximal runs of their characters, and blanks that may
be absent are the same as blanks that may not. -/
theorem run_scans_find_maximal_runs (document : Text) :
    FindsRuns isWordChar document word ∧ FindsRuns isBlank document blanks1 ∧ FindsRuns isPadding document padding ∧
    blanks.readings document = blanks1.readings document ∧ blanks.scan document = blanks1.scan document := by
  have hblanks := (takesRuns_run0 isBlank).readings_eq (takesRuns_run1 isBlank) document
  refine ⟨(takesRuns_run1 _).findsRuns document, (takesRuns_run1 _).findsRuns document,
    (takesRuns_run0 _).findsRuns document, hblanks, ?_⟩
  rw [← map_result_readings, ← map_result_readings]
  exact congrArg (List.map Reading.result) hblanks

end ClassNotation.Grammar
