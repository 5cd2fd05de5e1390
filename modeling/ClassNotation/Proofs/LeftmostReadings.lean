import Mathlib.Logic.Equiv.Defs
import Mathlib.Logic.Function.Iterate
import Mathlib.Order.Bounds.Basic
import ClassNotation.Proofs.ScanPlaces

/-! A scan finds the leftmost readings. A grammar is taken as a function that tells how many characters
it reads off a remaining text. The readings of its scan are then the one sequence in which each begins at
the first place, from the end of the one before it on, where something is read. A cursor that goes over
the document step by step comes to the end with the same results, since no step leaves it where it is. -/
namespace ClassNotation.Grammar
variable {α : Type}

/-- Fails on a remaining text, or gives a result and the number of characters that were read, which is
at most the length of the text. -/
abbrev LengthReader (α : Type) := (s : Text) → Option (α × Fin (s.length + 1))

def lengths (g : Grammar α) : LengthReader α := fun s =>
  (g.run s).map fun out => (out.1, ⟨s.length - out.2.length, Nat.lt_succ_of_le (Nat.sub_le _ _)⟩)

def ofLengths (read : LengthReader α) : Grammar α where
  run s := (read s).map fun out => (out.1, s.drop out.2)
  rest_suffix {s a r} h := by
    obtain ⟨⟨b, n⟩, -, he⟩ := Option.map_eq_some_iff.mp h
    cases he
    exact List.drop_suffix _ _

private theorem ofLengths_lengths (g : Grammar α) : ofLengths (lengths g) = g := by
  obtain ⟨run, hsuffix⟩ := g
  simp only [ofLengths, lengths, mk.injEq]
  funext s
  cases h : run s with
  | none => rfl
  | some out => simp [← List.suffix_iff_eq_drop.mp (hsuffix h)]

private theorem lengths_ofLengths (read : LengthReader α) : lengths (ofLengths read) = read := by
  funext s
  cases h : read s with
  | none => simp [lengths, ofLengths, h]
  | some out =>
    obtain ⟨a, n, hn⟩ := out
    have hlength : s.length - (s.length - n) = n := by omega
    simp [lengths, ofLengths, h, hlength]

def byLength : Grammar α ≃ LengthReader α := ⟨lengths, ofLengths, ofLengths_lengths, lengths_ofLengths⟩

/-- Something is read at the place of the reading, up to its end and with its result. -/
def Reading.IsReadBy (read : LengthReader α) (document : Text) (x : Reading α) : Prop :=
  x.start < x.stop ∧ ∃ n, read (document.drop x.start) = some (x.result, n) ∧ x.stop = x.start + n

/-- Something, and not only nothing, is read at the position. -/
def ReadsAt (read : LengthReader α) (document : Text) (position : Nat) : Prop :=
  ∃ x : Reading α, x.IsReadBy read document ∧ x.start = position

/-- The readings from a position on: each begins at the first place behind the one before it where
something is read, and behind the last one nothing is read any more. -/
def Leftmost (read : LengthReader α) (document : Text) : Nat → List (Reading α) → Prop
  | position, [] => ∀ i, position ≤ i → ¬ ReadsAt read document i
  | position, x :: rest =>
    IsLeast {i | position ≤ i ∧ ReadsAt read document i} x.start ∧ x.IsReadBy read document ∧
      Leftmost read document x.stop rest

/-- Where a walk over a document stands, and what it has found before. -/
structure Cursor (α : Type) where
  position : Nat
  found : List α

/-- One step of a walk: what is read is noted and the cursor goes to its end. Where nothing is read the
cursor goes on by one character. -/
def Cursor.advance (read : LengthReader α) (document : Text) (c : Cursor α) : Cursor α :=
  match read (document.drop c.position) with
  | none => ⟨c.position + 1, c.found⟩
  | some (a, n) => if 0 < n.val then ⟨c.position + n, c.found ++ [a]⟩ else ⟨c.position + 1, c.found⟩

/-- The walk comes to the end of the document with exactly that many steps, and has then found the given results. -/
def Cursor.EndsAfter (read : LengthReader α) (document : Text) (c : Cursor α) (steps : Nat) (found : List α) : Prop :=
  (∀ k < steps, ((advance read document)^[k] c).position < document.length) ∧
    (advance read document)^[steps] c = ⟨document.length, found⟩

section Places
variable {read : LengthReader α} {document : Text} {x y : Reading α} {position : Nat}

private theorem Reading.IsReadBy.stop_le (h : x.IsReadBy read document) : x.stop ≤ document.length := by
  obtain ⟨hlt, n, -, hstop⟩ := h
  have hn : n.val ≤ (document.drop x.start).length := Nat.le_of_lt_succ n.isLt
  have hdrop : (document.drop x.start).length = document.length - x.start := List.length_drop
  omega

/-- At one place there is only one reading. -/
theorem Reading.IsReadBy.eq (hx : x.IsReadBy read document) (hy : y.IsReadBy read document) (h : x.start = y.start) :
    x = y := by
  obtain ⟨start, stop, a⟩ := x
  obtain ⟨start', stop', b⟩ := y
  obtain rfl : start = start' := h
  obtain ⟨-, n, hn, hstop⟩ := hx
  obtain ⟨-, m, hm, hstop'⟩ := hy
  obtain ⟨rfl, rfl⟩ : a = b ∧ n = m := by simpa [hn] using hm
  obtain rfl : stop = stop' := hstop.trans hstop'.symm
  rfl

private theorem not_readsAt_of_length_le (h : document.length ≤ position) : ¬ ReadsAt read document position := by
  rintro ⟨x, hx, rfl⟩
  have hstop := hx.stop_le
  have hlt := hx.1
  omega

/-- The positions of a document from its end back to its beginning: at each of them something is read, or
the next position is gone on to. -/
@[elab_as_elim]
theorem place_induction (read : LengthReader α) (document : Text) {motive : Nat → Prop}
    (finished : ∀ i, document.length ≤ i → motive i)
    (pass : ∀ i, i < document.length → ¬ ReadsAt read document i → motive (i + 1) → motive i)
    (found : ∀ x : Reading α, x.IsReadBy read document → motive x.stop → motive x.start) (position : Nat) :
    motive position := by
  induction hn : document.length - position using Nat.strongRecOn generalizing position with
  | ind n ih =>
    by_cases hend : document.length ≤ position
    · exact finished position hend
    · by_cases hreads : ReadsAt read document position
      · obtain ⟨x, hx, rfl⟩ := hreads
        have hlt := hx.1
        exact found x hx (ih _ (by omega) x.stop rfl)
      · exact pass position (by omega) hreads (ih _ (by omega) (position + 1) rfl)

section Sequences
variable {readings : List (Reading α)}

private theorem leftmost_of_length_le (h : document.length ≤ position) :
    Leftmost read document position readings ↔ readings = [] := by
  have hnone (i : Nat) (hi : position ≤ i) : ¬ ReadsAt read document i := not_readsAt_of_length_le (by omega)
  cases readings with
  | nil => exact iff_of_true hnone rfl
  | cons x rest => exact iff_of_false (fun hl => hnone _ hl.1.1.1 hl.1.1.2) (by simp)

private theorem leftmost_of_not_readsAt (h : ¬ ReadsAt read document position) :
    Leftmost read document position readings ↔ Leftmost read document (position + 1) readings := by
  have hplace (i : Nat) :
      position ≤ i ∧ ReadsAt read document i ↔ position + 1 ≤ i ∧ ReadsAt read document i := by
    constructor
    · rintro ⟨hle, hi⟩
      have hne : position ≠ i := fun he => h (he ▸ hi)
      exact ⟨by omega, hi⟩
    · rintro ⟨hle, hi⟩
      exact ⟨by omega, hi⟩
  cases readings with
  | nil =>
    constructor
    · exact fun hl i hle => hl i (by omega)
    · exact fun hl i hle hi => hl i ((hplace i).mp ⟨hle, hi⟩).1 hi
  | cons x rest => simp only [Leftmost, hplace]

/-- A place where something is read is that of the first reading. -/
theorem leftmost_of_isReadBy (h : x.IsReadBy read document) :
    Leftmost read document x.start readings ↔
      ∃ rest, readings = x :: rest ∧ Leftmost read document x.stop rest := by
  have hleast : IsLeast {i | x.start ≤ i ∧ ReadsAt read document i} x.start :=
    ⟨⟨Nat.le_refl _, x, h, rfl⟩, fun _ hi => hi.1⟩
  constructor
  · intro hl
    cases readings with
    | nil => exact absurd ⟨x, h, rfl⟩ (hl x.start (Nat.le_refl _))
    | cons y rest =>
      obtain ⟨hy, hread, hrest⟩ := hl
      obtain rfl := h.eq hread (hleast.unique hy)
      exact ⟨rest, rfl, hrest⟩
  · rintro ⟨rest, rfl, hrest⟩
    exact ⟨hleast, h, hrest⟩

theorem Leftmost.of_mem (h : Leftmost read document position readings) (hx : x ∈ readings) :
    position ≤ x.start ∧ x.IsReadBy read document := by
  induction readings generalizing position with
  | nil => simp at hx
  | cons y rest ih =>
    obtain ⟨hleast, hread, hrest⟩ := h
    have hle := hleast.1.1
    rcases List.mem_cons.mp hx with rfl | hx
    · exact ⟨hle, hread⟩
    · obtain ⟨hbehind, hx⟩ := ih hrest hx
      have hlt := hread.1
      exact ⟨by omega, hx⟩

/-- The readings of a leftmost sequence stand one behind the other. -/
theorem Leftmost.pairwise (h : Leftmost read document position readings) :
    readings.Pairwise fun x y => x.stop ≤ y.start := by
  induction readings generalizing position with
  | nil => exact List.Pairwise.nil
  | cons x rest ih => exact List.pairwise_cons.mpr ⟨fun y hy => (h.2.2.of_mem hy).1, ih h.2.2⟩

/-- Where something is read there is a reading of the sequence, which begins there or goes over it. -/
theorem Leftmost.exists_mem (h : Leftmost read document position readings) {i : Nat} (hle : position ≤ i)
    (hi : ReadsAt read document i) : ∃ x ∈ readings, x.start ≤ i ∧ i < x.stop := by
  induction readings generalizing position with
  | nil => exact absurd hi (h i hle)
  | cons x rest ih =>
    obtain ⟨hleast, -, hrest⟩ := h
    by_cases hstop : x.stop ≤ i
    · obtain ⟨y, hy, hinside⟩ := ih hrest hstop
      exact ⟨y, List.mem_cons_of_mem x hy, hinside⟩
    · exact ⟨x, List.mem_cons_self, hleast.2 ⟨hle, hi⟩, by omega⟩

private theorem leftmost_congr {read' : LengthReader α}
    (h : ∀ x : Reading α, x.IsReadBy read document ↔ x.IsReadBy read' document) :
    Leftmost read document position readings ↔ Leftmost read' document position readings := by
  have hreads (i : Nat) : ReadsAt read document i ↔ ReadsAt read' document i := by simp only [ReadsAt, h]
  induction readings generalizing position with
  | nil => simp only [Leftmost, hreads]
  | cons x rest ih => simp only [Leftmost, hreads, h, ih]

end Sequences

section Steps
variable {found : List α}

private theorem Cursor.advance_of_isReadBy (h : x.IsReadBy read document) :
    Cursor.advance read document ⟨x.start, found⟩ = ⟨x.stop, found ++ [x.result]⟩ := by
  obtain ⟨hlt, n, hread, hstop⟩ := h
  have hpos : 0 < n.val := by omega
  simp [advance, hread, hpos, hstop]

private theorem Cursor.advance_of_not_readsAt (h : ¬ ReadsAt read document position) :
    Cursor.advance read document ⟨position, found⟩ = ⟨position + 1, found⟩ := by
  cases hread : read (document.drop position) with
  | none => simp [advance, hread]
  | some out =>
    obtain ⟨a, n⟩ := out
    have hzero : ¬ 0 < n.val := by
      intro hpos
      exact h ⟨⟨position, position + n, a⟩, ⟨Nat.lt_add_of_pos_right hpos, n, hread, rfl⟩, rfl⟩
    simp [advance, hread, hzero]

private theorem Cursor.EndsAfter.step {c : Cursor α} {steps : Nat} (hlt : c.position < document.length)
    (h : (c.advance read document).EndsAfter read document steps found) : c.EndsAfter read document (steps + 1) found := by
  constructor
  · intro k hk
    cases k with
    | zero => exact hlt
    | succ k =>
      rw [Function.iterate_succ_apply]
      exact h.1 k (by omega)
  · rw [Function.iterate_succ_apply]
    exact h.2

end Steps
end Places

section Scan
variable {g : Grammar α} {document : Text} {x : Reading α} {position : Nat}

theorem Reading.isReadBy_byLength_iff : x.IsReadBy (byLength g) document ↔
    x.start < x.stop ∧ x.stop ≤ document.length ∧
      g.run (document.drop x.start) = some (x.result, document.drop x.stop) := by
  constructor
  · intro h
    refine ⟨h.1, h.stop_le, ?_⟩
    obtain ⟨hlt, n, hread, hstop⟩ := h
    obtain ⟨⟨a, r⟩, hrun, he⟩ := Option.map_eq_some_iff.mp hread
    obtain ⟨rfl, rfl⟩ := Prod.mk.inj he
    have hr := (g.rest_suffix hrun).length_le
    have hrest : r = document.drop x.stop := by
      rw [List.suffix_iff_eq_drop.mp ((g.rest_suffix hrun).trans (List.drop_suffix _ _)), hstop]
      congr 1
      simp only [List.length_drop] at hr hstop ⊢
      omega
    rw [hrun, hrest]
  · rintro ⟨hlt, hle, hrun⟩
    refine ⟨hlt, ⟨x.stop - x.start, by rw [List.length_drop]; omega⟩, ?_, by simp; omega⟩
    change (g.run _).map _ = _
    rw [hrun]
    simp only [Option.map_some, List.length_drop, Option.some.injEq, Prod.mk.injEq, Fin.mk.injEq, true_and]
    omega

def readingsFrom (g : Grammar α) (document : Text) (position : Nat) : List (Reading α) :=
  (g.located document.length).scan (document.drop position)

theorem readingsFrom_of_length_le (h : document.length ≤ position) : g.readingsFrom document position = [] := by
  rw [readingsFrom, List.drop_eq_nil_of_le h, scan_nil]

theorem readingsFrom_of_not_readsAt (hlt : position < document.length) (h : ¬ ReadsAt (byLength g) document position) :
    g.readingsFrom document position = g.readingsFrom document (position + 1) := by
  rw [readingsFrom, List.drop_eq_getElem_cons hlt]
  apply scan_located_cons
  rw [← List.drop_eq_getElem_cons hlt]
  intro a r hrun
  -- a rest other than the whole text would be that of a reading at the position
  by_contra hne
  have hr := g.rest_suffix hrun
  have hshorter : r.length < (document.drop position).length :=
    Nat.lt_of_le_of_ne hr.length_le fun he => hne (hr.eq_of_length he)
  have hrest := List.suffix_iff_eq_drop.mp (hr.trans (List.drop_suffix _ _))
  rw [List.length_drop] at hshorter
  refine h ⟨⟨position, document.length - r.length, a⟩, Reading.isReadBy_byLength_iff.mpr ⟨?_, ?_, ?_⟩, rfl⟩
  · change position < document.length - r.length
    omega
  · exact Nat.sub_le _ _
  · rw [← hrest]
    exact hrun

theorem readingsFrom_of_isReadBy (h : x.IsReadBy (byLength g) document) :
    g.readingsFrom document x.start = x :: g.readingsFrom document x.stop := by
  obtain ⟨hlt, hle, hrun⟩ := Reading.isReadBy_byLength_iff.mp h
  have hstart : document.length - (document.drop x.start).length = x.start := by
    rw [List.length_drop]
    omega
  have hstop : document.length - (document.drop x.stop).length = x.stop := by
    rw [List.length_drop]
    omega
  have hshorter : (document.drop x.stop).length < (document.drop x.start).length := by
    simp only [List.length_drop]
    omega
  rw [readingsFrom, scan_of_run_eq_some (run_located hrun) hshorter, hstart, hstop]
  rfl

/-- A scan finds the leftmost readings, and there is no other sequence of them. -/
theorem leftmost_iff (g : Grammar α) (document : Text) (position : Nat) {readings : List (Reading α)} :
    Leftmost (byLength g) document position readings ↔ readings = g.readingsFrom document position := by
  induction position using place_induction (byLength g) document generalizing readings with
  | finished i h => rw [leftmost_of_length_le h, readingsFrom_of_length_le h]
  | pass i hlt h ih => rw [leftmost_of_not_readsAt h, readingsFrom_of_not_readsAt hlt h, ih]
  | found x h ih =>
    rw [leftmost_of_isReadBy h, readingsFrom_of_isReadBy h]
    simp only [ih, exists_eq_right]

theorem leftmost_readings (g : Grammar α) (document : Text) : Leftmost (byLength g) document 0 (g.readings document) :=
  (leftmost_iff g document 0).mpr rfl

/-- Grammars with the same nonempty readings find the same in a scan. -/
theorem readings_congr {g' : Grammar α}
    (h : ∀ x : Reading α, x.IsReadBy (byLength g) document ↔ x.IsReadBy (byLength g') document) :
    g.readings document = g'.readings document :=
  (leftmost_iff g' document 0).mp ((leftmost_congr h).mp (leftmost_readings g document))

/-- A walk from a position comes to the end of the document, by at most one step for each character. -/
theorem Cursor.exists_endsAfter (g : Grammar α) (document : Text) (found : List α) (hle : position ≤ document.length) :
    ∃ steps ≤ document.length - position, Cursor.EndsAfter (byLength g) document ⟨position, found⟩ steps
      (found ++ (g.readingsFrom document position).map Reading.result) := by
  induction position using place_induction (byLength g) document generalizing found with
  | finished i h =>
    obtain rfl := Nat.le_antisymm hle h
    refine ⟨0, Nat.zero_le _, by simp, ?_⟩
    rw [readingsFrom_of_length_le h, List.map_nil, List.append_nil]
    rfl
  | pass i hlt h ih =>
    obtain ⟨steps, hsteps, hend⟩ := ih found hlt
    rw [← advance_of_not_readsAt h, ← readingsFrom_of_not_readsAt hlt h] at hend
    exact ⟨steps + 1, by omega, hend.step hlt⟩
  | found x h ih =>
    have hlt := h.1
    have hstop := h.stop_le
    obtain ⟨steps, hsteps, hend⟩ := ih (found ++ [x.result]) hstop
    rw [← advance_of_isReadBy h, List.append_assoc, List.singleton_append, ← List.map_cons,
      ← readingsFrom_of_isReadBy h] at hend
    exact ⟨steps + 1, by omega, hend.step (Nat.lt_of_lt_of_le hlt hstop)⟩

end Scan

/-- For every function that tells how much of a remaining text is read, the scan returns the results of
the one leftmost sequence of nonempty readings. A walk that tries each place comes to them in at most as
many steps as the document has characters, and stops at its end. -/
theorem scan_returns_leftmost_readings (read : LengthReader α) (document : Text) :
    let g := byLength.symm read
    g.scan document = (g.readings document).map Reading.result ∧
    (∀ readings, Leftmost read document 0 readings ↔ readings = g.readings document) ∧
    ∃ steps ≤ document.length, Cursor.EndsAfter read document ⟨0, []⟩ steps (g.scan document) := by
  intro g
  have hread : byLength g = read := byLength.apply_symm_apply read
  have hresults := map_result_readings g document
  rw [← hread]
  refine ⟨hresults.symm, fun readings => leftmost_iff g document 0, ?_⟩
  rw [← hresults]
  exact Cursor.exists_endsAfter g document [] (Nat.zero_le _)

/-- The reading at the second `a` would overlap the one before it, and at the last one too little is left. -/
theorem scan_returns_leftmost_readings_overlap :
    let g := literal "aa".toList
    let document := "éaaa aa a".toList
    let readings : List (Reading Text) := [⟨1, 3, "aa".toList⟩, ⟨5, 7, "aa".toList⟩]
    Leftmost (byLength g) document 0 readings ∧ g.scan document = readings.map Reading.result := by
  intro g document readings
  obtain ⟨hscan, hleftmost, -⟩ := scan_returns_leftmost_readings (byLength g) document
  have hreadings : g.readings document = readings := by decide
  rw [byLength.symm_apply_apply, hreadings] at hscan
  refine ⟨(hleftmost readings).mpr ?_, hscan⟩
  rw [byLength.symm_apply_apply, hreadings]

end ClassNotation.Grammar
