import ClassNotation.Proofs.Scanning

/-! Where the readings of a scan stand in the document. Every place where something can be read is one
at which a reading was recorded, or it lies inside a reading that was recorded before. -/
namespace ClassNotation.Grammar
variable {α : Type}

/-- A reading of a scan with its place: it begins at the position `start` and ends before `stop`. -/
structure Reading (α : Type) where
  start : Nat
  stop : Nat
  result : α
  deriving DecidableEq, Repr

/-- Tells also where the reading stands in a document of the given size, of which the text is an end piece. -/
def located (g : Grammar α) (size : Nat) : Grammar (Reading α) where
  run s := (g.run s).map fun out => (⟨size - s.length, size - out.2.length, out.1⟩, out.2)
  rest_suffix {s a r} h := by
    obtain ⟨⟨b, u⟩, hrun, he⟩ := Option.map_eq_some_iff.mp h
    cases he
    exact g.rest_suffix hrun

def readings (g : Grammar α) (document : Text) : List (Reading α) := (g.located document.length).scan document

section
variable {g : Grammar α} {size : Nat} {s u r : Text} {a : α}

theorem run_located (h : g.run s = some (a, r)) :
    (g.located size).run s = some (⟨size - s.length, size - r.length, a⟩, r) := by
  change (g.run s).map _ = _
  rw [h]
  rfl

/-- Knowing the places does not change what is passed over. -/
theorem scan_located_cons {c : Char} (h : ∀ a r, g.run (c :: s) = some (a, r) → r = c :: s) :
    (g.located size).scan (c :: s) = (g.located size).scan s := by
  apply scan_cons_of_run_eq_nothing
  intro reading r hr
  obtain ⟨⟨a, u⟩, hrun, he⟩ := Option.map_eq_some_iff.mp hr
  cases he
  exact h a _ hrun

private theorem map_result_scan_located (g : Grammar α) (size : Nat) (s : Text) :
    ((g.located size).scan s).map Reading.result = g.scan s := by
  induction s using scan_induction g with
  | nil => rfl
  | pass c s h ih => rw [scan_located_cons h, scan_cons_of_run_eq_nothing h, ih]
  | read s a r h hlt ih =>
    rw [scan_of_run_eq_some (run_located h) hlt, scan_of_run_eq_some h hlt, List.map_cons, ih]

/-- A reading that was recorded was read at its place, and is not empty. -/
theorem exists_run_of_mem_scan_located {reading : Reading α} (h : reading ∈ (g.located size).scan s) :
    ∃ u r, u <:+ s ∧ g.run u = some (reading.result, r) ∧ r.length < u.length ∧
      reading.start = size - u.length ∧ reading.stop = size - r.length := by
  induction s using scan_induction g with
  | nil => simp at h
  | pass c s hpass ih =>
    rw [scan_located_cons hpass] at h
    obtain ⟨u, r, hu, hrest⟩ := ih h
    exact ⟨u, r, hu.trans (List.suffix_cons c s), hrest⟩
  | read s a r hrun hlt ih =>
    rw [scan_of_run_eq_some (run_located hrun) hlt] at h
    rcases List.mem_cons.mp h with rfl | h
    · exact ⟨s, r, List.suffix_rfl, hrun, hlt, rfl, rfl⟩
    · obtain ⟨u, r', hu, hrest⟩ := ih h
      exact ⟨u, r', hu.trans (g.rest_suffix hrun), hrest⟩

/-- What can be read of an end piece was recorded there, or a reading that was recorded goes over its front. -/
theorem mem_scan_located_or_inside (hs : s.length ≤ size) (hu : u <:+ s) (h : g.run u = some (a, r))
    (hr : r.length < u.length) :
    ⟨size - u.length, size - r.length, a⟩ ∈ (g.located size).scan s ∨
      ∃ reading ∈ (g.located size).scan s, reading.start < size - u.length ∧ size - u.length < reading.stop := by
  induction s using scan_induction g with
  | nil =>
    rw [List.suffix_nil.mp hu] at hr
    simp at hr
  | pass c s hpass ih =>
    rcases List.suffix_cons_iff.mp hu with rfl | hu
    · rw [hpass a r h] at hr
      omega
    · rw [scan_located_cons hpass]
      exact ih (by simp at hs; omega) hu
  | read s b rest hrun hlt ih =>
    rw [scan_of_run_eq_some (run_located hrun) hlt]
    have hle := hu.length_le
    by_cases hwhole : u.length = s.length
    · obtain rfl := hu.eq_of_length hwhole
      obtain ⟨rfl, rfl⟩ : a = b ∧ r = rest := by simpa [h] using hrun
      exact Or.inl List.mem_cons_self
    · by_cases hbehind : u.length ≤ rest.length
      · -- behind the reading the scan goes on
        have hsuffix : u <:+ rest := List.suffix_of_suffix_length_le hu (g.rest_suffix hrun) hbehind
        rcases ih (by omega) hsuffix with hmem | ⟨reading, hmem, hinside⟩
        · exact Or.inl (List.mem_cons_of_mem _ hmem)
        · exact Or.inr ⟨reading, List.mem_cons_of_mem _ hmem, hinside⟩
      · refine Or.inr ⟨_, List.mem_cons_self, ?_, ?_⟩
        · change size - s.length < size - u.length
          omega
        · change size - u.length < size - rest.length
          omega

end

section
variable {g : Grammar α} {document : Text} {a : α}

/-- The results of a scan are those of its readings. -/
theorem map_result_readings (g : Grammar α) (document : Text) :
    (g.readings document).map Reading.result = g.scan document := map_result_scan_located g _ document

theorem run_of_mem_readings {reading : Reading α} (h : reading ∈ g.readings document) :
    reading.start < reading.stop ∧ reading.stop ≤ document.length ∧
      g.run (document.drop reading.start) = some (reading.result, document.drop reading.stop) := by
  obtain ⟨u, r, hu, hrun, hlt, hstart, hstop⟩ := exists_run_of_mem_scan_located h
  have hr : r <:+ document := (g.rest_suffix hrun).trans hu
  have hle := hu.length_le
  rw [hstart, hstop, ← List.suffix_iff_eq_drop.mp hu, ← List.suffix_iff_eq_drop.mp hr]
  exact ⟨by omega, by omega, hrun⟩

/-- A place where something can be read is one of a reading that was recorded, or it lies inside of one. -/
theorem mem_scan_or_inside {position : Nat} {r : Text} (h : g.run (document.drop position) = some (a, r))
    (hr : r.length < (document.drop position).length) :
    a ∈ g.scan document ∨ ∃ reading ∈ g.readings document, reading.start < position ∧ position < reading.stop := by
  have hposition : document.length - (document.drop position).length = position := by
    rw [List.length_drop] at hr ⊢
    omega
  rcases mem_scan_located_or_inside (Nat.le_refl _) (List.drop_suffix position document) h hr with hmem | hinside
  · rw [← map_result_readings]
    exact Or.inl (List.mem_map.mpr ⟨_, hmem, rfl⟩)
  · rw [hposition] at hinside
    exact Or.inr hinside

end
end ClassNotation.Grammar
