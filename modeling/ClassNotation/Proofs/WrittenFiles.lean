import ClassNotation.CommandLine.Disk

/-! Writing a file changes that file and nothing else. The file lies in a directory that was there, so
no directory appears or goes, and every path leads to where it led before. -/
namespace ClassNotation.Disk
variable {d : Disk} {p q here place : Place} {bytes : ByteArray}

def places (files : List (Place × ByteArray)) : List Place := files.map Prod.fst

private theorem isDirectory_iff : d.isDirectory p = true ↔ p <+: d.home ∨ ∃ f ∈ places d.files, p <+: f ∧ f ≠ p := by
  simp [isDirectory, places, List.isPrefixOf_iff_prefix]

private theorem isDirectory_of_isPrefix (h : d.isDirectory p = true) (hq : q <+: p) : d.isDirectory q = true := by
  rw [isDirectory_iff] at h ⊢
  rcases h with h | ⟨f, hf, hp, hne⟩
  · exact Or.inl (hq.trans h)
  · refine Or.inr ⟨f, hf, hq.trans hp, ?_⟩
    rintro rfl
    exact hne (hp.eq_of_length_le hq.length_le).symm

private theorem isDirectory_start (d : Disk) (path : Text) : d.isDirectory (d.start path) = true := by
  rw [isDirectory_iff, start]
  split
  · exact Or.inl List.nil_prefix
  · exact Or.inl List.prefix_rfl

private theorem isDirectory_of_follow {names : List Text} (hhere : d.isDirectory here = true)
    (h : d.follow here names = .ok place) : d.isDirectory place = true := by
  induction names generalizing here with
  | nil =>
    cases h
    exact hhere
  | cons name rest ih =>
    rw [follow] at h
    split at h
    · exact ih hhere h
    · split at h
      · exact ih (isDirectory_of_isPrefix hhere (List.dropLast_prefix here)) h
      · split at h
        · cases h
        · split at h
          · next hdirectory => exact ih hdirectory h
          · split at h <;> cases h

private theorem bind_eq_ok_iff {ε α β : Type} {x : Except ε α} {f : α → Except ε β} {b : β} :
    x.bind f = .ok b ↔ ∃ a, x = .ok a ∧ f a = .ok b := by
  cases x <;> simp [Except.bind]

/-- A file is located in a directory. -/
theorem exists_directory_of_locate {path : Text} (h : d.locate path = .ok place) :
    ∃ here name, place = here ++ [name] ∧ d.isDirectory here = true := by
  unfold locate at h
  dsimp only at h
  split at h
  · cases h
  · obtain ⟨here, hfollow, h⟩ := bind_eq_ok_iff.mp h
    have hhere := isDirectory_of_follow (d.isDirectory_start path) hfollow
    split at h
    · cases h
    · split at h
      · cases h
      · split at h
        · cases h
        · cases h
          exact ⟨here, _, rfl, hhere⟩

private theorem mem_places_put {files : List (Place × ByteArray)} :
    p ∈ places (put place bytes files) ↔ p ∈ places files ∨ p = place := by
  induction files with
  | nil => simp [put, places]
  | cons f rest ih =>
    obtain ⟨q, old⟩ := f
    unfold put
    by_cases hq : q = place
    · rw [if_pos hq, hq]
      simp only [places, List.map_cons, List.mem_cons]
      exact (or_iff_left_of_imp Or.inl).symm
    · rw [if_neg hq]
      simp only [places, List.map_cons, List.mem_cons, or_assoc] at ih ⊢
      rw [ih]

private theorem lookup_put (files : List (Place × ByteArray)) :
    (put place bytes files).lookup q = if q = place then some bytes else files.lookup q := by
  have hcons (p : Place) (b : ByteArray) (rest : List (Place × ByteArray)) :
      List.lookup q ((p, b) :: rest) = if q = p then some b else rest.lookup q := by
    by_cases h : q = p
    · simp [h]
    · rw [List.lookup_cons, beq_eq_false_iff_ne.mpr h, if_neg h]
  induction files with
  | nil => exact hcons place bytes []
  | cons f rest ih =>
    obtain ⟨p, old⟩ := f
    unfold put
    by_cases hp : p = place
    · subst hp
      rw [if_pos rfl, hcons, hcons]
      split <;> rfl
    · rw [if_neg hp, hcons, hcons, ih]
      by_cases h : q = p
      · rw [if_pos h, if_pos h, if_neg (h ▸ hp)]
      · rw [if_neg h, if_neg h]

/-- One file of `d` has got new bytes in `d'`, or is new in it. All else is as it was. -/
structure Wrote (d d' : Disk) (place : Place) (bytes : ByteArray) : Prop where
  home : d'.home = d.home
  file : ∀ q, d'.file? q = if q = place then some bytes else d.file? q
  directory : ∀ q, d'.isDirectory q = d.isDirectory q

theorem wrote_of_write {d' : Disk} {path : Text} (h : d.write path bytes = .ok d') :
    ∃ place, d.locate path = .ok place ∧ d.Wrote d' place bytes := by
  unfold write at h
  cases hlocate : d.locate path with
  | error e =>
    rw [hlocate] at h
    cases h
  | ok place =>
    rw [hlocate] at h
    cases h
    obtain ⟨here, name, rfl, hhere⟩ := exists_directory_of_locate hlocate
    refine ⟨_, rfl, rfl, fun q => lookup_put d.files, fun q => ?_⟩
    rw [Bool.eq_iff_iff, isDirectory_iff, isDirectory_iff]
    constructor
    · rintro (hhome | ⟨p, hp, hq, hne⟩)
      · exact Or.inl hhome
      · rcases mem_places_put.mp hp with hp | rfl
        · exact Or.inr ⟨p, hp, hq, hne⟩
        · -- above the new file there are only directories that were there before it
          have habove : q <+: here := (List.prefix_concat_iff.mp hq).resolve_left (Ne.symm hne)
          exact isDirectory_iff.mp (isDirectory_of_isPrefix hhere habove)
    · rintro (hhome | ⟨p, hp, hq, hne⟩)
      · exact Or.inl hhome
      · exact Or.inr ⟨p, mem_places_put.mpr (Or.inl hp), hq, hne⟩

theorem locate_of_write_error {path : Text} {failure : WriteFailure} (h : d.write path bytes = .error failure) :
    d.locate path = .error failure := by
  unfold write at h
  cases hlocate : d.locate path with
  | error e =>
    rw [hlocate] at h
    cases h
    rfl
  | ok place =>
    rw [hlocate] at h
    cases h

namespace Wrote
variable {d' : Disk} {path : Text}

private theorem follow_eq_ok_iff (h : d.Wrote d' place bytes) {names : List Text} :
    d'.follow here names = .ok p ↔ d.follow here names = .ok p := by
  induction names generalizing here with
  | nil => rfl
  | cons name rest ih =>
    simp only [follow, h.directory]
    split
    · exact ih
    · split
      · exact ih
      · split
        · rfl
        · split
          · exact ih
          · split <;> split <;> simp

/-- Paths lead to where they led before. -/
theorem locate_eq_ok_iff (h : d.Wrote d' place bytes) : d'.locate path = .ok p ↔ d.locate path = .ok p := by
  have hstart : d'.start path = d.start path := by rw [start, start, h.home]
  unfold locate
  dsimp only
  split
  · rfl
  · simp only [bind_eq_ok_iff, hstart, h.follow_eq_ok_iff, h.directory]

/-- The file is read as it was written, by whatever path. -/
theorem read?_of_locate (h : d.Wrote d' place bytes) (hpath : d.locate path = .ok place) :
    d'.read? path = some bytes := by
  rw [read?, h.locate_eq_ok_iff.mpr hpath]
  exact (h.file place).trans (if_pos rfl)

theorem read?_of_locate_ne (h : d.Wrote d' place bytes) (hpath : d.locate path ≠ .ok place) :
    d'.read? path = d.read? path := by
  unfold read?
  cases hp : d.locate path with
  | ok p =>
    have hne : p ≠ place := fun he => hpath (he ▸ hp)
    rw [h.locate_eq_ok_iff.mpr hp]
    exact (h.file p).trans (if_neg hne)
  | error e =>
    cases hp' : d'.locate path with
    | error e' => rfl
    | ok p =>
      rw [h.locate_eq_ok_iff.mp hp'] at hp
      cases hp

end Wrote
end ClassNotation.Disk
