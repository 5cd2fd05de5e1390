import ClassNotation.Grammar.Basic

/-! Scanning: all nonempty readings of a grammar in a text, leftmost first and without overlap. -/
namespace ClassNotation.Grammar
variable {α : Type}

/-- Scans a text of which the first `covered` characters belong to the reading before it. -/
def scanAfter (g : Grammar α) : (covered : Nat) → Text → List α
  | _, [] => []
  | covered + 1, _ :: s => scanAfter g covered s
  | 0, c :: s =>
    match g.run (c :: s) with
    | none => scanAfter g 0 s
    | some (a, r) =>
      match (c :: s).length - r.length with
      | 0 => scanAfter g 0 s
      | more + 1 => a :: scanAfter g more s

/-- The results of all nonempty readings: each is taken at the first place where the grammar reads
something, and the scan goes on behind it. A reading of nothing is not recorded. -/
def scan (g : Grammar α) (s : Text) : List α := scanAfter g 0 s

/-- The covered characters are passed over. -/
theorem scanAfter_eq_scan_drop (g : Grammar α) (covered : Nat) (s : Text) :
    g.scanAfter covered s = g.scan (s.drop covered) := by
  induction s generalizing covered with
  | nil => cases covered <;> rfl
  | cons c s ih =>
    cases covered with
    | zero => rfl
    | succ covered => rw [scanAfter, ih, List.drop_succ_cons]

@[simp] theorem scan_nil (g : Grammar α) : g.scan [] = [] := rfl

theorem scan_cons_of_run_eq_none {g : Grammar α} {c : Char} {s : Text}
    (h : g.run (c :: s) = none) : g.scan (c :: s) = g.scan s := by
  rw [scan, scanAfter, h]
  rfl

/-- A reading of nothing does not count. -/
theorem scan_cons_of_run_eq_self {g : Grammar α} {c : Char} {s : Text} {a : α}
    (h : g.run (c :: s) = some (a, c :: s)) : g.scan (c :: s) = g.scan s := by
  rw [scan, scanAfter, h]
  simp only [Nat.sub_self]
  rfl

/-- The scan goes on where a reading of something ends. -/
theorem scan_of_run_eq_some {g : Grammar α} {s r : Text} {a : α}
    (h : g.run s = some (a, r)) (hr : r.length < s.length) : g.scan s = a :: g.scan r := by
  cases s with
  | nil => exact absurd hr (Nat.not_lt_zero _)
  | cons c s =>
    obtain ⟨m, hm⟩ : ∃ m, (c :: s).length - r.length = m + 1 := ⟨(c :: s).length - r.length - 1, by omega⟩
    have hd : s.drop m = r := by
      have he := (List.suffix_iff_eq_drop.mp (g.rest_suffix h)).symm
      rwa [hm, List.drop_succ_cons] at he
    rw [scan, scanAfter, h]
    simp only [hm]
    rw [scanAfter_eq_scan_drop, hd]

end ClassNotation.Grammar
