import ClassNotation.Proofs.HeaderReadings

/-! Text that is appended to a document. A header ends with the first closing brace, so one that has
been read stays as it is; one that only the appended text completes reaches over the end of the
document, and behind its start the document has no closing brace left for another. -/
namespace ClassNotation
open Grammar

namespace Braced
variable {α : Type} {g : Grammar α} {body : α → Text} {s r : Text} {a : α}

private theorem run_append (hg : Braced g body) (h : g.run s = some (a, r)) (t : Text) :
    g.run (s ++ t) = some (a, r ++ t) := by
  obtain ⟨front, rfl, -, -, hall⟩ := hg s a r h
  have he : front ++ '\x7b' :: (body a ++ '\x7d' :: r) ++ t = front ++ '\x7b' :: (body a ++ '\x7d' :: (r ++ t)) := by
    simp only [List.append_assoc, List.cons_append]
  rw [he, hall (r ++ t)]

private theorem run_eq_none (hg : Braced g body) (hs : '\x7d' ∉ s) : g.run s = none := by
  rw [Option.eq_none_iff_forall_ne_some]
  rintro ⟨a, r⟩ hr
  obtain ⟨front, rfl, -, -, -⟩ := hg s a r hr
  simp at hs

private theorem scan_eq_nil (hg : Braced g body) (hs : '\x7d' ∉ s) : g.scan s = [] := by
  induction s with
  | nil => rfl
  | cons c s ih => rw [scan_cons_of_run_eq_none (hg.run_eq_none hs), ih (List.not_mem_of_not_mem_cons hs)]

private theorem not_mem_of_run_append (hg : Braced g body) {t : Text} (hs : g.run s = none)
    (h : g.run (s ++ t) = some (a, r)) : '\x7d' ∉ s := by
  obtain ⟨front, he, hfront, hbody, hall⟩ := hg _ a r h
  have hopen : '\x7d' ∉ front ++ '\x7b' :: body a := by
    simp only [List.mem_append, List.mem_cons, not_or]
    exact ⟨hfront.not_mem, by decide, hbody⟩
  intro hm
  obtain ⟨x, y, rfl, hx⟩ := List.eq_append_cons_of_mem hm
  -- the first closing brace of the text is the one that ends the reading
  have hcut : x ++ '\x7d' :: (y ++ t) = (front ++ '\x7b' :: body a) ++ '\x7d' :: r := by
    simpa only [List.append_assoc, List.cons_append] using he
  obtain ⟨rfl, -⟩ := append_cons_unique hcut hx hopen
  rw [List.append_assoc, List.cons_append, hall y] at hs
  cases hs

/-- The findings in a text come first among those in a longer text. -/
theorem prefix_scan_append (hg : Braced g body) (s t : Text) : g.scan s <+: g.scan (s ++ t) := by
  induction s using scan_induction g with
  | nil => exact List.nil_prefix
  | pass c s hpass ih =>
    have hs : g.run (c :: s) = none := by
      rw [Option.eq_none_iff_forall_ne_some]
      rintro ⟨a, r⟩ hr
      have hlt := hg.length_lt hr
      rw [hpass a r hr] at hlt
      exact Nat.lt_irrefl _ hlt
    cases ht : g.run (c :: s ++ t) with
    | none =>
      rw [List.cons_append] at ht ⊢
      rwa [scan_cons_of_run_eq_none hs, scan_cons_of_run_eq_none ht]
    | some out =>
      -- the appended text completes a header here, and the text alone holds no other
      rw [hg.scan_eq_nil (hg.not_mem_of_run_append hs ht)]
      exact List.nil_prefix
  | read s a r hr hlt ih =>
    have hrt := hg.run_append hr t
    rw [scan_of_run_eq_some hr hlt, scan_of_run_eq_some hrt (hg.length_lt hrt)]
    exact List.cons_prefix_cons.mpr ⟨rfl, ih⟩

end Braced

/-- Appending text takes no declaration away and changes neither header nor body of one; what it adds
comes behind. -/
theorem declarations_stay_when_text_is_appended (d e : Text) :
    ClassHeader.grammar.scan d <+: ClassHeader.grammar.scan (d ++ e) ∧
      EnumHeader.grammar.scan d <+: EnumHeader.grammar.scan (d ++ e) :=
  ⟨ClassHeader.braced.prefix_scan_append d e, EnumHeader.braced.prefix_scan_append d e⟩

end ClassNotation
