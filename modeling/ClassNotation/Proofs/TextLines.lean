import ClassNotation.Proofs.GrammarReadings

/-! Lines and trimming: where a line ends, what a trimmed text is, and that both only take away. -/
namespace ClassNotation.Text

private theorem lines_front_append {x y first : Text} {rest : List Text} (hx : '\n' ∉ x)
    (hr : x.getLast? = some '\r' → y.head? ≠ some '\n') (hy : lines y = first :: rest) :
    lines (x ++ y) = (x ++ first) :: rest := by
  induction x with
  | nil => exact hy
  | cons c x ih =>
    have hc : c ≠ '\n' := fun he => hx (by simp [he])
    have hpair : ∀ u, c = '\r' → x ++ y = '\n' :: u → False := by
      rintro u rfl he
      cases x with
      | nil => exact hr rfl (by simpa using congrArg List.head? he)
      | cons d x =>
        obtain ⟨rfl, -⟩ := List.cons.inj he
        simp at hx
    have hrest : lines (x ++ y) = (x ++ first) :: rest := by
      apply ih
      · exact fun hm => hx (List.mem_cons_of_mem c hm)
      · cases x with
        | nil => simp
        | cons d x => simpa using hr
    rw [List.cons_append, lines.eq_4 c _ hc hpair, hrest]
    rfl

/-- A text is read up to its first newline as one line, unless a carriage return goes with it. -/
theorem lines_append_newline {x : Text} (hx : '\n' ∉ x) (hr : x.getLast? ≠ some '\r') (t : Text) :
    lines (x ++ '\n' :: t) = x :: lines t := by
  have h := lines_front_append (y := '\n' :: t) hx (fun he => absurd he hr) (lines.eq_2 t)
  rwa [List.append_nil] at h

private theorem lines_append_return {x : Text} (hx : '\n' ∉ x) (t : Text) :
    lines (x ++ '\r' :: '\n' :: t) = x :: lines t := by
  have h := lines_front_append (y := '\r' :: '\n' :: t) hx (by simp) (lines.eq_3 t)
  rwa [List.append_nil] at h

/-- The first line of a text ends before its newline, or before the carriage return that goes with it. -/
theorem exists_lines_append {x : Text} (hx : '\n' ∉ x) (t : Text) :
    ∃ y, lines (x ++ '\n' :: t) = y :: lines t ∧ (x = y ++ ['\r'] ∨ x = y ∧ y.getLast? ≠ some '\r') := by
  by_cases hr : x.getLast? = some '\r'
  · obtain ⟨y, rfl⟩ := List.getLast?_eq_some_iff.mp hr
    refine ⟨y, ?_, Or.inl rfl⟩
    rw [List.append_assoc]
    exact lines_append_return (fun hm => hx (List.mem_append_left _ hm)) t
  · exact ⟨x, lines_append_newline hx hr t, Or.inr ⟨rfl, hr⟩⟩

/-- Text without a newline is one line. -/
theorem lines_of_not_mem {x : Text} (hx : '\n' ∉ x) (hne : x ≠ []) : lines x = [x] := by
  obtain ⟨y, c, rfl⟩ := (List.eq_nil_or_concat x).resolve_left hne
  rw [List.concat_eq_append] at hx ⊢
  have hc : c ≠ '\n' := fun he => hx (by simp [he])
  have hlast : lines [c] = [[c]] := lines.eq_4 c [] hc (by simp)
  exact lines_front_append (fun hm => hx (List.mem_append_left _ hm)) (fun _ => by simpa using hc) hlast

/-- A text has no newline, or it is a line with a newline behind it and another text. -/
@[elab_as_elim]
theorem line_induction {motive : Text → Prop} (last : ∀ x, '\n' ∉ x → motive x)
    (line : ∀ x t, '\n' ∉ x → motive t → motive (x ++ '\n' :: t)) (t : Text) : motive t := by
  induction hn : t.length using Nat.strongRecOn generalizing t with
  | ind n ih =>
    subst hn
    by_cases ht : '\n' ∈ t
    · obtain ⟨x, u, rfl, hx⟩ := List.eq_append_cons_of_mem ht
      refine line x u hx (ih u.length ?_ u rfl)
      simp only [List.length_append, List.length_cons]
      omega
    · exact last t ht

/-- Pieces that are parts of a text, the first of them at its front. -/
structure PiecesOf (t : Text) (pieces : List Text) : Prop where
  front : ∀ piece ∈ pieces.head?, piece <+: t
  inside : ∀ piece ∈ pieces, piece <:+: t

theorem PiecesOf.nil_cons {t : Text} {pieces : List Text} (h : ∀ piece ∈ pieces, piece <:+: t) :
    PiecesOf t ([] :: pieces) := by
  refine ⟨by simp, fun piece hp => ?_⟩
  rcases List.mem_cons.mp hp with rfl | hp
  · exact List.nil_infix
  · exact h piece hp

theorem PiecesOf.consFirst {t : Text} {pieces : List Text} (h : PiecesOf t pieces) (c : Char) :
    PiecesOf (c :: t) (consFirst c pieces) := by
  cases pieces with
  | nil =>
    have hone : [c] <+: c :: t := ⟨t, rfl⟩
    exact ⟨by simp [Text.consFirst], by simpa [Text.consFirst] using hone.isInfix⟩
  | cons first rest =>
    have hfirst : c :: first <+: c :: t := List.cons_prefix_cons.mpr ⟨rfl, h.front first rfl⟩
    refine ⟨by simpa [Text.consFirst] using hfirst, fun piece hp => ?_⟩
    rcases List.mem_cons.mp hp with rfl | hp
    · exact hfirst.isInfix
    · exact (h.inside piece (List.mem_cons_of_mem first hp)).trans (List.suffix_cons c t).isInfix

theorem exists_consFirst (c : Char) (pieces : List Text) :
    ∃ first rest, consFirst c pieces = (c :: first) :: rest := by
  cases pieces with
  | nil => exact ⟨[], [], rfl⟩
  | cons first rest => exact ⟨first, rest, rfl⟩

theorem flatten_consFirst (c : Char) (pieces : List Text) : (consFirst c pieces).flatten = c :: pieces.flatten := by
  cases pieces <;> rfl

theorem tail_consFirst (c : Char) (pieces : List Text) : (consFirst c pieces).tail = pieces.tail := by
  cases pieces <;> rfl

/-- Lines stand in the text as they are. -/
theorem piecesOf_lines (t : Text) : PiecesOf t (lines t) := by
  fun_induction lines t with
  | case1 => exact ⟨by simp, by simp⟩
  | case2 t ih => exact .nil_cons fun l hl => (ih.inside l hl).trans (List.suffix_cons _ t).isInfix
  | case3 t ih =>
    exact .nil_cons fun l hl => (ih.inside l hl).trans ((List.suffix_cons _ t).trans (List.suffix_cons _ _)).isInfix
  | case4 c t _ _ ih => exact ih.consFirst c

theorem newline_not_mem_of_mem_lines {t l : Text} (hl : l ∈ lines t) : '\n' ∉ l := by
  fun_induction lines t generalizing l with
  | case1 => simp at hl
  | case2 t ih | case3 t ih =>
    rcases List.mem_cons.mp hl with rfl | hl
    · simp
    · exact ih hl
  | case4 c t hc _ ih =>
    cases hls : lines t with
    | nil =>
      rw [hls, consFirst, List.mem_singleton] at hl
      simp [hl, Ne.symm hc]
    | cons first rest =>
      rw [hls] at hl ih
      rcases List.mem_cons.mp hl with rfl | hl
      · simp [ih List.mem_cons_self, Ne.symm hc]
      · exact ih (List.mem_cons_of_mem first hl)

private theorem trimStart_append {b t : Text} (hb : ∀ c ∈ b, isBlank c = true) (ht : Stops isBlank t) :
    trimStart (b ++ t) = t := dropWhile_append_of_stops hb ht

private theorem trimEnd_eq_self {t : Text} (ht : Stops isBlank t.reverse) : trimEnd t = t := by
  have h := dropWhile_append_of_stops (w := []) (by simp) ht
  rw [List.nil_append] at h
  rw [trimEnd, h, List.reverse_reverse]

/-- Trimming takes blanks in front away, where none stand at the end. -/
theorem trim_append {b t : Text} (hb : ∀ c ∈ b, isBlank c = true) (ht : Stops isBlank t)
    (hr : Stops isBlank t.reverse) : trim (b ++ t) = t := by
  rw [trim, trimStart_append hb ht, trimEnd_eq_self hr]

/-- Trimming takes blanks away at both ends and nothing else. -/
theorem exists_append_trim (t : Text) :
    ∃ b b', t = b ++ (trim t ++ b') ∧ (∀ c ∈ b, isBlank c = true) ∧ ∀ c ∈ b', isBlank c = true := by
  have hblank (u : Text) : ∀ c ∈ u.takeWhile isBlank, isBlank c = true := List.all_eq_true.mp List.all_takeWhile
  have hend : trim t ++ ((trimStart t).reverse.takeWhile isBlank).reverse = trimStart t := by
    rw [trim, trimEnd, ← List.reverse_append, List.takeWhile_append_dropWhile, List.reverse_reverse]
  refine ⟨t.takeWhile isBlank, ((trimStart t).reverse.takeWhile isBlank).reverse, ?_, hblank t, ?_⟩
  · rw [hend, trimStart, List.takeWhile_append_dropWhile]
  · intro c hc
    exact hblank _ c (List.mem_reverse.mp hc)

theorem trim_infix (t : Text) : trim t <:+: t := by
  obtain ⟨b, b', he, -, -⟩ := exists_append_trim t
  exact ⟨b, b', by rw [List.append_assoc, ← he]⟩

@[simp] theorem trimEnd_nil : trimEnd [] = [] := rfl

theorem trimEnd_cons (c : Char) (t : Text) :
    trimEnd (c :: t) = if trimEnd t = [] ∧ isBlank c = true then [] else c :: trimEnd t := by
  simp only [trimEnd, List.reverse_cons, List.dropWhile_append, List.isEmpty_iff, List.reverse_eq_nil_iff]
  by_cases ht : t.reverse.dropWhile isBlank = []
  · cases hc : isBlank c <;> simp [ht, hc]
  · simp [ht]

theorem trim_eq_trimStart_trimEnd (t : Text) : trim t = trimStart (trimEnd t) := by
  induction t with
  | nil => rfl
  | cons c t ih =>
    cases hc : isBlank c with
    | true =>
      have hstart (u : Text) : trimStart (c :: u) = trimStart u := List.dropWhile_cons_of_pos hc
      rw [trim, hstart, ← trim, ih, trimEnd_cons]
      split
      · next h => rw [h.1]
      · rw [hstart]
    | false =>
      have hstart (u : Text) : trimStart (c :: u) = c :: u := List.dropWhile_cons_of_neg (by simp [hc])
      rw [trim, hstart, trimEnd_cons, if_neg (by simp [hc]), hstart]

theorem stops_trim (t : Text) : Stops isBlank (trim t) := by
  rw [trim_eq_trimStart_trimEnd]
  exact stops_dropWhile _

theorem trim_blanks_append {b : Text} (hb : ∀ c ∈ b, isBlank c = true) (t : Text) : trim (b ++ t) = trim t := by
  have hstart : trimStart (b ++ t) = trimStart t := List.dropWhile_append_of_pos hb
  rw [trim, trim, hstart]

theorem trim_append_blanks {b : Text} (hb : ∀ c ∈ b, isBlank c = true) (t : Text) : trim (t ++ b) = trim t := by
  have hend : trimEnd (t ++ b) = trimEnd t := by
    rw [trimEnd, List.reverse_append, List.dropWhile_append_of_pos fun c hc => hb c (List.mem_reverse.mp hc), trimEnd]
  rw [trim_eq_trimStart_trimEnd, trim_eq_trimStart_trimEnd, hend]

theorem trim_eq_nil_iff {t : Text} : trim t = [] ↔ ∀ c ∈ t, isBlank c = true := by
  constructor
  · intro h c hc
    obtain ⟨b, b', he, hb, hb'⟩ := exists_append_trim t
    rw [he, h, List.nil_append, List.mem_append] at hc
    exact hc.elim (hb c) (hb' c)
  · intro h
    have hnil := trim_blanks_append h []
    rwa [List.append_nil] at hnil

/-- Once is enough. -/
theorem trim_trim (t : Text) : trim (trim t) = trim t := by
  obtain ⟨b, b', he, hb, hb'⟩ := exists_append_trim t
  have htrim : trim (b ++ (trim t ++ b')) = trim (trim t) := by rw [trim_blanks_append hb, trim_append_blanks hb']
  rw [← htrim, ← he]

end ClassNotation.Text
