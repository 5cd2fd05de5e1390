import ClassNotation.Proofs.MembersOnOneLine

/-! Where a line is cut into segments. The places are told from the line as a whole: whether it is cut
before a symbol depends on the character before it and on all parentheses from the front of the line on.
Nothing but blanks is lost at the cuts, and a segment is not cut again, though its parentheses are then
counted from its own front. -/
namespace ClassNotation

namespace Text

/-- The pieces of a text from a position on, with a cut before each of the places. -/
def cutBefore (t : Text) : (start : Nat) → (places : List Nat) → List Text
  | start, [] => [t.drop start]
  | start, i :: places => (t.take i).drop start :: cutBefore t i places

private theorem consFirst_cutBefore {t : Text} {start : Nat} {places : List Nat} (h : start < t.length)
    (hplaces : ∀ i ∈ places, start < i) :
    consFirst t[start] (cutBefore t (start + 1) places) = cutBefore t start places := by
  cases places with
  | nil =>
    change [t[start] :: t.drop (start + 1)] = [t.drop start]
    rw [List.drop_eq_getElem_cons h]
  | cons i places =>
    have hi := hplaces i List.mem_cons_self
    have htake : start < (t.take i).length := by
      rw [List.length_take]
      omega
    change (t[start] :: (t.take i).drop (start + 1)) :: _ = (t.take i).drop start :: _
    rw [List.drop_eq_getElem_cons htake, List.getElem_take]

private theorem filter_trim (t : Text) : (trim t).filter (!isBlank ·) = t.filter (!isBlank ·) := by
  obtain ⟨b, b', he, hb, hb'⟩ := exists_append_trim t
  have hnone {u : Text} (hu : ∀ c ∈ u, isBlank c = true) : u.filter (!isBlank ·) = [] :=
    List.filter_eq_nil_iff.mpr fun c hc => by simp [hu c hc]
  calc
    (trim t).filter (!isBlank ·) = (b ++ (trim t ++ b')).filter (!isBlank ·) := by
      rw [List.filter_append, List.filter_append, hnone hb, hnone hb', List.nil_append, List.append_nil]
    _ = t.filter (!isBlank ·) := by rw [← he]

end Text

namespace Member

/-- The parentheses that a text leaves open: one more for each that opens, one less for each that
closes, but never fewer than none. -/
def openParentheses (t : Text) : Nat :=
  t.foldl (fun n c => match c with
    | '(' => n + 1
    | ')' => n - 1
    | _ => n) 0

private theorem openParentheses_eq_depthOver (t : Text) : openParentheses t = depthOver 0 t := by
  unfold openParentheses depthOver
  congr 1
  funext n c
  split
  · rfl
  · rfl
  · next hopen hclose => rw [depthAfter, if_neg hopen, if_neg hclose]

/-- A line is cut before a symbol that has a blank before it, where no parenthesis is open. -/
def isCutPlace (line : Text) (i : Nat) : Bool :=
  (line.drop i).head?.any Visibility.symbols.contains && openParentheses (line.take i) == 0 &&
    (line.take i).getLast?.any isBlank

def cutPlaces (line : Text) : List Nat := (List.range line.length).filter (isCutPlace line)

private theorem isCutPlace_length (before : Text) (c : Char) (t : Text) : isCutPlace (before ++ c :: t) before.length =
    ((Visibility.ofSymbol? c).isSome && depthOver 0 before == 0 && before.getLast?.any isBlank) := by
  have hsymbol : Visibility.symbols.contains c = (Visibility.ofSymbol? c).isSome := by
    rw [Bool.eq_iff_iff, Visibility.isSome_ofSymbol?_iff, List.contains_iff_mem]
  rw [isCutPlace, List.take_left, List.drop_left, openParentheses_eq_depthOver]
  change (Visibility.symbols.contains c && _ && _) = _
  rw [hsymbol]

/-- Cutting with a running depth, from a position of the line on, makes its cuts at the places behind it. -/
theorem cutPieces_eq_cutBefore (before t : Text) :
    cutPieces (depthOver 0 before) (before.getLast?.any isBlank) t =
      (before ++ t).cutBefore before.length
        ((List.range' before.length t.length).filter (isCutPlace (before ++ t))) := by
  induction t generalizing before with
  | nil =>
    change [[]] = [(before ++ []).drop before.length]
    rw [List.drop_left]
  | cons c t ih =>
    -- the line stays the same while one character goes over to `before`
    have hline : before ++ c :: t = (before ++ [c]) ++ t := by simp
    have hrest := ih (before ++ [c])
    rw [← hline, depthOver_append, List.getLast?_concat, List.length_append] at hrest
    have hlt : before.length < (before ++ c :: t).length := by simp
    have hc : (before ++ c :: t)[before.length] = c := by simp
    have hbehind : ∀ i ∈ (List.range' (before.length + 1) t.length).filter (isCutPlace (before ++ c :: t)),
        before.length < i := fun i hi => (List.mem_range'_1.mp (List.mem_filter.mp hi).1).1
    have hfirst := Text.consFirst_cutBefore hlt hbehind
    rw [hc] at hfirst
    have hpieces : Text.consFirst c (cutPieces (depthAfter (depthOver 0 before) c) (isBlank c) t) =
        (before ++ c :: t).cutBefore before.length
          ((List.range' (before.length + 1) t.length).filter (isCutPlace (before ++ c :: t))) := by
      rw [← hfirst]
      exact congrArg (Text.consFirst c) hrest
    rw [cutPieces, List.length_cons, List.range'_succ, List.filter_cons, isCutPlace_length, hpieces]
    split
    · change _ = ((before ++ c :: t).take before.length).drop before.length :: _
      rw [List.take_left, List.drop_length]
    · rfl

private theorem cutPieces_eq_cutPlaces (line : Text) : cutPieces 0 false line = line.cutBefore 0 (cutPlaces line) := by
  rw [cutPlaces, List.range_eq_range']
  exact cutPieces_eq_cutBefore [] line

section Uncut
variable {depth : Nat} {afterBlank : Bool} {c : Char} {t x y : Text}

private theorem keeps_of_not_cut (h : ¬ ((Visibility.ofSymbol? c).isSome && depth == 0 && afterBlank) = true)
    (hsymbol : (Visibility.ofSymbol? c).isSome = true) : depth ≠ 0 ∨ afterBlank = false := by
  cases afterBlank with
  | false => exact Or.inr rfl
  | true => exact Or.inl fun hdepth => h (by simp [hsymbol, hdepth])

private theorem cutPieces_cons_eq_singleton_iff : cutPieces depth afterBlank (c :: t) = [c :: t] ↔
    ((Visibility.ofSymbol? c).isSome = true → depth ≠ 0 ∨ afterBlank = false) ∧
      cutPieces (depthAfter depth c) (isBlank c) t = [t] := by
  constructor
  · intro h
    unfold cutPieces at h
    split at h
    · simp at h
    · next hcut =>
      exact ⟨keeps_of_not_cut hcut, Text.consFirst_eq_singleton (cutPieces_ne_nil _ _ t) h⟩
  · exact fun h => cutPieces_cons_eq_singleton h.1 h.2

private theorem cutPieces_of_append (h : cutPieces depth afterBlank (x ++ y) = [x ++ y]) :
    cutPieces depth afterBlank x = [x] := by
  induction x generalizing depth afterBlank with
  | nil => rfl
  | cons c x ih =>
    obtain ⟨hcut, hrest⟩ := cutPieces_cons_eq_singleton_iff.mp h
    exact cutPieces_cons_eq_singleton_iff.mpr ⟨hcut, ih hrest⟩

private theorem cutPieces_of_blanks_append (hx : ∀ c ∈ x, isBlank c = true)
    (h : cutPieces 0 afterBlank (x ++ y) = [x ++ y]) :
    cutPieces 0 false y = [y] := by
  induction x generalizing afterBlank with
  | nil =>
    cases y with
    | nil => rfl
    | cons c y =>
      have hrest := (cutPieces_cons_eq_singleton_iff.mp h).2
      exact cutPieces_cons_eq_singleton_iff.mpr ⟨fun _ => Or.inr rfl, hrest⟩
  | cons c x ih =>
    have hrest := (cutPieces_cons_eq_singleton_iff.mp h).2
    rw [depthAfter_of_front (Or.inr (hx c List.mem_cons_self))] at hrest
    exact ih (fun d hd => hx d (List.mem_cons_of_mem c hd)) hrest

private theorem cutPieces_trim (h : cutPieces 0 false t = [t]) : cutPieces 0 false (Text.trim t) = [Text.trim t] := by
  obtain ⟨b, b', he, hb, -⟩ := Text.exists_append_trim t
  rw [he] at h
  exact cutPieces_of_append (cutPieces_of_blanks_append hb h)

/-- No piece is cut again. The first goes on from where the text is cut; each other one begins with a
symbol where no parenthesis is open, so that it can be taken as a line of its own. -/
theorem exists_cutPieces_eq_cons (depth : Nat) (afterBlank : Bool) (t : Text) :
    ∃ first rest, cutPieces depth afterBlank t = first :: rest ∧ cutPieces depth afterBlank first = [first] ∧
      ∀ piece ∈ rest, cutPieces 0 false piece = [piece] := by
  induction t generalizing depth afterBlank with
  | nil => exact ⟨[], [], rfl, rfl, by simp⟩
  | cons c t ih =>
    obtain ⟨first, rest, hpieces, hfirst, hrest⟩ := ih (depthAfter depth c) (isBlank c)
    rw [cutPieces, hpieces]
    split
    · next hcut =>
      -- a cut is made at depth zero only, and there the count of the piece starts too
      obtain rfl : depth = 0 := by
        simp only [Bool.and_eq_true, beq_iff_eq] at hcut
        exact hcut.1.2
      refine ⟨[], (c :: first) :: rest, rfl, rfl, fun piece hp => ?_⟩
      rcases List.mem_cons.mp hp with rfl | hp
      · exact cutPieces_cons_eq_singleton_iff.mpr ⟨fun _ => Or.inr rfl, hfirst⟩
      · exact hrest piece hp
    · next hcut =>
      exact ⟨c :: first, rest, rfl, cutPieces_cons_eq_singleton_iff.mpr ⟨keeps_of_not_cut hcut, hfirst⟩, hrest⟩

private theorem cutPieces_of_mem {piece : Text} (h : piece ∈ cutPieces 0 false t) :
    cutPieces 0 false piece = [piece] := by
  obtain ⟨first, rest, hpieces, hfirst, hrest⟩ := exists_cutPieces_eq_cons 0 false t
  rw [hpieces] at h
  rcases List.mem_cons.mp h with rfl | h
  · exact hfirst
  · exact hrest piece h

end Uncut

private theorem filter_flatten_segments (line : Text) :
    (segments line).flatten.filter (!isBlank ·) = line.filter (!isBlank ·) := by
  have htrim : (List.filter (!isBlank ·)) ∘ Text.trim = List.filter (!isBlank ·) := funext Text.filter_trim
  rw [segments, List.flatten_filter_not_isEmpty, List.filter_flatten, List.map_map, htrim, ← List.filter_flatten,
    flatten_cutPieces]

private theorem segments_of_mem_segments {line segment : Text} (h : segment ∈ segments line) :
    segments segment = [segment] := by
  obtain ⟨hpiece, hne⟩ := List.mem_filter.mp h
  obtain ⟨piece, hp, rfl⟩ := List.mem_map.mp hpiece
  rw [segments_eq_map_trim (Text.trim_trim piece) (by simpa using hne), cutPieces_trim (cutPieces_of_mem hp),
    List.map_singleton, Text.trim_trim]

/-- The segments of a line are its trimmed pieces between the places where it is cut. They have all its
characters but the blanks at their ends, and each of them is its own only segment. -/
theorem segments_are_pieces_between_cuts (line : Text) :
    segments line = ((line.cutBefore 0 (cutPlaces line)).map Text.trim).filter (!·.isEmpty) ∧
    (segments line).flatten.filter (!isBlank ·) = line.filter (!isBlank ·) ∧
    ∀ segment ∈ segments line, segments segment = [segment] := by
  refine ⟨?_, filter_flatten_segments line, fun _ => segments_of_mem_segments⟩
  rw [segments, cutPieces_eq_cutPlaces]

/-- A closing parenthesis too many leaves nothing open, and an opening one hides the last symbol. -/
theorem segments_are_pieces_between_cuts_stray :
    let line := ") a(b -c)\u3000+d -(e #f".toList
    let texts := [") a(b -c)".toList, "+d".toList, "-(e #f".toList]
    cutPlaces line = [10, 13] ∧ segments line = texts ∧ ∀ segment ∈ texts, segments segment = [segment] := by
  intro line texts
  obtain ⟨hpieces, -, hagain⟩ := segments_are_pieces_between_cuts line
  have hplaces : cutPlaces line = [10, 13] := by decide
  have htexts : segments line = texts := by
    rw [hpieces, hplaces]
    decide
  exact ⟨hplaces, htexts, fun segment hs => hagain segment (htexts ▸ hs)⟩

end Member
end ClassNotation
