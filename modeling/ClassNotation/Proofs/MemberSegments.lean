import ClassNotation.Proofs.HeaderReadings
import ClassNotation.Proofs.MemberForms

/-! Lines and their segments. A line that is a member as a whole is its own only segment, so a body
holds what its segments are, one by one, and whether a line was tried as a whole first does not matter. -/
namespace ClassNotation
open Grammar

private theorem MethodForm.isFront_typeText (f : MethodForm) : IsFront f.typeText := by
  unfold typeText
  split
  · simp [IsFront]
  · next type gap ht => exact (f.isWord_type _ ht).isFront.append (isFront_of_blanks (f.isGap_type _ ht).blank)

namespace Member
variable {className line : Text} {m : Member}

/-- The look of a member: perhaps a symbol, words and blanks, and perhaps a parameter list. -/
def Seamless (line : Text) : Prop :=
  ∃ (symbol : Option Char) (front list : Text), line = symbol.toList ++ (front ++ list) ∧
    (∀ c ∈ symbol, (Visibility.ofSymbol? c).isSome = true) ∧ IsFront front ∧
    (list = [] ∨ ∃ ps, list = '(' :: (ps ++ [')']) ∧ ')' ∉ ps)

theorem seamless_of_ofLine? (h : ofLine? className line = some m) : Seamless line := by
  cases m with
  | ofAttribute a =>
    obtain ⟨f, rfl, -⟩ := ofLine?_eq_attribute_iff.mp h
    refine ⟨f.start.symbol, f.start.space ++ (f.typeName ++ (f.gap ++ f.name)), [],
      by simp [AttributeForm.text, MemberStart.text], f.start.isSome_ofSymbol?, ?_, Or.inl rfl⟩
    exact (isFront_of_blanks f.start.isBlank_space).append (f.isWord_typeName.isFront.append
      ((isFront_of_blanks f.isGap.blank).append f.isWord_name.isFront))
  | ofMethod n =>
    obtain ⟨f, rfl, -⟩ := ofLine?_eq_method_iff.mp h
    exact ⟨f.start.symbol, f.start.space ++ (f.typeText ++ f.name), '(' :: (f.parameters ++ [')']),
      by simp [MethodForm.text, MemberStart.text], f.start.isSome_ofSymbol?,
      (isFront_of_blanks f.start.isBlank_space).append (f.isFront_typeText.append f.isWord_name.isFront),
      Or.inr ⟨f.parameters, rfl, f.close_not_mem⟩⟩

section Cuts
variable {depth : Nat} {afterBlank : Bool} {c : Char} {t : Text}

/-- Where no cut is made the first piece goes on. -/
theorem cutPieces_cons_eq_singleton (hcut : (Visibility.ofSymbol? c).isSome = true → depth ≠ 0 ∨ afterBlank = false)
    (ht : cutPieces (depthAfter depth c) (isBlank c) t = [t]) : cutPieces depth afterBlank (c :: t) = [c :: t] := by
  have hkeep : ((Visibility.ofSymbol? c).isSome && depth == 0 && afterBlank) = false := by
    cases hs : (Visibility.ofSymbol? c).isSome with
    | false => rfl
    | true => rcases hcut hs with hd | ha <;> simp_all
  rw [cutPieces, ht, hkeep]
  rfl

theorem depthAfter_of_front (h : isWordChar c = true ∨ isBlank c = true) (depth : Nat) :
    depthAfter depth c = depth := by
  have hopen : c ≠ '(' := by
    rintro rfl
    revert h
    decide
  have hclose : c ≠ ')' := by
    rintro rfl
    revert h
    decide
  rw [depthAfter, if_neg hopen, if_neg hclose]

private theorem cutPieces_front_append {front : Text} (hfront : IsFront front) (ht : ∀ a, cutPieces 0 a t = [t])
    (afterBlank : Bool) : cutPieces 0 afterBlank (front ++ t) = [front ++ t] := by
  induction front generalizing afterBlank with
  | nil => exact ht afterBlank
  | cons c front ih =>
    have hc := hfront c List.mem_cons_self
    apply cutPieces_cons_eq_singleton
    · simp [Visibility.ofSymbol?_eq_none hc]
    · rw [depthAfter_of_front hc]
      exact ih (fun d hd => hfront d (List.mem_cons_of_mem c hd)) _

def depthOver (depth : Nat) (t : Text) : Nat := t.foldl depthAfter depth

theorem depthOver_append (depth : Nat) (x y : Text) : depthOver depth (x ++ y) = depthOver (depthOver depth x) y :=
  List.foldl_append

/-- Without a closing parenthesis the depth does not fall. -/
theorem le_depthOver (ht : ')' ∉ t) (depth : Nat) : depth ≤ depthOver depth t := by
  induction t generalizing depth with
  | nil => exact Nat.le_refl depth
  | cons c t ih =>
    have hc : c ≠ ')' := fun he => ht (by simp [he])
    have hstep : depth ≤ depthAfter depth c := by
      rw [depthAfter, if_neg hc]
      split <;> omega
    exact Nat.le_trans hstep (ih (fun hm => ht (List.mem_cons_of_mem c hm)) _)

/-- Nothing is cut before a character that stands in parentheses. -/
theorem cutPieces_of_open (h : ∀ p q, t = p ++ q → q ≠ [] → depthOver depth p ≠ 0) (afterBlank : Bool) :
    cutPieces depth afterBlank t = [t] := by
  induction t generalizing depth afterBlank with
  | nil => rfl
  | cons c t ih =>
    apply cutPieces_cons_eq_singleton
    · exact fun _ => Or.inl (h [] (c :: t) rfl (by simp))
    · apply ih
      rintro p q rfl hq
      exact h (c :: p) q rfl hq

private theorem cutPieces_parameters {ps : Text} (hps : ')' ∉ ps) (depth : Nat) (afterBlank : Bool) :
    cutPieces (depth + 1) afterBlank (ps ++ [')']) = [ps ++ [')']] := by
  apply cutPieces_of_open
  intro p q he hq
  obtain ⟨q, c, rfl⟩ := (List.eq_nil_or_concat q).resolve_left hq
  rw [List.concat_eq_append, ← List.append_assoc] at he
  obtain ⟨rfl, -⟩ := List.append_inj' he rfl
  have hle := le_depthOver (fun hm => hps (List.mem_append_left q hm)) (depth + 1)
  omega

/-- A line that looks like a member is not cut: a symbol at its front follows no blank. -/
theorem Seamless.cutPieces (h : Seamless line) : Member.cutPieces 0 false line = [line] := by
  obtain ⟨symbol, front, list, rfl, hsymbol, hfront, hlist⟩ := h
  have hend (a : Bool) : Member.cutPieces 0 a list = [list] := by
    rcases hlist with rfl | ⟨ps, rfl, hps⟩
    · rfl
    · exact cutPieces_cons_eq_singleton (by simp [Visibility.ofSymbol?]) (cutPieces_parameters hps 0 _)
  have hrest := cutPieces_front_append hfront hend
  cases symbol with
  | none => exact hrest false
  | some c =>
    have hdepth : depthAfter 0 c = 0 := by
      have hopen : c ≠ '(' := by
        rintro rfl
        exact absurd (hsymbol _ rfl) (by decide)
      rw [depthAfter, if_neg hopen]
      exact ite_self 0
    apply cutPieces_cons_eq_singleton
    · exact fun _ => Or.inr rfl
    · rw [hdepth]
      exact hrest _

/-- The pieces of a line make up the line. -/
theorem flatten_cutPieces (depth : Nat) (afterBlank : Bool) (t : Text) :
    (cutPieces depth afterBlank t).flatten = t := by
  induction t generalizing depth afterBlank with
  | nil => rfl
  | cons c t ih =>
    have hfirst : (Text.consFirst c (cutPieces (depthAfter depth c) (isBlank c) t)).flatten = c :: t := by
      rw [Text.flatten_consFirst, ih]
    unfold cutPieces
    split
    · exact hfirst
    · exact hfirst

end Cuts

/-- All pieces but the first begin with the symbol before which the line was cut. -/
theorem symbol_of_mem_tail_cutPieces {depth : Nat} {afterBlank : Bool} {t piece : Text}
    (h : piece ∈ (cutPieces depth afterBlank t).tail) :
    ∃ c u, piece = c :: u ∧ (Visibility.ofSymbol? c).isSome = true := by
  induction t generalizing depth afterBlank with
  | nil => simp [cutPieces] at h
  | cons c t ih =>
    unfold cutPieces at h
    split at h
    · next hcut =>
      simp only [Bool.and_eq_true] at hcut
      obtain ⟨first, rest, he⟩ := Text.exists_consFirst c (cutPieces (depthAfter depth c) (isBlank c) t)
      have htail := Text.tail_consFirst c (cutPieces (depthAfter depth c) (isBlank c) t)
      rw [he, List.tail_cons] at htail
      rw [he] at h
      rcases List.mem_cons.mp h with rfl | h
      · exact ⟨c, first, rfl, hcut.1.1⟩
      · exact ih (htail ▸ h)
    · rw [Text.tail_consFirst] at h
      exact ih h

theorem isBlank_of_ofSymbol? {c : Char} (h : (Visibility.ofSymbol? c).isSome = true) : isBlank c = false := by
  cases hb : isBlank c with
  | false => rfl
  | true => simp [Visibility.ofSymbol?_eq_none (Or.inr hb)] at h

private theorem trim_ne_nil_of_mem_cutPieces (htrim : Text.trim line = line) (hne : line ≠ []) {piece : Text}
    (h : piece ∈ cutPieces 0 false line) : Text.trim piece ≠ [] := by
  obtain ⟨c, u, rfl, hc⟩ : ∃ c u, piece = c :: u ∧ isBlank c = false := by
    obtain ⟨d, t, rfl⟩ := List.exists_cons_of_ne_nil hne
    have hd : isBlank d = false := stops_cons.mp (htrim ▸ Text.stops_trim (d :: t))
    have hcut : cutPieces 0 false (d :: t) = Text.consFirst d (cutPieces (depthAfter 0 d) (isBlank d) t) := by
      rw [cutPieces, Bool.and_false]
      rfl
    obtain ⟨first, rest, he⟩ := Text.exists_consFirst d (cutPieces (depthAfter 0 d) (isBlank d) t)
    rw [he] at hcut
    rw [hcut] at h
    rcases List.mem_cons.mp h with rfl | h
    · exact ⟨d, first, rfl, hd⟩
    · have htail : piece ∈ (cutPieces 0 false (d :: t)).tail := by rwa [hcut]
      obtain ⟨c, u, hu, hc⟩ := symbol_of_mem_tail_cutPieces htail
      exact ⟨c, u, hu, isBlank_of_ofSymbol? hc⟩
  intro hnil
  simp [Text.trim_eq_nil_iff.mp hnil c List.mem_cons_self] at hc

/-- A trimmed line has as many segments as pieces. -/
theorem segments_eq_map_trim (htrim : Text.trim line = line) (hne : line ≠ []) :
    segments line = (cutPieces 0 false line).map Text.trim := by
  refine List.filter_eq_self.mpr fun piece hp => ?_
  obtain ⟨uncut, hu, rfl⟩ := List.mem_map.mp hp
  simpa using trim_ne_nil_of_mem_cutPieces htrim hne hu

/-- A member is the only segment of its line. -/
theorem segments_of_ofLine? (h : ofLine? className line = some m) (htrim : Text.trim line = line) (hne : line ≠ []) :
    segments line = [line] := by
  rw [segments_eq_map_trim htrim hne, (seamless_of_ofLine? h).cutPieces, List.map_singleton, htrim]

private theorem segments_of_length_le (htrim : Text.trim line = line) (hne : line ≠ [])
    (h : (segments line).length ≤ 1) :
    segments line = [line] := by
  rw [segments_eq_map_trim htrim hne] at h ⊢
  have hflatten := flatten_cutPieces 0 false line
  match hpieces : cutPieces 0 false line with
  | [] =>
    rw [hpieces] at hflatten
    exact absurd hflatten.symm hne
  | [piece] =>
    rw [hpieces, List.flatten_singleton] at hflatten
    rw [hflatten, List.map_singleton, htrim]
  | _ :: _ :: _ => simp [hpieces] at h

def bodyLines (body : Text) : List Text := ((Text.lines body).map Text.trim).filter (!·.isEmpty)

/-- The segments of a body, all of them, whether they are members or not. -/
def bodySegments (body : Text) : List Text := (bodyLines body).flatMap segments

private theorem trim_of_mem_bodyLines {body line : Text} (h : line ∈ bodyLines body) :
    Text.trim line = line ∧ line ≠ [] := by
  obtain ⟨hm, hne⟩ := List.mem_filter.mp h
  obtain ⟨uncut, -, rfl⟩ := List.mem_map.mp hm
  exact ⟨Text.trim_trim uncut, by simpa using hne⟩

end Member

namespace Finding
variable {className line body : Text}

def ofSegment (className : Text) (alone : Bool) (segment : Text) : Finding :=
  match Member.ofLine? className segment with
  | some m => .member m
  | none => if alone then .skippedLine segment else .skippedSegment segment

/-- A line holds what its segments are. -/
theorem ofLine_eq_map (htrim : Text.trim line = line) (hne : line ≠ []) : ofLine className line =
    (Member.segments line).map (ofSegment className ((Member.segments line).length == 1)) := by
  unfold ofLine
  split
  · next m hm => simp [Member.segments_of_ofLine? hm htrim hne, ofSegment, hm]
  · next hm =>
    dsimp only
    split
    · next hle => simp [Member.segments_of_length_le htrim hne hle, ofSegment, hm]
    · next hlt =>
      have hseveral : ((Member.segments line).length == 1) = false := by
        simp only [beq_eq_false_iff_ne, ne_eq]
        omega
      rw [hseveral]
      rfl

/-- What a body holds, by its segments. -/
theorem ofBody_eq_flatMap (className body : Text) : ofBody className body =
    (Member.bodyLines body).flatMap fun line =>
      (Member.segments line).map (ofSegment className ((Member.segments line).length == 1)) := by
  change (Member.bodyLines body).flatMap (ofLine className) = _
  rw [List.flatMap_def, List.flatMap_def]
  congr 1
  apply List.map_congr_left
  intro line hl
  obtain ⟨htrim, hne⟩ := Member.trim_of_mem_bodyLines hl
  exact ofLine_eq_map htrim hne

theorem length_ofBody (className body : Text) : (ofBody className body).length = (Member.bodySegments body).length := by
  simp [ofBody_eq_flatMap, Member.bodySegments, List.length_flatMap]

end Finding
end ClassNotation
