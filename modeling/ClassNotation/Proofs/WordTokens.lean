import ClassNotation.Colour
import ClassNotation.Proofs.TextLines

/-! Tokens. A text is coloured line by line, and with the newlines put back its lines are the text
without the carriage returns of its line ends. The tokens of the lines are the whole words of that text
and the characters between them, and since a carriage return belongs to no word, they stand in the text
as it was before too. -/
namespace ClassNotation

namespace Text

/-- Without the carriage returns that stand directly before a newline. -/
def dropReturns : Text → Text
  | [] => []
  | c :: t => if c = '\r' ∧ t.head? = some '\n' then dropReturns t else c :: dropReturns t

section
variable {c : Char} {t u v x y : Text}

private theorem dropReturns_cons_of_pair (h : c = '\r' ∧ t.head? = some '\n') :
    dropReturns (c :: t) = dropReturns t := if_pos h

private theorem dropReturns_cons_of_not_pair (h : ¬ (c = '\r' ∧ t.head? = some '\n')) :
    dropReturns (c :: t) = c :: dropReturns t := if_neg h

theorem getLast?_dropReturns (t : Text) : (dropReturns t).getLast? = t.getLast? := by
  induction t with
  | nil => rfl
  | cons c t ih =>
    by_cases h : c = '\r' ∧ t.head? = some '\n'
    · obtain ⟨u, rfl⟩ := List.head?_eq_some_iff.mp h.2
      rw [dropReturns_cons_of_pair h, ih, List.getLast?_cons_cons]
    · rw [dropReturns_cons_of_not_pair h, List.getLast?_cons, ih, List.getLast?_cons]

theorem dropReturns_eq_nil_iff : dropReturns t = [] ↔ t = [] := by
  rw [← List.getLast?_eq_none_iff, getLast?_dropReturns, List.getLast?_eq_none_iff]

theorem dropReturns_sublist (t : Text) : (dropReturns t).Sublist t := by
  induction t with
  | nil => exact List.Sublist.slnil
  | cons c t ih =>
    by_cases h : c = '\r' ∧ t.head? = some '\n'
    · rw [dropReturns_cons_of_pair h]
      exact ih.cons c
    · rw [dropReturns_cons_of_not_pair h]
      exact ih.cons_cons c

/-- Nothing is dropped exactly where no carriage return stands before a newline. -/
theorem dropReturns_eq_self_iff : dropReturns t = t ↔ ¬ ['\r', '\n'] <:+: t := by
  induction t with
  | nil => simp [dropReturns]
  | cons c t ih =>
    have hfront : ['\r', '\n'] <+: c :: t ↔ c = '\r' ∧ t.head? = some '\n' := by
      rw [List.cons_prefix_cons, List.head?_eq_some_iff]
      exact and_congr eq_comm ⟨fun ⟨u, hu⟩ => ⟨u, hu.symm⟩, fun ⟨u, hu⟩ => ⟨u, hu.symm⟩⟩
    rw [List.infix_cons_iff, hfront, not_or, ← ih]
    by_cases h : c = '\r' ∧ t.head? = some '\n'
    · rw [dropReturns_cons_of_pair h]
      refine iff_of_false (fun he => ?_) fun hn => hn.1 h
      have hle := (dropReturns_sublist t).length_le
      rw [he, List.length_cons] at hle
      omega
    · rw [dropReturns_cons_of_not_pair h, List.cons.injEq]
      exact ⟨fun he => ⟨h, he.2⟩, fun he => ⟨rfl, he.2⟩⟩

private theorem exists_append_of_dropReturns (h : dropReturns t = u ++ v) :
    ∃ x y, t = x ++ y ∧ dropReturns x = u ∧ dropReturns y = v := by
  induction t generalizing u with
  | nil =>
    obtain ⟨rfl, rfl⟩ := List.append_eq_nil_iff.mp h.symm
    exact ⟨[], [], rfl, rfl, rfl⟩
  | cons c t ih =>
    cases u with
    | nil => exact ⟨[], c :: t, rfl, rfl, h⟩
    | cons d u =>
      by_cases hpair : c = '\r' ∧ t.head? = some '\n'
      · rw [dropReturns_cons_of_pair hpair] at h
        obtain ⟨x, y, rfl, hx, hy⟩ := ih h
        refine ⟨c :: x, y, rfl, ?_, hy⟩
        cases x with
        | nil => cases hx
        | cons e x => exact (dropReturns_cons_of_pair (t := e :: x) hpair).trans hx
      · rw [dropReturns_cons_of_not_pair hpair] at h
        obtain ⟨rfl, hrest⟩ := List.cons.inj h
        obtain ⟨x, y, rfl, hx, hy⟩ := ih hrest
        refine ⟨c :: x, y, rfl, ?_, hy⟩
        rw [dropReturns_cons_of_not_pair, hx]
        rintro ⟨hc, hhead⟩
        obtain ⟨x, rfl⟩ := List.head?_eq_some_iff.mp hhead
        exact hpair ⟨hc, rfl⟩

private theorem dropReturns_append (h : y.head? ≠ some '\n') :
    dropReturns (x ++ y) = dropReturns x ++ dropReturns y := by
  induction x with
  | nil => rfl
  | cons c x ih =>
    have hhead : (x ++ y).head? = some '\n' ↔ x.head? = some '\n' := by
      cases x with
      | nil => simp [h]
      | cons d x => rfl
    simp only [List.cons_append, dropReturns, hhead, ih]
    split <;> rfl

private theorem newline_mem_dropReturns : '\n' ∈ dropReturns t ↔ '\n' ∈ t := by
  induction t with
  | nil => rfl
  | cons c t ih =>
    by_cases h : c = '\r' ∧ t.head? = some '\n'
    · rw [dropReturns_cons_of_pair h, ih, h.1]
      simp
    · rw [dropReturns_cons_of_not_pair h, List.mem_cons, List.mem_cons, ih]

private theorem dropReturns_of_not_mem (h : '\n' ∉ t) : dropReturns t = t :=
  dropReturns_eq_self_iff.mpr fun hpair => h (hpair.subset (by simp))

private theorem dropReturns_append_left {w : Text} (hw : '\r' ∉ w) (t : Text) :
    dropReturns (w ++ t) = w ++ dropReturns t := by
  induction w with
  | nil => rfl
  | cons c w ih =>
    simp only [List.mem_cons, not_or] at hw
    rw [List.cons_append, dropReturns_cons_of_not_pair fun h => hw.1 h.1.symm, ih hw.2, List.cons_append]

private theorem dropReturns_append_return (hx : '\n' ∉ x) (t : Text) :
    dropReturns (x ++ '\r' :: '\n' :: t) = x ++ '\n' :: dropReturns t := by
  rw [dropReturns_append (by simp), dropReturns_of_not_mem hx, dropReturns_cons_of_pair ⟨rfl, rfl⟩,
    dropReturns_cons_of_not_pair (by simp)]

private theorem dropReturns_append_newline (hx : '\n' ∉ x) (hr : x.getLast? ≠ some '\r') (t : Text) :
    dropReturns (x ++ '\n' :: t) = x ++ '\n' :: dropReturns t := by
  obtain rfl | ⟨z, c, rfl⟩ := List.eq_nil_or_concat x
  · exact dropReturns_cons_of_not_pair (by simp)
  · rw [List.concat_eq_append] at hx hr ⊢
    simp only [List.mem_append, List.mem_singleton, not_or] at hx
    have hc : c ≠ '\r' := fun he => hr (by simp [he])
    rw [List.append_assoc, List.singleton_append, dropReturns_append (by simpa using Ne.symm hx.2),
      dropReturns_of_not_mem hx.1, dropReturns_cons_of_not_pair (fun h => hc h.1),
      dropReturns_cons_of_not_pair (by simp), List.append_assoc, List.singleton_append]

/-- The lines of a text with a newline behind each are the text without its carriage returns. There is
one newline more if the last line has none of its own. -/
theorem flatMap_line_lines (t : Text) :
    (lines t).flatMap line = dropReturns t ++ if t = [] ∨ t.getLast? = some '\n' then [] else ['\n'] := by
  induction t using line_induction with
  | last x hx =>
    by_cases hne : x = []
    · subst hne
      rfl
    · have hlast : x.getLast? ≠ some '\n' := fun h => hx (List.mem_of_getLast? h)
      rw [lines_of_not_mem hx hne, dropReturns_of_not_mem hx, if_neg (not_or.mpr ⟨hne, hlast⟩),
        List.flatMap_singleton, line]
  | line x t hx ih =>
    obtain ⟨y, hlines, hy⟩ := exists_lines_append hx t
    have hdrop : dropReturns (x ++ '\n' :: t) = y ++ '\n' :: dropReturns t := by
      rcases hy with rfl | ⟨rfl, hr⟩
      · rw [List.append_assoc]
        exact dropReturns_append_return (fun hm => hx (List.mem_append_left _ hm)) t
      · exact dropReturns_append_newline hx hr t
    have hends : (x ++ '\n' :: t = [] ∨ (x ++ '\n' :: t).getLast? = some '\n') ↔
        t = [] ∨ t.getLast? = some '\n' := by
      cases t with
      | nil => simp
      | cons c t => simp
    rw [hlines, hdrop, List.flatMap_cons, ih, line]
    simp only [hends, List.append_assoc, List.cons_append, List.nil_append]

/-- A piece of a line stands in a text where it stands without the carriage returns. -/
theorem dropReturns_eq_append_iff {w : Text} (hne : w ≠ []) (hn : '\n' ∉ w) (hr : '\r' ∉ w) :
    dropReturns t = u ++ (w ++ v) ↔ ∃ x y, t = x ++ (w ++ y) ∧ dropReturns x = u ∧ dropReturns y = v := by
  constructor
  · intro h
    obtain ⟨x, z, rfl, hx, hz⟩ := exists_append_of_dropReturns h
    obtain ⟨w', y, rfl, hw', hy⟩ := exists_append_of_dropReturns hz
    have hplain : '\n' ∉ w' := fun hm => hn (hw' ▸ newline_mem_dropReturns.mpr hm)
    rw [dropReturns_of_not_mem hplain] at hw'
    exact ⟨x, y, by rw [hw'], hx, hy⟩
  · rintro ⟨x, y, rfl, rfl, rfl⟩
    have hhead : (w ++ y).head? ≠ some '\n' := by
      obtain ⟨c, w, rfl⟩ := List.exists_cons_of_ne_nil hne
      intro he
      exact hn (by simp [Option.some.inj he])
    rw [dropReturns_append hhead, dropReturns_append_left hr]

end

/-- Carriage returns matter neither to where a word ends nor to where it begins. -/
theorem maximalRun_dropReturns_iff {before w after : Text} :
    MaximalRun isWordChar (dropReturns before) w (dropReturns after) ↔ MaximalRun isWordChar before w after := by
  have hleft : Stops isWordChar (dropReturns before).reverse ↔ Stops isWordChar before.reverse := by
    unfold Stops
    rw [List.head?_reverse, List.head?_reverse, getLast?_dropReturns]
  have hright : Stops isWordChar (dropReturns after) ↔ Stops isWordChar after := by
    cases after with
    | nil => rfl
    | cons c t =>
      by_cases h : c = '\r' ∧ t.head? = some '\n'
      · obtain ⟨rfl, ht⟩ := h
        obtain ⟨t, rfl⟩ := List.head?_eq_some_iff.mp ht
        rw [dropReturns_cons_of_pair ⟨rfl, rfl⟩, dropReturns_cons_of_not_pair (by simp)]
        exact iff_of_true (stops_cons.mpr (by decide)) (stops_cons.mpr (by decide))
      · rw [dropReturns_cons_of_not_pair h, stops_cons, stops_cons]
  constructor
  · rintro ⟨hne, hchars, hl, hr⟩
    exact ⟨hne, hchars, hleft.mp hl, hright.mp hr⟩
  · rintro ⟨hne, hchars, hl, hr⟩
    exact ⟨hne, hchars, hleft.mpr hl, hright.mpr hr⟩

end Text

namespace Token

/-- Cutting a text into tokens loses nothing. -/
theorem flatMap_text_ofText (t : Text) : (ofText t).flatMap text = t := by
  induction t with
  | nil => rfl
  | cons c t ih =>
    unfold ofText
    split
    · split
      · next w rest he =>
        rw [he] at ih
        simpa [text] using ih
      · simp [text, ih]
    · simp [text, ih]

/-- Tokens as they come from a text: words are not empty and do not follow each other directly, and
other characters belong to no word. -/
def Proper : List Token → Prop
  | [] => True
  | word w :: rest => IsWord w ∧ Stops isWordChar (rest.flatMap text) ∧ Proper rest
  | mark c :: rest => isWordChar c = false ∧ Proper rest

private theorem proper_ofText (t : Text) : Proper (ofText t) := by
  induction t with
  | nil => trivial
  | cons c t ih =>
    unfold ofText
    split
    · next hc =>
      split
      · next w rest he =>
        rw [he] at ih
        obtain ⟨hw, hrest⟩ := ih
        exact ⟨hw.cons hc, hrest⟩
      · next hother =>
        refine ⟨⟨by simp, by simpa using hc⟩, ?_, ih⟩
        -- the rest begins with no word, or there would be one token less
        cases he : ofText t with
        | nil => exact stops_nil
        | cons first rest =>
          cases first with
          | word w => exact absurd he (hother w rest)
          | mark d =>
            rw [he] at ih
            exact stops_cons.mpr ih.1
    · next hc => exact ⟨by simpa using hc, ih⟩

private theorem Proper.of_append {ts us : List Token} (h : Proper (ts ++ us)) : Proper us := by
  induction ts with
  | nil => exact h
  | cons t ts ih =>
    cases t with
    | word w => exact ih h.2.2
    | mark c => exact ih h.2

/-- A word among proper tokens is a whole word of their text. -/
theorem Proper.maximalRun {ts us : List Token} {w : Text} (h : Proper (ts ++ word w :: us)) :
    MaximalRun isWordChar (ts.flatMap text) w (us.flatMap text) := by
  have hword : IsWord w := h.of_append.1
  refine hword.maximalRun ?_ h.of_append.2.1
  induction ts with
  | nil => exact stops_nil
  | cons t ts ih =>
    rw [List.flatMap_cons, List.reverse_append]
    by_cases hne : ts.flatMap text = []
    · rw [hne]
      cases t with
      | word v =>
        -- two words would follow each other
        have hstops : Stops isWordChar ((ts ++ word w :: us).flatMap text) := h.2.1
        rw [List.flatMap_append, hne, List.flatMap_cons, List.nil_append] at hstops
        obtain ⟨c, u, rfl⟩ := List.exists_cons_of_ne_nil hword.ne_nil
        have hc : isWordChar c = false := stops_cons.mp hstops
        rw [hword.chars c List.mem_cons_self] at hc
        cases hc
      | mark c => exact stops_cons.mpr h.1
    · refine Stops.append (ih ?_) (by simpa using hne) _
      cases t with
      | word v => exact h.2.2
      | mark c => exact h.2

private theorem ofText_mark {c : Char} (hc : isWordChar c = false) (t : Text) :
    ofText (c :: t) = mark c :: ofText t := by
  rw [ofText, if_neg (by simp [hc])]

private theorem ofText_eq_nil_iff {t : Text} : ofText t = [] ↔ t = [] := by
  constructor
  · intro h
    have htext := flatMap_text_ofText t
    rw [h] at htext
    exact htext.symm
  · rintro rfl
    rfl

private theorem ofText_word_append {w : Text} (hw : IsWord w) {t : Text} (ht : Stops isWordChar t) :
    ofText (w ++ t) = word w :: ofText t := by
  obtain ⟨hne, hchars⟩ := hw
  induction w with
  | nil => exact absurd rfl hne
  | cons c w ih =>
    have hc := hchars c List.mem_cons_self
    rw [List.cons_append, ofText, if_pos hc]
    cases w with
    | nil =>
      cases t with
      | nil => rfl
      | cons d t => rw [List.nil_append, ofText_mark (stops_cons.mp ht)]
    | cons d w => rw [ih (by simp) fun e he => hchars e (List.mem_cons_of_mem c he)]

/-- Where no word goes on across a cut, the two sides are cut into tokens on their own. -/
theorem ofText_append {x y : Text} (h : Stops isWordChar x.reverse ∨ Stops isWordChar y) :
    ofText (x ++ y) = ofText x ++ ofText y := by
  induction x with
  | nil => rfl
  | cons c x ih =>
    by_cases hne : x = []
    · subst hne
      by_cases hc : isWordChar c = true
      · have hw : IsWord [c] := ⟨by simp, by simpa using hc⟩
        have hy : Stops isWordChar y := h.resolve_left fun hleft => by
          have hnot : isWordChar c = false := stops_cons.mp hleft
          simp [hc] at hnot
        have hone := ofText_word_append hw stops_nil
        rw [List.append_nil] at hone
        rw [ofText_word_append hw hy, hone]
        rfl
      · have hc : isWordChar c = false := by simpa using hc
        rw [List.singleton_append, ofText_mark hc, ofText_mark hc]
        rfl
    · have hrest : Stops isWordChar x.reverse ∨ Stops isWordChar y := by
        refine h.imp_left fun hleft => ?_
        obtain ⟨d, u, hu⟩ := List.exists_cons_of_ne_nil (List.reverse_ne_nil_iff.mpr hne)
        rw [List.reverse_cons, hu] at hleft
        rw [hu]
        exact stops_cons.mpr (stops_cons.mp hleft)
      rw [List.cons_append, ofText, ofText, ih hrest]
      split
      · cases he : ofText x with
        | nil => exact absurd (ofText_eq_nil_iff.mp he) hne
        | cons first rest => cases first <;> rfl
      · rfl

private theorem ofText_flatMap_line (ls : List Text) :
    ofText (ls.flatMap Text.line) = ls.flatMap fun l => ofText l ++ [mark '\n'] := by
  induction ls with
  | nil => rfl
  | cons l ls ih =>
    have hnewline : isWordChar '\n' = false := by decide
    rw [List.flatMap_cons, List.flatMap_cons, Text.line, List.append_assoc, List.singleton_append,
      ofText_append (Or.inr (stops_cons.mpr hnewline)), ofText_mark hnewline, ih, List.append_assoc]
    rfl

private theorem eq_append_of_ofText_eq {t : Text} {ts us : List Token} {token : Token}
    (h : ofText t = ts ++ token :: us) :
    t = ts.flatMap text ++ (token.text ++ us.flatMap text) := by
  rw [← flatMap_text_ofText t, h, List.flatMap_append, List.flatMap_cons]

/-- The words among the tokens are the whole words of the text. -/
theorem ofText_eq_append_word_iff {t before w : Text} :
    (∃ ts us, ofText t = ts ++ word w :: us ∧ ts.flatMap text = before) ↔
      ∃ after, t = before ++ (w ++ after) ∧ MaximalRun isWordChar before w after := by
  constructor
  · rintro ⟨ts, us, he, rfl⟩
    have hproper : Proper (ts ++ word w :: us) := he ▸ proper_ofText t
    exact ⟨us.flatMap text, eq_append_of_ofText_eq he, hproper.maximalRun⟩
  · rintro ⟨after, rfl, hne, hchars, hleft, hright⟩
    refine ⟨ofText before, ofText after, ?_, flatMap_text_ofText before⟩
    rw [ofText_append (Or.inl hleft), ofText_word_append ⟨hne, hchars⟩ hright]

/-- The other tokens are the characters outside words. -/
theorem ofText_eq_append_mark_iff {t before : Text} {c : Char} :
    (∃ ts us, ofText t = ts ++ mark c :: us ∧ ts.flatMap text = before) ↔
      ∃ after, t = before ++ c :: after ∧ isWordChar c = false := by
  constructor
  · rintro ⟨ts, us, he, rfl⟩
    have hproper : Proper (ts ++ mark c :: us) := he ▸ proper_ofText t
    exact ⟨us.flatMap text, eq_append_of_ofText_eq he, hproper.of_append.1⟩
  · rintro ⟨after, rfl, hc⟩
    refine ⟨ofText before, ofText after, ?_, flatMap_text_ofText before⟩
    rw [ofText_append (Or.inr (stops_cons.mpr hc)), ofText_mark hc]

end Token

private theorem Palette.flatMap_paint_lines (p : Palette) (ls : List Text) :
    (Token.ofText (ls.flatMap Text.line)).flatMap p.paint =
      ls.flatMap fun l => Text.line ((Token.ofText l).flatMap p.paint) := by
  rw [Token.ofText_flatMap_line, List.flatMap_assoc]
  simp only [List.flatMap_append]
  rfl

/-- A text is painted line by line as it is painted as a whole, without its carriage returns. -/
theorem colourize_eq_flatMap (p : Palette) (t : Text) :
    colourize p t = (Token.ofText (Text.dropReturns t)).flatMap p.paint := by
  have hnewline : isWordChar '\n' = false := by decide
  have hpainted : (Text.lines t).flatMap (fun l => Text.line ((Token.ofText l).flatMap p.paint)) =
      (Token.ofText (Text.dropReturns t)).flatMap p.paint ++
        if t = [] ∨ t.getLast? = some '\n' then [] else ['\n'] := by
    rw [← p.flatMap_paint_lines, Text.flatMap_line_lines]
    split
    · rw [List.append_nil, List.append_nil]
    · rw [Token.ofText_append (Or.inr (stops_cons.mpr hnewline)), List.flatMap_append]
      rfl
  unfold colourize
  rw [hpainted]
  by_cases hnil : t = []
  · subst hnil
    rfl
  · by_cases hlast : t.getLast? = some '\n' <;> simp [hnil, hlast]

end ClassNotation
