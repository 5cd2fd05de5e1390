import ClassNotation.Proofs.WordTokens

/-! Colouring only adds codes. A terminal shows the text as it was, but for the carriage returns of line
ends, and what it shows in colour are the keywords that stand as whole words, and the braces. -/
namespace ClassNotation

def Colour.sequence (c : Colour) : Text := "[38;5;".toList ++ Text.ofNat c.code

namespace Terminal

/-- What a terminal is given: characters to show, and codes. -/
inductive Item where
  | char (c : Char)
  | code (sequence : Text)
  deriving DecidableEq, Repr

def Item.char? : Item → Option Char
  | char c => some c
  | code _ => none

def itemsFrom (begun : Option Text) : Text → List Item
  | [] => (begun.map Item.code).toList
  | c :: t =>
    match begun with
    | none => if c = '\x1b' then itemsFrom (some []) t else .char c :: itemsFrom none t
    | some sequence => if c = 'm' then .code sequence :: itemsFrom none t else itemsFrom (some (sequence ++ [c])) t

/-- The items of a text. A code goes from an escape character to the next `m`. -/
def items (t : Text) : List Item := itemsFrom none t

def shown (t : Text) : Text := (items t).filterMap Item.char?

def reset : Text := "[39".toList

/-- A piece that is shown in colour, with the text that is shown before it and the code of the colour. -/
structure Span where
  before : Text
  code : Text
  text : Text
  deriving DecidableEq, Repr

def spansFrom (before : Text) (code? : Option Text) (text : Text) : List Item → List Span
  | [] => (code?.map fun code => ⟨before, code, text⟩).toList
  | .char c :: rest => spansFrom before code? (text ++ [c]) rest
  | .code sequence :: rest =>
    (code?.map fun code => ⟨before, code, text⟩).toList ++
      spansFrom (before ++ text) (if sequence = reset then none else some sequence) [] rest

/-- What a text shows in colour, from each code but the one that resets the colour to the next code. -/
def spans (t : Text) : List Span := spansFrom [] none [] (items t)

private theorem itemsFrom_chars {w : Text} (hw : '\x1b' ∉ w) (t : Text) :
    itemsFrom none (w ++ t) = w.map Item.char ++ itemsFrom none t := by
  induction w with
  | nil => rfl
  | cons c w ih =>
    simp only [List.mem_cons, not_or] at hw
    rw [List.cons_append, itemsFrom, if_neg (Ne.symm hw.1), ih hw.2]
    rfl

private theorem itemsFrom_sequence {sequence : Text} (hm : 'm' ∉ sequence) (begun t : Text) :
    itemsFrom (some begun) (sequence ++ 'm' :: t) = .code (begun ++ sequence) :: itemsFrom none t := by
  induction sequence generalizing begun with
  | nil => rw [List.nil_append, itemsFrom, if_pos rfl, List.append_nil]
  | cons c sequence ih =>
    simp only [List.mem_cons, not_or] at hm
    rw [List.cons_append, itemsFrom, if_neg (Ne.symm hm.1), ih hm.2, List.append_assoc, List.singleton_append]

private theorem itemsFrom_code {sequence : Text} (hm : 'm' ∉ sequence) (t : Text) :
    itemsFrom none ('\x1b' :: (sequence ++ 'm' :: t)) = .code sequence :: itemsFrom none t := by
  rw [itemsFrom, if_pos rfl, itemsFrom_sequence hm, List.nil_append]

private theorem spansFrom_chars (before : Text) (code? : Option Text) (text w : Text) (rest : List Item) :
    spansFrom before code? text (w.map Item.char ++ rest) = spansFrom before code? (text ++ w) rest := by
  induction w generalizing text with
  | nil => rw [List.map_nil, List.nil_append, List.append_nil]
  | cons c w ih => rw [List.map_cons, List.cons_append, spansFrom, ih, List.append_assoc, List.singleton_append]

end Terminal

open Terminal

namespace Token

def items (t : Token) : List Item :=
  match t.colour? with
  | some c => .code c.sequence :: (t.text.map Item.char ++ [.code reset])
  | none => t.text.map Item.char

private theorem items_of_colour {t : Token} {c : Colour} (h : t.colour? = some c) :
    t.items = .code c.sequence :: (t.text.map Item.char ++ [.code reset]) := by
  rw [items, h]

private theorem items_of_no_colour {t : Token} (h : t.colour? = none) : t.items = t.text.map Item.char := by
  rw [items, h]

private theorem filterMap_items (t : Token) : t.items.filterMap Item.char? = t.text := by
  have hchars : (t.text.map Item.char).filterMap Item.char? = t.text := by
    rw [List.filterMap_map]
    exact List.filterMap_some
  cases h : t.colour? with
  | none => rw [items_of_no_colour h, hchars]
  | some c =>
    rw [items_of_colour h, List.filterMap_cons_none rfl, List.filterMap_append, hchars]
    exact List.append_nil _

private theorem itemsFrom_paint {t : Token} (ht : '\x1b' ∉ t.text) (rest : Text) :
    itemsFrom none (Palette.standard.paint t ++ rest) = t.items ++ itemsFrom none rest := by
  have hstart (c : Colour) (u : Text) : Palette.standard.start c ++ u = '\x1b' :: (c.sequence ++ 'm' :: u) := by
    cases c <;> rfl
  have hstop (u : Text) : Palette.standard.stop ++ u = '\x1b' :: (reset ++ 'm' :: u) := rfl
  have hsequence (c : Colour) : 'm' ∉ c.sequence := by cases c <;> decide
  have hreset : 'm' ∉ reset := by decide
  cases h : t.colour? with
  | none =>
    rw [items_of_no_colour h, Palette.paint, h]
    exact itemsFrom_chars ht rest
  | some c =>
    rw [items_of_colour h, Palette.paint, h]
    simp only [List.append_assoc, List.cons_append, List.nil_append]
    rw [hstart, itemsFrom_code (hsequence c), itemsFrom_chars ht, hstop, itemsFrom_code hreset]

private theorem items_flatMap_paint {tokens : List Token} (h : ∀ t ∈ tokens, '\x1b' ∉ t.text) :
    Terminal.items (tokens.flatMap Palette.standard.paint) = tokens.flatMap items := by
  induction tokens with
  | nil => rfl
  | cons t tokens ih =>
    rw [List.flatMap_cons, Terminal.items, itemsFrom_paint (h t List.mem_cons_self), List.flatMap_cons, ← Terminal.items,
      ih fun u hu => h u (List.mem_cons_of_mem t hu)]

def spans (before : Text) : List Token → List Span
  | [] => []
  | t :: rest => (t.colour?.map fun c => ⟨before, c.sequence, t.text⟩).toList ++ spans (before ++ t.text) rest

private theorem spansFrom_flatMap_items (before text : Text) (tokens : List Token) :
    spansFrom before none text (tokens.flatMap items) = spans (before ++ text) tokens := by
  have hsequence (c : Colour) : c.sequence ≠ reset := by cases c <;> decide
  induction tokens generalizing before text with
  | nil => rfl
  | cons t tokens ih =>
    rw [List.flatMap_cons, spans]
    cases h : t.colour? with
    | none =>
      rw [items_of_no_colour h, spansFrom_chars, ih, List.append_assoc]
      rfl
    | some c =>
      rw [items_of_colour h, List.cons_append, List.append_assoc, spansFrom, if_neg (hsequence c), spansFrom_chars,
        List.singleton_append, spansFrom, if_pos rfl, ih, List.append_nil]
      rfl

private theorem mem_spans_iff {s : Span} {before : Text} {tokens : List Token} :
    s ∈ spans before tokens ↔ ∃ ts t us c, tokens = ts ++ t :: us ∧ t.colour? = some c ∧
      s = ⟨before ++ ts.flatMap text, c.sequence, t.text⟩ := by
  induction tokens generalizing before with
  | nil => simp [spans]
  | cons t tokens ih =>
    rw [spans, List.mem_append, ih, Option.mem_toList, Option.map_eq_some_iff]
    constructor
    · rintro (⟨c, hc, rfl⟩ | ⟨ts, u, us, c, rfl, hc, rfl⟩)
      · exact ⟨[], t, tokens, c, rfl, hc, by simp⟩
      · exact ⟨t :: ts, u, us, c, rfl, hc, by simp⟩
    · rintro ⟨ts, u, us, c, he, hc, rfl⟩
      cases ts with
      | nil =>
        obtain ⟨rfl, rfl⟩ := List.cons.inj he
        exact Or.inl ⟨c, hc, by simp⟩
      | cons first ts =>
        obtain ⟨rfl, rfl⟩ := List.cons.inj he
        exact Or.inr ⟨ts, u, us, c, rfl, hc, by simp⟩

private theorem pairwise_spans (before : Text) (tokens : List Token) :
    (spans before tokens).Pairwise fun s t => s.before ++ s.text <+: t.before := by
  induction tokens generalizing before with
  | nil => exact List.Pairwise.nil
  | cons t tokens ih =>
    rw [spans, List.pairwise_append]
    refine ⟨by cases t.colour? <;> simp, ih _, fun s hs u hu => ?_⟩
    obtain ⟨c, -, rfl⟩ := Option.map_eq_some_iff.mp (Option.mem_toList.mp hs)
    obtain ⟨ts, v, us, d, -, -, rfl⟩ := mem_spans_iff.mp hu
    exact List.prefix_append _ _

end Token

def accessKeywords : List Text := ["public".toList, "private".toList, "protected".toList]

def declaringKeywords : List Text := ["class".toList, "enum".toList, "abstract".toList, "extends".toList]

/-- What is to be shown in a colour: the keywords of access and of declaration, where they are whole
words, and braces wherever they stand. -/
def ColouredIn (before w after : Text) : Colour → Prop
  | .cyan => MaximalRun isWordChar before w after ∧ w ∈ accessKeywords
  | .magenta => MaximalRun isWordChar before w after ∧ w ∈ declaringKeywords
  | .yellow => w = ['\x7b'] ∨ w = ['\x7d']

namespace ColouredIn
variable {before w after : Text} {c : Colour}

private theorem dropReturns_iff :
    ColouredIn (Text.dropReturns before) w (Text.dropReturns after) c ↔ ColouredIn before w after c := by
  cases c
  · exact and_congr_left' Text.maximalRun_dropReturns_iff
  · exact and_congr_left' Text.maximalRun_dropReturns_iff
  · exact Iff.rfl

private theorem plain (h : ColouredIn before w after c) : w ≠ [] ∧ '\n' ∉ w ∧ '\r' ∉ w := by
  have hword (hrun : MaximalRun isWordChar before w after) : w ≠ [] ∧ '\n' ∉ w ∧ '\r' ∉ w :=
    have hw : IsWord w := ⟨hrun.ne_nil, hrun.chars⟩
    ⟨hw.ne_nil, hw.not_mem (by decide), hw.not_mem (by decide)⟩
  cases c with
  | cyan => exact hword h.1
  | magenta => exact hword h.1
  | yellow => rcases h with rfl | rfl <;> decide

end ColouredIn

namespace Token

private theorem colour?_word_iff {w : Text} {c : Colour} : (word w).colour? = some c ↔
    c = .cyan ∧ w ∈ accessKeywords ∨ c = .magenta ∧ w ∈ declaringKeywords := by
  have hapart : w ∈ accessKeywords → w ∉ declaringKeywords := by
    intro hw
    simp only [accessKeywords, List.mem_cons, List.not_mem_nil, or_false] at hw
    rcases hw with rfl | rfl | rfl <;> decide
  change (if accessKeywords.contains w then some .cyan
    else if declaringKeywords.contains w then some .magenta else none) = some c ↔ _
  simp only [List.contains_iff_mem]
  split
  · next haccess => simp [haccess, hapart haccess, eq_comm]
  · next haccess =>
    split
    · next hdeclare => simp [haccess, hdeclare, eq_comm]
    · next hdeclare => simp [haccess, hdeclare]

private theorem colour?_mark_iff {d : Char} {c : Colour} :
    (mark d).colour? = some c ↔ c = .yellow ∧ (d = '\x7b' ∨ d = '\x7d') := by
  change (if d = '\x7b' ∨ d = '\x7d' then some Colour.yellow else none) = some c ↔ _
  split
  · next hbrace => simp [hbrace, eq_comm]
  · next hbrace => simp [hbrace]

/-- The coloured tokens of a text stand where something is to be coloured. -/
theorem exists_coloured_iff {t before w : Text} {c : Colour} :
    (∃ ts token us, ofText t = ts ++ token :: us ∧ token.colour? = some c ∧ ts.flatMap text = before ∧ token.text = w) ↔
      ∃ after, t = before ++ (w ++ after) ∧ ColouredIn before w after c := by
  constructor
  · rintro ⟨ts, token, us, he, hc, hbefore, rfl⟩
    cases token with
    | word v =>
      obtain ⟨after, ht, hrun⟩ := ofText_eq_append_word_iff.mp ⟨ts, us, he, hbefore⟩
      refine ⟨after, ht, ?_⟩
      rcases colour?_word_iff.mp hc with ⟨rfl, hw⟩ | ⟨rfl, hw⟩
      · exact ⟨hrun, hw⟩
      · exact ⟨hrun, hw⟩
    | mark d =>
      obtain ⟨after, ht, -⟩ := ofText_eq_append_mark_iff.mp ⟨ts, us, he, hbefore⟩
      obtain ⟨rfl, hd⟩ := colour?_mark_iff.mp hc
      exact ⟨after, ht, hd.imp (congrArg ([·])) (congrArg ([·]))⟩
  · rintro ⟨after, ht, hcoloured⟩
    have hword (hrun : MaximalRun isWordChar before w after) (hc : (word w).colour? = some c) :
        ∃ ts token us, ofText t = ts ++ token :: us ∧ token.colour? = some c ∧ ts.flatMap text = before ∧
          token.text = w := by
      obtain ⟨ts, us, he, hbefore⟩ := ofText_eq_append_word_iff.mpr ⟨after, ht, hrun⟩
      exact ⟨ts, word w, us, he, hc, hbefore, rfl⟩
    cases c with
    | cyan => exact hword hcoloured.1 (colour?_word_iff.mpr (Or.inl ⟨rfl, hcoloured.2⟩))
    | magenta => exact hword hcoloured.1 (colour?_word_iff.mpr (Or.inr ⟨rfl, hcoloured.2⟩))
    | yellow =>
      obtain ⟨d, rfl, hd⟩ : ∃ d, w = [d] ∧ (d = '\x7b' ∨ d = '\x7d') := by
        rcases hcoloured with rfl | rfl
        · exact ⟨_, rfl, Or.inl rfl⟩
        · exact ⟨_, rfl, Or.inr rfl⟩
      have hmark : isWordChar d = false := by rcases hd with rfl | rfl <;> decide
      obtain ⟨ts, us, he, hbefore⟩ := ofText_eq_append_mark_iff.mpr ⟨after, ht, hmark⟩
      exact ⟨ts, mark d, us, he, colour?_mark_iff.mpr ⟨rfl, hd⟩, hbefore, rfl⟩

end Token

section
variable {x : Text}

/-- Colouring gives the terminal the tokens of the text, one after the other. -/
theorem items_colourize (h : '\x1b' ∉ x) :
    Terminal.items (colourize .standard x) = (Token.ofText (Text.dropReturns x)).flatMap Token.items := by
  rw [colourize_eq_flatMap]
  apply Token.items_flatMap_paint
  intro t ht hescape
  have hmem : '\x1b' ∈ (Token.ofText (Text.dropReturns x)).flatMap Token.text := List.mem_flatMap.mpr ⟨t, ht, hescape⟩
  rw [Token.flatMap_text_ofText] at hmem
  exact h ((Text.dropReturns_sublist x).subset hmem)

private theorem shown_colourize (h : '\x1b' ∉ x) : Terminal.shown (colourize .standard x) = Text.dropReturns x := by
  rw [Terminal.shown, items_colourize h, List.filterMap_flatMap]
  simp only [Token.filterMap_items]
  exact Token.flatMap_text_ofText _

private theorem spans_colourize (h : '\x1b' ∉ x) :
    Terminal.spans (colourize .standard x) = Token.spans [] (Token.ofText (Text.dropReturns x)) := by
  rw [Terminal.spans, items_colourize h, Token.spansFrom_flatMap_items]
  rfl

private theorem mem_spans_colourize_iff (h : '\x1b' ∉ x) {s : Span} :
    s ∈ Terminal.spans (colourize .standard x) ↔ ∃ before after c, x = before ++ (s.text ++ after) ∧
      s.before = Text.dropReturns before ∧ s.code = c.sequence ∧ ColouredIn before s.text after c := by
  rw [spans_colourize h, Token.mem_spans_iff]
  constructor
  · rintro ⟨ts, t, us, c, he, hc, rfl⟩
    obtain ⟨after', hx, hcoloured⟩ := Token.exists_coloured_iff.mp ⟨ts, t, us, he, hc, rfl, rfl⟩
    obtain ⟨hne, hn, hr⟩ := hcoloured.plain
    obtain ⟨before, after, rfl, hbefore, rfl⟩ := (Text.dropReturns_eq_append_iff hne hn hr).mp hx
    rw [← hbefore, ColouredIn.dropReturns_iff] at hcoloured
    exact ⟨before, after, c, rfl, hbefore.symm, rfl, hcoloured⟩
  · rintro ⟨before, after, c, hx, hbefore, hcode, hcoloured⟩
    obtain ⟨hne, hn, hr⟩ := hcoloured.plain
    have hshown := (Text.dropReturns_eq_append_iff hne hn hr).mpr ⟨before, after, hx, rfl, rfl⟩
    obtain ⟨ts, t, us, he, hc, hts, ht⟩ :=
      Token.exists_coloured_iff.mpr ⟨_, hshown, ColouredIn.dropReturns_iff.mpr hcoloured⟩
    obtain ⟨sBefore, sCode, sText⟩ := s
    refine ⟨ts, t, us, c, he, hc, ?_⟩
    simp only at hbefore hcode ht hts
    rw [List.nil_append, hts, ht, hbefore, hcode]

end

/-- Without its codes a coloured text is the text without the carriage returns that stand before
newlines, so it is the text itself where there are none. In colour are exactly the keywords that stand
in the text as whole words and the braces, each for itself. -/
theorem colouring_only_adds_codes (x : Text) (h : '\x1b' ∉ x) :
    Terminal.shown (colourize .standard x) = Text.dropReturns x ∧
    (Terminal.shown (colourize .standard x) = x ↔ ¬ ['\r', '\n'] <:+: x) ∧
    (∀ s, s ∈ Terminal.spans (colourize .standard x) ↔ ∃ before after c, x = before ++ (s.text ++ after) ∧
      s.before = Text.dropReturns before ∧ s.code = c.sequence ∧ ColouredIn before s.text after c) ∧
    (Terminal.spans (colourize .standard x)).Pairwise fun s t => s.before ++ s.text <+: t.before := by
  refine ⟨shown_colourize h, ?_, fun s => mem_spans_colourize_iff h, ?_⟩
  · rw [shown_colourize h, Text.dropReturns_eq_self_iff]
  · rw [spans_colourize h]
    exact Token.pairwise_spans _ _

/-- A line end with a carriage return between a keyword and two braces. -/
theorem colouring_only_adds_codes_at_line_end :
    let x := "class\r\n\x7b\x7d".toList
    '\x1b' ∉ x ∧ Terminal.shown (colourize .standard x) = "class\n\x7b\x7d".toList ∧
      Terminal.shown (colourize .standard x) ≠ x ∧
      ⟨[], Colour.magenta.sequence, "class".toList⟩ ∈ Terminal.spans (colourize .standard x) ∧
      ⟨"class\n\x7b".toList, Colour.yellow.sequence, ['\x7d']⟩ ∈ Terminal.spans (colourize .standard x) := by
  intro x
  have hescape : '\x1b' ∉ x := by decide
  have hpair : ['\r', '\n'] <:+: x := ⟨"class".toList, "\x7b\x7d".toList, rfl⟩
  have hclass : MaximalRun isWordChar [] "class".toList "\r\n\x7b\x7d".toList :=
    ⟨by decide, List.all_eq_true.mp (by decide), stops_nil, stops_cons.mpr (by decide)⟩
  obtain ⟨hshown, hself, hspans, -⟩ := colouring_only_adds_codes x hescape
  refine ⟨hescape, hshown.trans (by decide), fun he => hself.mp he hpair, (hspans _).mpr ?_, (hspans _).mpr ?_⟩
  · exact ⟨[], "\r\n\x7b\x7d".toList, .magenta, rfl, rfl, rfl, hclass, by decide⟩
  · exact ⟨"class\r\n\x7b".toList, [], .yellow, rfl, by decide, rfl, Or.inr rfl⟩

end ClassNotation
