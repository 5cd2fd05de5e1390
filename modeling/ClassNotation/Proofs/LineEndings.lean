import ClassNotation.Proofs.DetectionAgreement
import ClassNotation.Proofs.RelationReadings
import ClassNotation.Proofs.TextLines

/-! Line endings. A carriage return in front of each newline moves everything behind it, but no grammar
tells the pair from the newline alone: both are blank, and neither stands in a keyword, a word or an
arrow. Within a body the pair ends a line as the newline does. -/
namespace ClassNotation
open Grammar

namespace Text

def dosNewlines (t : Text) : Text := t.flatMap fun c => if c = '\n' then ['\r', '\n'] else [c]

@[simp] theorem dosNewlines_nil : dosNewlines [] = [] := rfl

@[simp] theorem dosNewlines_newline (t : Text) : dosNewlines ('\n' :: t) = '\r' :: '\n' :: dosNewlines t := rfl

private theorem dosNewlines_cons {c : Char} (hc : c ≠ '\n') (t : Text) : dosNewlines (c :: t) = c :: dosNewlines t := by
  rw [dosNewlines, List.flatMap_cons, if_neg hc]
  rfl

private theorem dosNewlines_append (t u : Text) : dosNewlines (t ++ u) = dosNewlines t ++ dosNewlines u :=
  List.flatMap_append

private theorem dosNewlines_eq_self {t : Text} (ht : '\n' ∉ t) : dosNewlines t = t := by
  induction t with
  | nil => rfl
  | cons c t ih =>
    have hc : c ≠ '\n' := fun he => ht (by simp [he])
    rw [dosNewlines_cons hc, ih (List.not_mem_of_not_mem_cons ht)]

@[simp] theorem dosNewlines_eq_nil_iff {t : Text} : dosNewlines t = [] ↔ t = [] := by
  cases t with
  | nil => simp
  | cons c t =>
    by_cases hc : c = '\n'
    · simp [hc]
    · simp [dosNewlines_cons hc]

private theorem head?_dosNewlines_ne (t : Text) : (dosNewlines t).head? ≠ some '\n' := by
  -- no newline comes without its carriage return, so none comes first
  cases t with
  | nil => simp
  | cons c t =>
    by_cases hc : c = '\n'
    · simp [hc]
    · simp [dosNewlines_cons hc, hc]

private theorem takeWhile_dosNewlines {p : Char → Bool} (hp : p '\r' = p '\n') (t : Text) :
    (dosNewlines t).takeWhile p = dosNewlines (t.takeWhile p) ∧
      (dosNewlines t).dropWhile p = dosNewlines (t.dropWhile p) := by
  induction t with
  | nil => simp
  | cons c t ih =>
    by_cases hc : c = '\n'
    · subst hc
      cases hn : p '\n' <;> simp [hp, hn, ih]
    · cases hpc : p c <;> simp [dosNewlines_cons hc, hpc, ih]

private theorem dosNewlines_eq_append_iff {k s r : Text} (hn : '\n' ∉ k) (hr : '\r' ∉ k) :
    dosNewlines s = k ++ r ↔ ∃ u, s = k ++ u ∧ r = dosNewlines u := by
  induction k generalizing s with
  | nil => simp [eq_comm]
  | cons d k ih =>
    have hd : d ≠ '\n' ∧ d ≠ '\r' := ⟨fun he => hn (by simp [he]), fun he => hr (by simp [he])⟩
    have ih {s : Text} := ih (s := s) (List.not_mem_of_not_mem_cons hn) (List.not_mem_of_not_mem_cons hr)
    cases s with
    | nil => simp
    | cons c s =>
      by_cases hc : c = '\n'
      · subst hc
        simp [hd.1.symm, hd.2.symm]
      · simp only [dosNewlines_cons hc, List.cons_append, List.cons.injEq, ih]
        constructor
        · rintro ⟨rfl, u, rfl, rfl⟩
          exact ⟨u, ⟨rfl, rfl⟩, rfl⟩
        · rintro ⟨u, ⟨rfl, rfl⟩, rfl⟩
          exact ⟨rfl, u, rfl, rfl⟩

private theorem map_trimEnd_consFirst {c : Char} {ls ls' : List Text} (h : ls.map trimEnd = ls'.map trimEnd) :
    (consFirst c ls).map trimEnd = (consFirst c ls').map trimEnd := by
  cases ls with
  | nil =>
    obtain rfl := List.map_eq_nil_iff.mp h.symm
    rfl
  | cons l ls =>
    cases ls' with
    | nil => cases h
    | cons l' ls' =>
      obtain ⟨hl, hls⟩ := List.cons.inj h
      simp only [consFirst, List.map_cons, trimEnd_cons, hl, hls]

/-- Lines stay the same but for blanks at their ends: a carriage return that was there before stays. -/
theorem map_trimEnd_lines_dosNewlines (t : Text) :
    (lines (dosNewlines t)).map trimEnd = (lines t).map trimEnd := by
  fun_induction lines t with
  | case1 => rfl
  | case2 t ih => simp [lines, ih]
  | case3 t ih =>
    rw [dosNewlines_cons (by decide), dosNewlines_newline, lines.eq_4 _ _ (by decide) (by simp), lines]
    simp [consFirst, ih, trimEnd_cons, show isBlank '\r' = true by decide]
  | case4 c t hc hpair ih =>
    have hpair' : ∀ u, c = '\r' → dosNewlines t = '\n' :: u → False := by
      rintro u - hu
      exact head?_dosNewlines_ne t (by rw [hu]; rfl)
    rw [dosNewlines_cons hc, lines.eq_4 c _ hc hpair']
    exact map_trimEnd_consFirst ih

private theorem map_trim_lines_dosNewlines (t : Text) : (lines (dosNewlines t)).map trim = (lines t).map trim := by
  have htrim : trim = trimStart ∘ trimEnd := funext trim_eq_trimStart_trimEnd
  rw [htrim, ← List.map_map, map_trimEnd_lines_dosNewlines, List.map_map]

end Text

open Text

/-- The members of a body do not depend on its line endings. -/
theorem Finding.ofBody_dosNewlines (className body : Text) :
    Finding.ofBody className (dosNewlines body) = Finding.ofBody className body := by
  rw [Finding.ofBody, Finding.ofBody, map_trim_lines_dosNewlines]

namespace Grammar
variable {α β γ δ : Type} {F : α → β}

/-- Of each text with the other line endings `g'` reads what `g` reads of the text itself, with `F`
for what the line endings change in the result. -/
def Converts (F : α → β) (g : Grammar α) (g' : Grammar β) : Prop :=
  ∀ s, g'.run (dosNewlines s) = (g.run s).map fun out => (F out.1, dosNewlines out.2)

private theorem converts_pure (F : α → β) (a : α) : Converts F (pure a) (pure (F a)) := fun _ => rfl

private theorem Converts.bind {g : Grammar α} {g' : Grammar β} {next : α → Grammar γ} {next' : β → Grammar δ}
    {G : γ → δ} (hg : Converts F g g') (hnext : ∀ a, Converts G (next a) (next' (F a))) :
    Converts G (g >>= next) (g' >>= next') := by
  intro s
  have hs := hg s
  cases h : g.run s with
  | none =>
    rw [h] at hs
    rw [run_bind_of_eq_none hs, run_bind_of_eq_none h]
    rfl
  | some out =>
    obtain ⟨a, r⟩ := out
    rw [h] at hs
    rw [run_bind_of_eq_some hs, run_bind_of_eq_some h]
    exact hnext a r

private theorem Converts.orElse {g other : Grammar α} {g' other' : Grammar β} (hg : Converts F g g')
    (hother : Converts F other other') : Converts F (g <|> other) (g' <|> other') := by
  intro s
  change (Grammar.orElse g' fun _ => other').run _ = ((Grammar.orElse g fun _ => other).run s).map _
  simp only [Grammar.orElse, hg s, hother s]
  cases g.run s <;> rfl

private theorem Converts.optional {g : Grammar α} {g' : Grammar β} (hg : Converts F g g') :
    Converts (Option.map F) g.optional g'.optional :=
  (hg.bind fun a => converts_pure (Option.map F) (some a)).orElse (converts_pure (Option.map F) none)

private theorem converts_literal {k : Text} (hn : '\n' ∉ k) (hr : '\r' ∉ k) : Converts id (literal k) (literal k) := by
  intro s
  apply Option.ext
  rintro ⟨a, r⟩
  simp only [run_literal_eq_some_iff, dosNewlines_eq_append_iff hn hr, Option.map_eq_some_iff, Prod.exists,
    Prod.mk.injEq, id_eq]
  constructor
  · rintro ⟨rfl, u, rfl, rfl⟩
    exact ⟨a, u, ⟨rfl, rfl⟩, rfl, rfl⟩
  · rintro ⟨_, u, ⟨rfl, rfl⟩, rfl, rfl⟩
    exact ⟨rfl, u, rfl, rfl⟩

private theorem converts_oneOf {value? : Char → Option α} (hn : value? '\n' = none) (hr : value? '\r' = none) :
    Converts id (oneOf value?) (oneOf value?) := by
  intro s
  cases s with
  | nil => rfl
  | cons c s =>
    by_cases hc : c = '\n'
    · subst hc
      simp [oneOf, hn, hr]
    · simp [oneOf, dosNewlines_cons hc, Function.comp_def]

private theorem converts_run0 {p : Char → Bool} (hp : p '\r' = p '\n') : Converts dosNewlines (run0 p) (run0 p) := by
  intro s
  obtain ⟨htake, hdrop⟩ := takeWhile_dosNewlines hp s
  simp only [run0, htake, hdrop, Option.map_some]

private theorem converts_run1 {p : Char → Bool} (hp : p '\r' = p '\n') : Converts dosNewlines (run1 p) (run1 p) := by
  intro s
  obtain ⟨htake, hdrop⟩ := takeWhile_dosNewlines hp s
  simp only [run1, htake, hdrop, List.isEmpty_iff, dosNewlines_eq_nil_iff]
  split <;> rfl

private theorem converts_word : Converts id word word := by
  intro s
  rw [word, converts_run1 rfl s]
  cases h : (run1 isWordChar).run s with
  | none => rfl
  | some out =>
    obtain ⟨w, r⟩ := out
    rw [Option.map_some, dosNewlines_eq_self ((isWord_of_run h).not_mem isWordChar_newline)]
    rfl

/-- Where nothing can be read at a line break, a scan finds the same with the other line endings. -/
theorem Converts.scan {g : Grammar α} {g' : Grammar β} (h : Converts F g g') (hg : WordLed g') (s : Text) :
    g'.scan (dosNewlines s) = (g.scan s).map F := by
  induction s using scan_induction g with
  | nil => rfl
  | pass c s hpass ih =>
    rw [scan_cons_of_run_eq_nothing hpass, ← ih]
    by_cases hc : c = '\n'
    · subst hc
      rw [dosNewlines_newline, hg.scan_cons (by decide), hg.scan_cons (by decide)]
    · have hs := h (c :: s)
      rw [dosNewlines_cons hc] at hs ⊢
      apply scan_cons_of_run_eq_nothing
      intro b r hr
      rw [hs, Option.map_eq_some_iff] at hr
      obtain ⟨⟨a, u⟩, hu, he⟩ := hr
      obtain rfl := hpass a u hu
      rw [← (Prod.mk.inj he).2, dosNewlines_cons hc]
  | read s a r hr hlt ih =>
    have hs := h s
    rw [hr] at hs
    have hlonger : (dosNewlines r).length < (dosNewlines s).length := by
      obtain ⟨u, rfl⟩ := g.rest_suffix hr
      have hu : dosNewlines u ≠ [] := by
        rw [Ne, dosNewlines_eq_nil_iff]
        rintro rfl
        simp at hlt
      have hpos := List.length_pos_iff.mpr hu
      rw [dosNewlines_append, List.length_append]
      omega
    rw [scan_of_run_eq_some hs hlonger, scan_of_run_eq_some hr hlt, ih, List.map_cons]

end Grammar

private theorem converts_bracedBody : Converts dosNewlines bracedBody bracedBody :=
  (converts_literal (by decide) (by decide)).bind fun _ => (converts_run0 rfl).bind fun _ =>
    (converts_literal (by decide) (by decide)).bind fun _ => converts_pure dosNewlines _

private theorem converts_parentClause : Converts id parentClause parentClause :=
  (converts_run1 rfl).bind fun _ => (converts_literal (by decide) (by decide)).bind fun _ =>
    (converts_run1 rfl).bind fun _ => converts_word

def ClassHeader.dosNewlines (h : ClassHeader) : ClassHeader := { h with body := h.body.dosNewlines }

def EnumHeader.dosNewlines (h : EnumHeader) : EnumHeader := { h with body := h.body.dosNewlines }

private theorem ClassHeader.converts : Converts ClassHeader.dosNewlines ClassHeader.grammar ClassHeader.grammar :=
  (converts_literal (by decide) (by decide)).bind fun _ => (converts_run1 rfl).bind fun _ =>
    converts_word.bind fun _ => converts_parentClause.optional.bind fun parent =>
      (converts_run0 rfl).bind fun _ => converts_bracedBody.bind fun _ => by
        rw [Option.map_id]
        exact converts_pure ClassHeader.dosNewlines _

private theorem EnumHeader.converts : Converts EnumHeader.dosNewlines EnumHeader.grammar EnumHeader.grammar :=
  (converts_literal (by decide) (by decide)).bind fun _ => (converts_run1 rfl).bind fun _ =>
    converts_word.bind fun _ => (converts_run0 rfl).bind fun _ => converts_bracedBody.bind fun _ =>
      converts_pure EnumHeader.dosNewlines _

private theorem converts_abstractMark : Converts id abstractMark abstractMark :=
  (converts_literal (by decide) (by decide)).bind fun _ => (converts_run1 rfl).bind fun _ =>
    (converts_literal (by decide) (by decide)).bind fun _ => (converts_run1 rfl).bind fun _ => converts_word

private theorem Relation.converts : Converts id Relation.grammar Relation.grammar := by
  have hpadding : Converts dosNewlines padding padding := converts_run0 rfl
  have hcardinality : Converts id Cardinality.grammar Cardinality.grammar := converts_oneOf rfl rfl
  have hexactly (a : Arrow) : Converts id (Arrow.exactly a) (Arrow.exactly a) :=
    (converts_literal (by cases a <;> decide) (by cases a <;> decide)).bind fun _ => converts_pure id a
  have harrow : Converts id Arrow.grammar Arrow.grammar := (hexactly _).orElse ((hexactly _).orElse (hexactly _))
  have hright : Converts id rightEnd rightEnd :=
    (hpadding.bind fun _ => hcardinality.bind fun k => hpadding.bind fun _ => converts_word.bind fun name =>
      converts_pure id (some k, name)).orElse
        (hpadding.bind fun _ => converts_word.bind fun name => converts_pure id (none, name))
  exact converts_word.bind fun _ => hpadding.bind fun _ => hcardinality.optional.bind fun k => hpadding.bind fun _ =>
    harrow.bind fun _ => hright.bind fun _ => by
      rw [Option.map_id]
      exact converts_pure id _

namespace Outline

def dosNewlines (o : Outline) : Outline :=
  { o with classes := o.classes.map ClassHeader.dosNewlines, enums := o.enums.map EnumHeader.dosNewlines }

private theorem ofText_dosNewlines (document : Text) :
    ofText document.dosNewlines = (ofText document).dosNewlines := by
  change Outline.mk _ _ _ _ = Outline.mk _ _ _ _
  rw [ClassHeader.converts.scan ClassHeader.keyworded.wordLed, EnumHeader.converts.scan EnumHeader.keyworded.wordLed,
    converts_abstractMark.scan keyworded_abstractMark.wordLed, Relation.converts.scan Relation.wordLed,
    List.map_id, List.map_id]
  rfl

private theorem classDecl_dosNewlines (o : Outline) (h : ClassHeader) :
    o.dosNewlines.classDecl h.dosNewlines = o.classDecl h := by
  have hbody : Finding.ofBody h.dosNewlines.name h.dosNewlines.body = Finding.ofBody h.name h.body :=
    Finding.ofBody_dosNewlines h.name h.body
  rw [classDecl, hbody]
  rfl

end Outline

private theorem Signal.appearsIn_dosNewlines (document : Text) :
    appearsIn document.dosNewlines = appearsIn document := by
  funext signal
  cases signal with
  | classHeader => simp [appearsIn, ClassHeader.converts.scan ClassHeader.keyworded.wordLed]
  | enumHeader => simp [appearsIn, EnumHeader.converts.scan EnumHeader.keyworded.wordLed]
  | abstractMark => simp [appearsIn, converts_abstractMark.scan keyworded_abstractMark.wordLed]
  | relation => simp [appearsIn, Relation.converts.scan Relation.wordLed]

/-- Line endings do not matter: with a carriage return before each newline a document declares the same
classes, and the same enums but for the line endings between their braces, and it is detected with the
same confidence. Carriage returns that were there before do no harm. -/
theorem line_endings_do_not_matter (document : Text) :
    (Model.ofText document.dosNewlines).classes = (Model.ofText document).classes ∧
    (Model.ofText document.dosNewlines).enums =
      (Model.ofText document).enums.map (fun e => ⟨e.name, e.values.dosNewlines⟩) ∧
    Detector.classNotation.confidence document.dosNewlines = Detector.classNotation.confidence document := by
  have houtline := Outline.ofText_dosNewlines document
  refine ⟨?_, ?_, ?_⟩
  · have hdecl : (Outline.ofText document).dosNewlines.classDecl ∘ ClassHeader.dosNewlines =
        (Outline.ofText document).classDecl := funext (Outline.ofText document).classDecl_dosNewlines
    rw [Model.ofText, houtline]
    change ((Outline.ofText document).classes.map ClassHeader.dosNewlines).map _ = _
    rw [List.map_map, hdecl]
    rfl
  · rw [Model.ofText, houtline]
    change ((Outline.ofText document).enums.map EnumHeader.dosNewlines).map _ =
      ((Outline.ofText document).enums.map _).map _
    rw [List.map_map, List.map_map]
    rfl
  · change Signal.confidenceIn document.dosNewlines = Signal.confidenceIn document
    rw [Signal.confidenceIn, Signal.best?, Signal.appearsIn_dosNewlines]
    rfl

end ClassNotation
