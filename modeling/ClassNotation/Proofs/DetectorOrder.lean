import ClassNotation.Proofs.PipelineResults

/-! The order in which detectors are asked. The registered detectors have no order of their own, so
detection may walk them in any; its result depends on the order only where several accept the text. -/
namespace ClassNotation.Pipeline
variable {detectors order : List (Text × Detector)} {document : Text}

private theorem lookup_insertDetector (name : Text) (d : Detector) (detectors : List (Text × Detector)) (n : Text) :
    (insertDetector name d detectors).lookup n = if n = name then some d else detectors.lookup n := by
  have hcons (m : Text) (e : Detector) (rest : List (Text × Detector)) :
      List.lookup n ((m, e) :: rest) = if n = m then some e else rest.lookup n := by
    by_cases h : n = m
    · simp [h]
    · rw [List.lookup_cons, beq_eq_false_iff_ne.mpr h, if_neg h]
  induction detectors with
  | nil => exact hcons name d []
  | cons entry rest ih =>
    obtain ⟨m, old⟩ := entry
    unfold insertDetector
    by_cases hm : m = name
    · subst hm
      rw [if_pos rfl, hcons, hcons]
      split <;> rfl
    · rw [if_neg hm, hcons, hcons, ih]
      by_cases h : n = m
      · rw [if_pos h, if_pos h, if_neg (h ▸ hm)]
      · rw [if_neg h, if_neg h]

private theorem mem_names_insertDetector {name n : Text} {d : Detector} :
    n ∈ (insertDetector name d detectors).map Prod.fst ↔ n = name ∨ n ∈ detectors.map Prod.fst := by
  induction detectors with
  | nil => simp [insertDetector]
  | cons entry rest ih =>
    obtain ⟨m, old⟩ := entry
    unfold insertDetector
    split
    · next hm => simp [hm]
    · rw [List.map_cons, List.mem_cons, ih, List.map_cons, List.mem_cons, or_left_comm]

private theorem nodup_insertDetector (h : (detectors.map Prod.fst).Nodup) (name : Text) (d : Detector) :
    ((insertDetector name d detectors).map Prod.fst).Nodup := by
  induction detectors with
  | nil => simp [insertDetector]
  | cons entry rest ih =>
    obtain ⟨m, old⟩ := entry
    obtain ⟨hm, hrest⟩ := List.nodup_cons.mp h
    unfold insertDetector
    split
    · exact List.nodup_cons.mpr ⟨hm, hrest⟩
    · next hne =>
      refine List.nodup_cons.mpr ⟨fun hmem => ?_, ih hrest⟩
      rcases mem_names_insertDetector.mp hmem with he | hmem
      · exact hne he
      · exact hm hmem

private theorem mem_iff_lookup (h : (detectors.map Prod.fst).Nodup) (n : Text) (d : Detector) :
    (n, d) ∈ detectors ↔ detectors.lookup n = some d := by
  induction detectors with
  | nil => simp
  | cons entry rest ih =>
    obtain ⟨m, e⟩ := entry
    obtain ⟨hm, hrest⟩ := List.nodup_cons.mp h
    by_cases hn : n = m
    · subst hn
      have hout : (n, d) ∉ rest := fun hmem => hm (List.mem_map.mpr ⟨(n, d), hmem, rfl⟩)
      simp [hout, eq_comm]
    · rw [List.lookup_cons, beq_eq_false_iff_ne.mpr hn, ← ih hrest]
      simp [hn]

def initial : Option Layout → Pipeline
  | some layout => standard layout
  | none => {}

/-- The pipeline after registrations, one after the other. -/
def registerAll (p : Pipeline) (registrations : List (Text × Detector)) : Pipeline :=
  registrations.foldl (fun p r => p.register r.1 r.2) p

/-- The detector that a name stands for after registrations: the last one that was registered under
it, or else the one that was there before. -/
def current? (p : Pipeline) (registrations : List (Text × Detector)) (name : Text) : Option Detector :=
  (registrations.reverse.lookup name).or (p.detectors.lookup name)

private theorem layout_registerAll (p : Pipeline) (registrations : List (Text × Detector)) :
    (p.registerAll registrations).layout = p.layout := by
  induction registrations generalizing p with
  | nil => rfl
  | cons r rest ih => exact ih (p.register r.1 r.2)

private theorem nodup_registerAll {p : Pipeline} (h : (p.detectors.map Prod.fst).Nodup)
    (registrations : List (Text × Detector)) : ((p.registerAll registrations).detectors.map Prod.fst).Nodup := by
  induction registrations generalizing p with
  | nil => exact h
  | cons r rest ih => exact ih (p := p.register r.1 r.2) (nodup_insertDetector h r.1 r.2)

/-- A registration replaces what an earlier one put under its name. -/
theorem lookup_registerAll (p : Pipeline) (registrations : List (Text × Detector)) (name : Text) :
    (p.registerAll registrations).detectors.lookup name = p.current? registrations name := by
  induction registrations generalizing p with
  | nil => rfl
  | cons r rest ih =>
    change ((p.register r.1 r.2).registerAll rest).detectors.lookup name = _
    have hone : List.lookup name [r] = if name = r.1 then some r.2 else none := lookup_insertDetector r.1 r.2 [] name
    rw [ih, current?, current?, register, lookup_insertDetector, List.reverse_cons, List.lookup_append, hone]
    cases List.lookup name rest.reverse with
    | some d => rfl
    | none => by_cases h : name = r.1 <;> simp [h]

private theorem nodup_initial (built : Option Layout) : ((initial built).detectors.map Prod.fst).Nodup := by
  cases built <;> simp [initial, standard]

private theorem layout_initial (built : Option Layout) : (initial built).layout = built := by cases built <;> rfl

/-- A name under which a detector is registered that accepts the text. -/
def Accepting (built : Option Layout) (registrations : List (Text × Detector)) (document name : Text) : Prop :=
  ∃ d, (initial built).current? registrations name = some d ∧ d.accepts document = true

section
variable {built : Option Layout} {registrations : List (Text × Detector)}

/-- In whatever order the detectors come, those that accept are the accepting names. -/
theorem accepting_iff (horder : order.Perm ((initial built).registerAll registrations).detectors) (name : Text) :
    Accepting built registrations document name ↔ ∃ d, (name, d) ∈ order ∧ d.accepts document = true := by
  have hmem (d : Detector) : (name, d) ∈ order ↔ (initial built).current? registrations name = some d := by
    rw [horder.mem_iff, mem_iff_lookup (nodup_registerAll (nodup_initial built) registrations), lookup_registerAll]
  simp only [Accepting, hmem]

/-- Detection finds an accepting name, or there is none. -/
theorem detectInOrder_cases (document : Text)
    (horder : order.Perm ((initial built).registerAll registrations).detectors) :
    (∃ name, (detectInOrder order document).result = .ok name ∧ Accepting built registrations document name) ∨
      (detectInOrder order document).result = .error .undetected ∧
        ¬ ∃ name, Accepting built registrations document name := by
  rw [result_detectInOrder]
  cases h : order.find? fun entry => entry.2.accepts document with
  | some entry =>
    obtain ⟨name, d⟩ := entry
    have haccepts := List.find?_some h
    exact Or.inl ⟨name, rfl, (accepting_iff horder name).mpr ⟨d, List.mem_of_find?_eq_some h, haccepts⟩⟩
  | none =>
    refine Or.inr ⟨rfl, ?_⟩
    rintro ⟨name, haccepting⟩
    obtain ⟨d, hmem, haccepts⟩ := (accepting_iff horder name).mp haccepting
    exact List.find?_eq_none.mp h (name, d) hmem haccepts

end

/-- Results do not depend on the order in which detectors are asked. However a pipeline was built and
whatever was registered since, detection gives only names whose current detector accepts the text, and
it fails exactly if there is none. With at most one accepting name everything is settled: no name, no
detection; a name other than that of class notation is unknown; class notation is read and rendered in
the layout that the pipeline was built with, which no registration changes. -/
theorem results_independent_of_order (built : Option Layout) (registrations order : List (Text × Detector))
    (document : Text) (horder : order.Perm ((initial built).registerAll registrations).detectors) :
    let p := (initial built).registerAll registrations
    let accepting := Accepting built registrations document
    (∀ name, (detectInOrder order document).result = .ok name → accepting name) ∧
    ((detectInOrder order document).result = .error .undetected ↔ ¬ ∃ name, accepting name) ∧
    ((∃ name, accepting name) → ∃ name, (detectInOrder order document).result = .ok name) ∧
    ((¬ ∃ name, accepting name) → (processInOrder order p document).result = .error .undetected) ∧
    (∀ name, accepting name → (∀ other, accepting other → other = name) →
      (detectInOrder order document).result = .ok name ∧
      (processInOrder order p document).result =
        if name = notationName then (p.generate document).result else .error (.unknownDiagramType name)) ∧
    (p.generate document).result =
      built.elim (.error .noReader) (fun layout => .ok (ClassNotation.generate layout document)) ∧
    Error.noReader.message = "No class notation parser available".toList ∧
    p.layout = built ∧ p.hasReader = built.isSome := by
  intro p accepting
  have hlayout : p.layout = built := by rw [layout_registerAll, layout_initial]
  have hprocess := result_processInOrder order p document
  have hcases := detectInOrder_cases document horder
  refine ⟨?_, ?_, ?_, ?_, ?_, ?_, rfl, hlayout, hlayout ▸ p.complete⟩
  · intro name hname
    rcases hcases with ⟨found, hfound, haccepting⟩ | ⟨herror, -⟩
    · rw [hname] at hfound
      cases hfound
      exact haccepting
    · rw [hname] at herror
      cases herror
  · rcases hcases with ⟨found, hfound, haccepting⟩ | ⟨herror, hnone⟩
    · rw [hfound]
      exact iff_of_false (by simp) (not_not_intro ⟨found, haccepting⟩)
    · exact iff_of_true herror hnone
  · intro hsome
    rcases hcases with ⟨found, hfound, -⟩ | ⟨-, hnone⟩
    · exact ⟨found, hfound⟩
    · exact absurd hsome hnone
  · intro hnone
    rcases hcases with ⟨found, -, haccepting⟩ | ⟨herror, -⟩
    · exact absurd ⟨found, haccepting⟩ hnone
    · rw [hprocess, herror]
      rfl
  · intro name haccepting hunique
    rcases hcases with ⟨found, hfound, hfoundAccepting⟩ | ⟨-, hnone⟩
    · rw [hunique found hfoundAccepting] at hfound
      rw [hprocess, hfound]
      exact ⟨rfl, rfl⟩
    · exact absurd ⟨name, haccepting⟩ hnone
  · rw [result_generate, hlayout]

/-- A detector that was put in the place of the one for class notation, and another one that accepts
what the first would have accepted. -/
theorem results_independent_of_order_replaced :
    let never : Detector := ⟨fun _ => ⟨0, by decide⟩, fun _ => false, fun _ => []⟩
    let always : Detector := ⟨fun _ => ⟨10, by decide⟩, fun _ => true, fun _ => []⟩
    let other := "other".toList
    let p := (initial (some {})).registerAll [(other, always), (notationName, never)]
    let order := [(other, always), (notationName, never)]
    let document := "class A \x7b\x7d".toList
    order.Perm p.detectors ∧ (detectInOrder order document).result = .ok other ∧
      (processInOrder order p document).result = .error (.unknownDiagramType other) := by
  intro never always other p order document
  have horder : order.Perm p.detectors := List.Perm.swap ..
  obtain ⟨-, -, -, -, hunique, -⟩ := results_independent_of_order (some {}) _ order document horder
  have hother : Accepting (some {}) order document other := ⟨always, rfl, rfl⟩
  obtain ⟨hdetect, hprocess⟩ := hunique other hother fun name hname => by
    obtain ⟨d, hmem, haccepts⟩ := (accepting_iff horder name).mp hname
    simp only [order, List.mem_cons, Prod.mk.injEq, List.not_mem_nil, or_false] at hmem
    rcases hmem with ⟨hn, -⟩ | ⟨-, rfl⟩
    · exact hn
    · cases haccepts
  exact ⟨horder, hdetect, hprocess⟩

end ClassNotation.Pipeline
