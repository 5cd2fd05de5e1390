import ClassNotation.Pipeline

/-! What pipelines result in, whatever they log: the result of each step comes from the results of
its parts, and detection comes down to the first detector that accepts the text. -/
namespace ClassNotation

namespace Run
variable {α β : Type}

@[simp] theorem result_pure (a : α) : (pure a : Run α).result = .ok a := rfl

@[simp] theorem result_note (log : Log) : (note log).result = .ok () := rfl

@[simp] theorem result_ofExcept (result : Except Error α) : (ofExcept result).result = result := rfl

@[simp] theorem result_within (span : Entry) (inside : Run α) : (within span inside).result = inside.result := rfl

theorem result_bind (run : Run α) (next : α → Run β) :
    (run >>= next).result = run.result.bind fun a => (next a).result := by
  change (Run.bind run next).result = _
  unfold Run.bind
  cases run.result <;> rfl

private theorem result_withinThen (span : Entry) (inside : Run α) (next : α → Run β) :
    (withinThen span inside next).result = inside.result.bind fun a => (next a).result := by
  unfold withinThen
  cases inside.result <;> rfl

end Run

namespace Pipeline

private theorem result_firstAccepting (document : Text) (order : List (Text × Detector)) :
    (firstAccepting document order).result =
      (order.find? fun entry => entry.2.accepts document).elim (.error .undetected) fun entry => .ok entry.1 := by
  induction order with
  | nil => rfl
  | cons entry rest ih =>
    obtain ⟨name, d⟩ := entry
    unfold firstAccepting
    cases h : d.accepts document with
    | true => simp [h]
    | false => simpa [h] using ih

/-- The order in which detectors are asked matters only where several accept. -/
theorem result_detectInOrder (order : List (Text × Detector)) (document : Text) :
    (detectInOrder order document).result =
      (order.find? fun entry => entry.2.accepts document).elim (.error .undetected) fun entry => .ok entry.1 :=
  result_firstAccepting document order

theorem result_read (p : Pipeline) (document : Text) :
    (p.read document).result = if p.hasReader then .ok (Model.ofText document) else .error .noReader := by
  cases h : p.hasReader <;> simp [read, requireReader, Run.result_bind, h, Except.bind, Model.readRun]

/-- What was read is always rendered, so only the lack of a reader is ever told. -/
theorem result_generate (p : Pipeline) (document : Text) :
    (p.generate document).result =
      p.layout.elim (.error .noReader) fun layout => .ok (ClassNotation.generate layout document) := by
  have hread := p.result_read document
  rw [p.complete] at hread
  cases h : p.layout with
  | none =>
    rw [h] at hread
    simp [generate, Run.result_bind, hread, Except.bind]
  | some layout =>
    rw [h] at hread
    simp [generate, requireRenderer, Run.result_bind, Run.result_withinThen, hread, h, Except.bind, Model.javaRun,
      ClassNotation.generate]

theorem result_processInOrder (order : List (Text × Detector)) (p : Pipeline) (document : Text) :
    (processInOrder order p document).result = (detectInOrder order document).result.bind fun name =>
      if name = notationName then (p.generate document).result else .error (.unknownDiagramType name) := by
  simp only [processInOrder, Run.result_within, Run.result_bind, Run.result_note, Run.result_withinThen]
  cases (detectInOrder order document).result with
  | error e => rfl
  | ok name =>
    simp only [Except.bind, Run.result_pure]
    split <;> simp [Run.result_bind, Except.bind]

theorem result_detect_standard (layout : Layout) (document : Text) :
    ((standard layout).detect document).result =
      if Detector.classNotation.accepts document then .ok notationName else .error .undetected := by
  rw [detect, result_detectInOrder]
  cases h : Detector.classNotation.accepts document <;> simp [standard, h]

/-- With everything for class notation, a text that is accepted is rendered and no other. -/
theorem result_process_standard (layout : Layout) (document : Text) :
    ((standard layout).process document).result =
      if Detector.classNotation.accepts document then .ok (ClassNotation.generate layout document)
      else .error .undetected := by
  have hdetect := result_detect_standard layout document
  rw [detect] at hdetect
  rw [process, result_processInOrder, hdetect, result_generate]
  cases Detector.classNotation.accepts document <;> rfl

end Pipeline
end ClassNotation
