import ClassNotation.Detector
import ClassNotation.Run

/-! Pipelines: a text is detected, read and rendered. -/
namespace ClassNotation

def notationName : Text := "uml".toList

def notationVersion : Text := "0.1.0".toList

def rendererName : Text := "java".toList

def rendererVersion : Text := "0.1.0".toList

def rendererFormat : Text := "java".toList

def Model.readRun (document : Text) : Run Model := ⟨Model.readLog {} document, .ok (.ofText document)⟩

def Model.javaRun (layout : Layout) (m : Model) : Run (List Text) := ⟨m.javaLog layout, .ok (m.java layout)⟩

/-- Named detectors, no name twice, and a reader and a renderer, which has a layout. Either both of
them are there or neither is. -/
structure Pipeline where
  detectors : List (Text × Detector) := []
  hasReader : Bool := false
  layout : Option Layout := none
  complete : hasReader = layout.isSome := by rfl

namespace Pipeline

/-- A detector takes the place of an earlier one of its name. -/
def insertDetector (name : Text) (d : Detector) : List (Text × Detector) → List (Text × Detector)
  | [] => [(name, d)]
  | (n, old) :: rest => if n = name then (n, d) :: rest else (n, old) :: insertDetector name d rest

def register (p : Pipeline) (name : Text) (d : Detector) : Pipeline :=
  { p with detectors := insertDetector name d p.detectors }

def standard (layout : Layout) : Pipeline where
  detectors := [(notationName, Detector.classNotation)]
  hasReader := true
  layout := some layout
  complete := rfl

/-- The first of the detectors that accepts the text. Each one is asked for its confidence, and then
for its decision. -/
def firstAccepting (document : Text) : List (Text × Detector) → Run Text
  | [] => ⟨Log.event .warn "No suitable detector found for input", .error .undetected⟩
  | (name, d) :: rest =>
    let fields := [("detector", name), ("confidence", (d.confidence document).written)]
    let asked := d.report document ++ Log.event .trace "Checking detector" fields ++ d.report document
    if d.accepts document then ⟨asked ++ Log.event .info "Detected notation" fields, .ok name⟩
    else ⟨asked ++ (firstAccepting document rest).log, (firstAccepting document rest).result⟩

def detectInOrder (order : List (Text × Detector)) (document : Text) : Run Text :=
  Run.within ⟨.info, "detect_diagram_type", lengthField document⟩ do
    Run.note (Log.event .trace "Starting notation detection")
    firstAccepting document order

def detect (p : Pipeline) (document : Text) : Run Text := detectInOrder p.detectors document

def requireReader (p : Pipeline) : Run Unit := Run.ofExcept (if p.hasReader then .ok () else .error .noReader)

def requireRenderer (p : Pipeline) : Run Layout := Run.ofExcept (p.layout.elim (.error .noRenderer) .ok)

def read (p : Pipeline) (document : Text) : Run Model :=
  Run.within ⟨.debug, "pipeline_parse", []⟩ do
    p.requireReader
    let m ← Model.readRun document
    Run.note (Log.event .debug "Parsing completed" [("class_count", Text.ofNat m.classes.length),
      ("enum_count", Text.ofNat m.enums.length)])
    return m

def generate (p : Pipeline) (document : Text) : Run (List Text) :=
  Run.within ⟨.info, "process_uml", lengthField document⟩ do
    Run.note (Log.event .info "Processing class notation")
    let m ← p.read document
    Run.withinThen ⟨.debug, "pipeline_render", []⟩
      (do
        let layout ← p.requireRenderer
        let output ← m.javaRun layout
        Run.note (Log.event .debug "Rendering completed" [("declarations", Text.ofNat output.length)])
        return output)
      fun output => do
        Run.note (Log.event .info "Pipeline completed successfully")
        return output

def processInOrder (order : List (Text × Detector)) (p : Pipeline) (document : Text) : Run (List Text) :=
  Run.within ⟨.info, "process_document", lengthField document⟩ do
    Run.note (Log.event .info "Starting generation pipeline")
    Run.withinThen ⟨.debug, "pipeline_detect", []⟩
      (do
        let name ← detectInOrder order document
        Run.note (Log.event .debug "Notation detected" [("diagram_type", name)])
        return name)
      fun name =>
        if name = notationName then p.generate document
        else do
          Run.note (Log.event .warn "Unsupported notation" [("diagram_type", name)])
          Run.ofExcept (.error (.unknownDiagramType name))

def process (p : Pipeline) (document : Text) : Run (List Text) := processInOrder p.detectors p document

end Pipeline
end ClassNotation
