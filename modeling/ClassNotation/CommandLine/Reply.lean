import ClassNotation.Colour
import ClassNotation.CommandLine.Arguments
import ClassNotation.CommandLine.Disk
import ClassNotation.Model.Json
import ClassNotation.Pipeline

/-! The commands: from what was read to what is printed, logged and written. -/
namespace ClassNotation

def programName : Text := "umlstub".toList

def programVersion : Text := "0.1.0".toList

/-- What surrounds a run: four variables, unset if `none`, and whether standard output is shown on
a terminal. -/
structure Surroundings where
  levelVariable : Option Text := none
  commonLevelVariable : Option Text := none
  formatVariable : Option Text := none
  noColour : Option Text := none
  terminal : Bool := false
  deriving DecidableEq, Repr

/-- What a command does. A file is still to be written. -/
structure Reply where
  exitCode : Nat := 0
  output : Text := []
  errors : Text := []
  log : Log := []
  file : Option (Text × Text) := none
  deriving DecidableEq, Repr

namespace Reply

def ofError (notes : Text) (log : Log) (e : Error) : Reply where
  exitCode := 1
  errors := notes ++ Text.line ("Error: ".toList ++ e.message)
  log := log

def after (notes : Text) (r : Reply) : Reply := { r with errors := notes ++ r.errors }

def failWrite (r : Reply) (path : Text) (failure : WriteFailure) : Reply :=
  { r with
    exitCode := 1
    errors := r.errors ++ Text.line ("Error: ".toList ++ (Error.unwritableFile path failure.message).message)
    file := none }

end Reply

/-- The path of a file, unless the standard stream is meant. -/
def filePath? (path : Option Text) : Option Text := path.filter (· != ['-'])

namespace GenerateOptions

/-- Without a choice, colours are for a terminal, and for no one who has asked for none. -/
def wantsColour (s : Surroundings) (o : GenerateOptions) : Bool :=
  match o.colour with
  | .always => true
  | .never => false
  | .auto => s.noColour.isNone && (filePath? o.output).isNone && s.terminal

def palette (s : Surroundings) : Palette :=
  if (s.noColour.getD []).isEmpty then .standard else .muted

/-- The indent is checked before the document is looked at. -/
def render (s : Surroundings) (o : GenerateOptions) (document : Text) : Run Text := do
  Run.ofExcept o.layout.check
  let pipeline := Pipeline.standard o.layout
  let _ ← if o.skipDetection then pure notationName else pipeline.detect document
  if o.json then
    let m ← pipeline.read document
    return m.json
  else
    let declarations ← pipeline.generate document
    Run.note (Log.event .info "Generated declarations"
      [("declarations", Text.ofNat declarations.length), ("config", o.layout.description)])
    let joined := Text.joinWith ['\n', '\n'] declarations
    return if o.wantsColour s then colourize (palette s) joined else joined

/-- A file gets the text as it is; on standard output a newline ends it. -/
def deliver (o : GenerateOptions) (t : Text) : Reply :=
  match filePath? o.output with
  | some path => { file := some (path, t) }
  | none => { output := if t.isEmpty || t.getLast? == some '\n' then t else Text.line t }

def reply (s : Surroundings) (verbose : Bool) (o : GenerateOptions) (document : Text) : Reply :=
  let run := o.render s document
  match run.result with
  | .error e => .ofError [] run.log e
  | .ok t =>
    { o.deliver t with
      errors := if verbose then Text.line "Successfully generated declarations".toList else []
      log := run.log }

end GenerateOptions

def detection (document : Text) : Run (Text × Confidence) := do
  let name ← (Pipeline.standard {}).detect document
  let confidence := Detector.classNotation.confidence document
  Run.note (Detector.classNotation.report document ++ Log.event .debug "Detection finished"
    [("diagram_type", name), ("confidence", confidence.written)])
  return (name, confidence)

def detectReply (json : Bool) (document : Text) : Reply :=
  let run := detection document
  match run.result with
  | .error e => .ofError (Text.line ("Could not detect notation: ".toList ++ e.message)) run.log e
  | .ok (name, confidence) =>
    { output := Text.line <|
        if json then
          Json.object 0 [("diagram_type", Json.string name), ("confidence", confidence.written)]
        else name ++ " (confidence ".toList ++ confidence.writtenLong ++ [')']
      log := run.log }

def validateReply (document : Text) : Reply :=
  let run := (Pipeline.standard {}).read document
  match run.result with
  | .error e => .ofError [] run.log e
  | .ok m =>
    if m.isEmpty then
      { Reply.ofError [] run.log .emptyModel with
        output := Text.line ("✗ ".toList ++ Error.emptyModel.message) }
    else
      { output := Text.line ("✓ Valid: ".toList ++ Text.ofNat m.classes.length ++ " class(es), ".toList ++
          Text.ofNat m.enums.length ++ " enum(s)".toList)
        log := run.log }

namespace Command

def input : Command → Option Text
  | generate o => o.input
  | detect input _ => input
  | validate input => input

def reply (s : Surroundings) (verbose : Bool) (c : Command) (document : Text) : Reply :=
  match c with
  | generate o => o.reply s verbose document
  | detect _ json => detectReply json document
  | validate _ => validateReply document

end Command

namespace Invocation

def document (i : Invocation) (bytes : Option ByteArray) : Except Error Text :=
  match bytes.bind Text.decode?, filePath? i.command.input with
  | some t, _ => .ok t
  | none, some path => .error (.unreadableFile path)
  | none, none => .error (.io "stream did not contain valid UTF-8".toList)

/-- The flag decides, or else a variable; a level that is not known counts as `info`. -/
def thresholdIn (s : Surroundings) (i : Invocation) : Threshold :=
  i.threshold.getD <|
    match s.levelVariable <|> s.commonLevelVariable with
    | some name => (Threshold.ofName? name).getD (some .info)
    | none => some .info

def format (s : Surroundings) (i : Invocation) : Except Text LogFormat :=
  match i.logFormat, s.formatVariable with
  | some f, _ => .ok f
  | none, some name => (LogFormat.ofName? name).elim (.error name) .ok
  | none, none => .ok .compact

def notes (s : Surroundings) (i : Invocation) : Text :=
  (match i.format s with
    | .ok _ => []
    | .error name =>
      Text.line ("Warning: Failed to initialize logging: ".toList ++ LogFormat.invalid name)) ++
  (if i.verbose then Text.line (programName ++ " v".toList ++ programVersion) else [])

def written (s : Surroundings) (i : Invocation) (log : Log) : Log :=
  match i.format s with
  | .ok f => f.written (i.thresholdIn s) log
  | .error _ => []

def reply (s : Surroundings) (i : Invocation) (bytes : Option ByteArray) : Reply :=
  let r := match i.document bytes with
    | .error e => Reply.ofError [] [] e
    | .ok document =>
      (i.command.reply s i.verbose document).after
        (if i.verbose then
          Text.line ("Read ".toList ++ Text.ofNat (Text.byteSize document) ++ " bytes of input".toList)
        else [])
  r.after (i.notes s)

end Invocation

structure Outcome where
  exitCode : Nat
  output : Text
  errors : Text
  log : Log
  disk : Disk

def Usage.output (help : Text) : Usage → Text
  | .help => help
  | .version => Text.line (programName ++ ' ' :: programVersion)
  | _ => []

namespace Invocation

def run (s : Surroundings) (disk : Disk) (input : ByteArray) (i : Invocation) : Outcome :=
  let bytes := match filePath? i.command.input with
    | some path => disk.read? path
    | none => some input
  let r := i.reply s bytes
  let finish (r : Reply) (disk : Disk) : Outcome :=
    ⟨r.exitCode, r.output, r.errors, i.written s r.log, disk⟩
  match r.file with
  | none => finish r disk
  | some (path, t) =>
    match disk.write path (Text.encode t) with
    | .ok disk => finish r disk
    | .error failure => finish (r.failWrite path failure) disk

end Invocation
end ClassNotation
