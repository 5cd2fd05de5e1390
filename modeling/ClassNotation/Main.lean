import ClassNotation.CommandLine.Reply

/-! The program: arguments, files and streams around the commands. -/
namespace ClassNotation.Program

def helpText : String :=
  "Turn a plain-text UML class notation into Java declaration stubs\n\n" ++
  "Usage: umlstub [OPTIONS] <COMMAND>\n\n" ++
  "Commands:\n" ++
  "  generate  Generate Java declarations from class notation\n" ++
  "  detect    Detect whether input is class notation\n" ++
  "  validate  Check that input declares at least one class or enum\n" ++
  "  help      Print this message or the help of the given command\n\n" ++
  "Options:\n" ++
  "  -v, --verbose              Enable verbose output\n" ++
  "      --log-level <LEVEL>    off, trace, debug, info, warn or error\n" ++
  "      --log-format <FORMAT>  compact, pretty or json\n" ++
  "  -h, --help                 Print help\n" ++
  "  -V, --version              Print version\n\n" ++
  "Every command takes -i, --input <FILE>; detect and generate take --json; generate takes\n" ++
  "-o, --output <FILE>, --indent <N>, --color <auto|always|never> and --skip-detection.\n"

def usageText : Usage → String
  | .help | .version => ""
  | .noArguments => helpText
  | .noCommand => "error: a command is required\n"
  | .unknownCommand => "error: unrecognized command\n"
  | .unknownArgument => "error: unexpected argument\n"
  | .invalidValue => "error: missing or invalid value\n"
  | .invalidNumber => "error: invalid number\n"
  | .repeatedOption => "error: an option cannot be used multiple times\n"
  | .needlessValue => "error: unexpected value for a flag\n"

def logLine (step : Step) : String :=
  let e := step.entry
  let note := match step with
    | .event _ => ""
    | .opened _ => ": enter"
    | .left _ => ": exit"
    | .closed _ => ": close"
  let fields := e.fields.map fun (key, value) => s!" {key}={String.ofList value}"
  s!"{String.ofList e.level.label} {e.message}{note}{String.join fields}\n"

def environmentText (name : String) : IO (Option Text) := return (← IO.getEnv name).map String.toList

def surroundings : IO Surroundings := return {
  levelVariable := ← environmentText "UMLSTUB_LOG_LEVEL"
  commonLevelVariable := ← environmentText "RUST_LOG"
  formatVariable := ← environmentText "UMLSTUB_LOG_FORMAT"
  noColour := ← environmentText "NO_COLOR"
  terminal := ← (← IO.getStdout).isTty }

def fileBytes (path : Text) : IO (Option ByteArray) := do
  try return some (← IO.FS.readBinFile (String.ofList path))
  catch _ => return none

def writeFailure : IO.Error → WriteFailure
  | .noFileOrDirectory _ 2 _ => .missingDirectory
  | .inappropriateType _ 20 _ => .notDirectory
  | .inappropriateType _ 21 _ => .isDirectory
  | .invalidArgument _ 36 _ => .nameTooLong
  | e => .other e.toString.toList

def writeFile (r : Reply) : IO Reply := do
  match r.file with
  | none => return r
  | some (path, t) =>
    try
      IO.FS.writeBinFile (String.ofList path) (Text.encode t)
      return r
    catch e => return r.failWrite path (writeFailure e)

def run (arguments : List String) : IO UInt32 := do
  match Invocation.ofArguments (arguments.map String.toList) with
  | .error u =>
    IO.print (String.ofList (u.output helpText.toList))
    IO.eprint (usageText u)
    return u.exitCode.toUInt32
  | .ok i =>
    let s ← surroundings
    let bytes ← match filePath? i.command.input with
      | some path => fileBytes path
      | none => some <$> (← IO.getStdin).readBinToEnd
    let r ← writeFile (i.reply s bytes)
    for step in i.written s r.log do IO.eprint (logLine step)
    IO.eprint (String.ofList r.errors)
    IO.print (String.ofList r.output)
    return r.exitCode.toUInt32

end ClassNotation.Program

def main (arguments : List String) : IO UInt32 := ClassNotation.Program.run arguments
