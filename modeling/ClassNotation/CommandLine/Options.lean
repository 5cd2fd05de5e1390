import ClassNotation.Log.Format

/-! The commands and options of the command line, and what each option asks for. -/
namespace ClassNotation

inductive Usage where
  | help
  | version
  | noArguments
  | noCommand
  | unknownCommand
  | unknownArgument
  | invalidValue
  | invalidNumber
  | repeatedOption
  | needlessValue
  deriving DecidableEq, Repr

def Usage.exitCode : Usage → Nat
  | help | version => 0
  | _ => 2

inductive ColourChoice where
  | auto
  | always
  | never
  deriving DecidableEq, Repr

def ColourChoice.name : ColourChoice → Text
  | auto => "auto".toList
  | always => "always".toList
  | never => "never".toList

inductive CommandName where
  | generate
  | detect
  | validate
  deriving DecidableEq, Repr

def CommandName.ofWord? (t : Text) : Option CommandName :=
  if t = "generate".toList then some .generate
  else if t = "detect".toList then some .detect
  else if t = "validate".toList then some .validate
  else none

inductive Flag where
  | help
  | version
  | verbose
  | logLevel
  | logFormat
  | input
  | output
  | indent
  | json
  | colour
  | skipDetection
  deriving DecidableEq, Repr

inductive Setting where
  | verbose
  | logLevel (threshold : Threshold)
  | logFormat (format : LogFormat)
  | input (path : Text)
  | output (path : Text)
  | indent (n : Nat)
  | json
  | colour (choice : ColourChoice)
  | skipDetection
  deriving DecidableEq, Repr

def Setting.flag : Setting → Flag
  | verbose => .verbose
  | logLevel _ => .logLevel
  | logFormat _ => .logFormat
  | input _ => .input
  | output _ => .output
  | indent _ => .indent
  | json => .json
  | colour _ => .colour
  | skipDetection => .skipDetection

/-- What meeting a flag does: it ends the reading of the arguments, it is complete by itself, or it
takes a value. -/
inductive Action where
  | stop (u : Usage)
  | set (s : Setting)
  | value (read : Text → Except Usage Setting)

/-- An unsigned decimal below 2^64. A plus sign and leading zeros are allowed. -/
def word64? (t : Text) : Option Nat :=
  let digits := match t with
    | '+' :: rest => rest
    | _ => t
  let n := digits.foldl (fun n c => 10 * n + (c.toNat - '0'.toNat)) 0
  if digits.isEmpty || !digits.all Char.isDigit || UInt64.size ≤ n then none else some n

namespace Flag

def long : Flag → Text
  | help => "help".toList
  | version => "version".toList
  | verbose => "verbose".toList
  | logLevel => "log-level".toList
  | logFormat => "log-format".toList
  | input => "input".toList
  | output => "output".toList
  | indent => "indent".toList
  | json => "json".toList
  | colour => "color".toList
  | skipDetection => "skip-detection".toList

def short? : Flag → Option Char
  | help => some 'h'
  | version => some 'V'
  | verbose => some 'v'
  | input => some 'i'
  | output => some 'o'
  | _ => none

/-- A value outside an enumeration is refused, and so is an empty path. -/
def orInvalid (s : Option Setting) : Except Usage Setting := s.elim (.error .invalidValue) .ok

def action : Flag → Action
  | help => .stop .help
  | version => .stop .version
  | verbose => .set .verbose
  | json => .set .json
  | skipDetection => .set .skipDetection
  | logLevel => .value fun t => orInvalid ((Threshold.ofName? t).map .logLevel)
  | logFormat => .value fun t => orInvalid ((LogFormat.all.find? (·.name == t)).map .logFormat)
  | input => .value fun t => if t.isEmpty then .error .invalidValue else .ok (.input t)
  | output => .value fun t => if t.isEmpty then .error .invalidValue else .ok (.output t)
  | indent => .value fun t => ((word64? t).map Setting.indent).elim (.error .invalidNumber) .ok
  | colour => .value fun t =>
      orInvalid (([ColourChoice.auto, .always, .never].find? (·.name == t)).map .colour)

def everywhere : List Flag := [help, verbose, logLevel, logFormat]

def beforeCommand : List Flag := version :: everywhere

end Flag

def CommandName.flags : CommandName → List Flag
  | .generate => [.input, .output, .indent, .json, .colour, .skipDetection] ++ Flag.everywhere
  | .detect => [.input, .json] ++ Flag.everywhere
  | .validate => .input :: Flag.everywhere

end ClassNotation
