import ClassNotation.CommandLine.Options
import ClassNotation.Java

/-! Reading the arguments of the program. A value that stands in a word of its own is checked only
when the next known flag is met or the words end, so a word that cannot be placed is reported before
a bad value in front of it. -/
namespace ClassNotation

structure GenerateOptions where
  input : Option Text := none
  output : Option Text := none
  layout : Layout := {}
  json : Bool := false
  colour : ColourChoice := .auto
  skipDetection : Bool := false
  deriving DecidableEq, Repr

inductive Command where
  | generate (options : GenerateOptions)
  | detect (input : Option Text) (json : Bool)
  | validate (input : Option Text)
  deriving DecidableEq, Repr

structure Invocation where
  verbose : Bool
  threshold : Option Threshold
  logFormat : Option LogFormat
  command : Command
  deriving DecidableEq, Repr

/-- An argument by its shape. A single dash is a plain word. -/
inductive Word where
  | separator
  | long (name : Text) (value : Option Text)
  | short (letters : Text)
  | plain (t : Text)
  deriving DecidableEq, Repr

def Word.ofText : Text → Word
  | ['-', '-'] => .separator
  | '-' :: '-' :: t => .long (t.takeWhile (· != '=')) (t.dropWhile (· != '=')).tail?
  | '-' :: c :: t => .short (c :: t)
  | t => .plain t

/-- The flags met so far at one level, with their values, and the last one while its value is
missing or unchecked. -/
structure Progress where
  settings : List Setting := []
  pending : Option (Flag × Option Text) := none
  deriving DecidableEq, Repr

namespace Progress

/-- Each flag may be given once. This is noticed before its value is checked. -/
def record (p : Progress) (flag : Flag) (setting : Except Usage Setting) : Except Usage Progress :=
  if p.settings.any (·.flag == flag) then .error .repeatedOption
  else setting.map fun s => { settings := p.settings ++ [s] }

def check (p : Progress) (flag : Flag) (value : Text) : Except Usage Progress :=
  match flag.action with
  | .stop u => .error u
  | .set _ => .error .needlessValue
  | .value read => p.record flag (read value)

def settle (p : Progress) : Except Usage Progress :=
  match p.pending with
  | none => .ok p
  | some (_, none) => .error .invalidValue
  | some (flag, some value) => check p flag value

def meet (p : Progress) (flag : Flag) : Except Usage Progress := do
  let p ← p.settle
  match flag.action with
  | .stop u => .error u
  | .set s => p.record flag (.ok s)
  | .value _ => .ok { p with pending := some (flag, none) }

def meetValue (p : Progress) (flag : Flag) (value : Text) : Except Usage Progress := do
  let p ← p.settle
  check p flag value

def long (flags : List Flag) (p : Progress) (name : Text) (value : Option Text) :
    Except Usage Progress :=
  match flags.find? (·.long == name), value with
  | none, _ => .error .unknownArgument
  | some flag, none => p.meet flag
  | some flag, some value =>
    match flag.action with
    | .value _ => p.meetValue flag value
    | _ => .error .needlessValue

/-- A cluster of one-letter flags. The first that takes a value takes the rest of the word, less one
equals sign, or else the next word. -/
def short (flags : List Flag) (p : Progress) : (letters : Text) → Except Usage Progress
  | [] => .ok p
  | c :: rest =>
    match flags.find? (·.short? == some c) with
    | none => .error .unknownArgument
    | some flag =>
      match flag.action, rest with
      | .value _, [] => p.meet flag
      | .value _, '=' :: value => p.meetValue flag value
      | .value _, value => p.meetValue flag value
      | _, _ => do
        let p ← p.meet flag
        short flags p rest

def waiting? (p : Progress) : Option Flag :=
  match p.pending with
  | some (flag, none) => some flag
  | _ => none

def supply (p : Progress) (flag : Flag) (value : Text) : Progress :=
  { p with pending := some (flag, some value) }

end Progress

def readFlags (flags : List Flag) (p : Progress) : List Text → Except Usage (List Setting)
  | [] => p.settle.map Progress.settings
  | w :: ws =>
    match Word.ofText w with
    | .separator => if ws.isEmpty then p.settle.map Progress.settings else .error .unknownArgument
    | .long name value => do
      let p ← p.long flags name value
      readFlags flags p ws
    | .short letters => do
      let p ← p.short flags letters
      readFlags flags p ws
    | .plain t =>
      match p.waiting? with
      | some flag => readFlags flags (p.supply flag t) ws
      | none => .error .unknownArgument

namespace Invocation

def path? (settings : List Setting) : Option Text :=
  settings.findSome? fun
    | .input path => some path
    | _ => none

def commandOf (name : CommandName) (settings : List Setting) : Command :=
  match name with
  | .generate => .generate {
      input := path? settings
      output := settings.findSome? fun
        | .output path => some path
        | _ => none
      layout := ⟨(settings.findSome? fun
        | .indent n => some n
        | _ => none).getD ({} : Layout).indent⟩
      json := settings.contains .json
      colour := (settings.findSome? fun
        | .colour choice => some choice
        | _ => none).getD .auto
      skipDetection := settings.contains .skipDetection }
  | .detect => .detect (path? settings) (settings.contains .json)
  | .validate => .validate (path? settings)

/-- Flags behind the command win over the same flags before it. -/
def ofSettings (name : CommandName) (before behind : List Setting) : Invocation where
  verbose := (behind ++ before).contains .verbose
  threshold := (behind ++ before).findSome? fun
    | .logLevel threshold => some threshold
    | _ => none
  logFormat := (behind ++ before).findSome? fun
    | .logFormat format => some format
    | _ => none
  command := commandOf name behind

def helpWord : Text := "help".toList

def isCommandWord (t : Text) : Bool := (CommandName.ofWord? t).isSome || t == helpWord

def helpFor : List Text → Usage
  | [] => .help
  | [t] => if isCommandWord t then .help else .unknownCommand
  | _ => .unknownCommand

/-- Reads the words up to the command, and the rest with the command's flags. What is wrong behind
the command is noticed before an unchecked value in front of it. -/
def readBefore (p : Progress) : List Text → Except Usage Invocation
  | [] => do
    let p ← p.settle
    .error (if p.settings.isEmpty then .noArguments else .noCommand)
  | w :: ws =>
    match Word.ofText w, p.waiting? with
    | .separator, _ =>
      match ws with
      | [] => do
        let p ← p.settle
        .error (if p.settings.isEmpty then .noArguments else .noCommand)
      | t :: _ => .error (if isCommandWord t then .unknownArgument else .unknownCommand)
    | .long name value, _ => do
      let p ← p.long Flag.beforeCommand name value
      readBefore p ws
    | .short letters, _ => do
      let p ← p.short Flag.beforeCommand letters
      readBefore p ws
    | .plain t, some flag => readBefore (p.supply flag t) ws
    | .plain t, none =>
      if t = helpWord then .error (helpFor ws)
      else match CommandName.ofWord? t with
        | none => .error .unknownCommand
        | some name => do
          let behind ← readFlags name.flags {} ws
          let p ← p.settle
          .ok (ofSettings name p.settings behind)

def ofArguments (arguments : List Text) : Except Usage Invocation := readBefore {} arguments

end Invocation
end ClassNotation
