import ClassNotation.Text.Basic

/-! Logs: what a run reports, in order of happening. A span is opened, left and closed; between
leaving and closing it other things may still happen, but no longer inside it. -/
namespace ClassNotation

inductive Level where
  | error
  | warn
  | info
  | debug
  | trace
  deriving DecidableEq, Repr

namespace Level

def rank : Level → Nat
  | error => 0
  | warn => 1
  | info => 2
  | debug => 3
  | trace => 4

def label : Level → Text
  | error => "ERROR".toList
  | warn => "WARN".toList
  | info => "INFO".toList
  | debug => "DEBUG".toList
  | trace => "TRACE".toList

end Level

/-- The most detailed level that is kept; `none` keeps nothing. -/
abbrev Threshold := Option Level

namespace Threshold

def keeps (threshold : Threshold) (level : Level) : Bool :=
  threshold.any fun most => level.rank ≤ most.rank

def all : List Threshold := [none, some .error, some .warn, some .info, some .debug, some .trace]

def name : Threshold → Text
  | none => "off".toList
  | some .error => "error".toList
  | some .warn => "warn".toList
  | some .info => "info".toList
  | some .debug => "debug".toList
  | some .trace => "trace".toList

def ofName? (t : Text) : Option Threshold := all.find? fun threshold => name threshold == t

end Threshold

/-- A message with its fields: an event, or a span and what it was opened with. -/
structure Entry where
  level : Level
  message : String
  fields : List (String × Text) := []
  deriving DecidableEq, Repr

inductive Step where
  | event (e : Entry)
  | opened (span : Entry)
  | left (span : Entry)
  | closed (span : Entry)
  deriving DecidableEq, Repr

def Step.entry : Step → Entry
  | event e | opened e | left e | closed e => e

abbrev Log := List Step

namespace Log

def event (level : Level) (message : String) (fields : List (String × Text) := []) : Log :=
  [.event ⟨level, message, fields⟩]

/-- A span around `inside`, closed only after `after` has happened too. -/
def within (span : Entry) (inside : Log) (after : Log := []) : Log :=
  .opened span :: inside ++ .left span :: after ++ [.closed span]

/-- Spans go with everything that is told about them, and leave what happened inside. -/
def keep (threshold : Threshold) (log : Log) : Log := log.filter (threshold.keeps ·.entry.level)

end Log

/-- A log entry as a reader sees it: a span when it opens, an event with the spans around it. -/
inductive Record where
  | span (e : Entry)
  | event (e : Entry) (inside : List String)
  deriving DecidableEq, Repr

def Log.records (inside : List String) : Log → List Record
  | [] => []
  | .event e :: rest => .event e inside :: records inside rest
  | .opened e :: rest => .span e :: records (inside ++ [e.message]) rest
  | .left _ :: rest => records inside.dropLast rest
  | .closed _ :: rest => records inside rest

end ClassNotation
