import ClassNotation.Log.Basic

/-! The formats in which a log is written, by what each of them writes. -/
namespace ClassNotation

inductive LogFormat where
  | compact
  | pretty
  | json
  deriving DecidableEq, Repr

namespace LogFormat

def all : List LogFormat := [compact, pretty, json]

def name : LogFormat → Text
  | compact => "compact".toList
  | pretty => "pretty".toList
  | json => "json".toList

/-- Names are compared in lower case. Lowering ASCII letters is enough: the characters beyond ASCII
that lower to a letter give `i` and `k`, which no name has. -/
def ofName? (t : Text) : Option LogFormat :=
  all.find? fun f => f.name == t.map Char.toLower

def unknown (name : Text) : Text := "Unknown log format: ".toList ++ name

def invalid (name : Text) : Text := "Invalid log format: ".toList ++ unknown name

/-- Events are always written; `json` also tells when a span closes, and `pretty` when it is entered
and left. -/
def writes : LogFormat → Step → Bool
  | _, .event _ => true
  | pretty, .opened _ => true
  | pretty, .left _ => true
  | json, .closed _ => true
  | _, _ => false

def written (f : LogFormat) (threshold : Threshold) (log : Log) : Log :=
  (log.keep threshold).filter f.writes

end LogFormat
end ClassNotation
