import ClassNotation.Log.Reading

/-! Detection: how sure one can be that a text is a class document. -/
namespace ClassNotation

structure Confidence where
  tenths : Nat
  tenths_le : tenths ≤ 10 := by decide
  deriving DecidableEq, Repr

namespace Confidence

def written (c : Confidence) : Text := Text.ofNat (c.tenths / 10) ++ '.' :: Text.ofNat (c.tenths % 10)

def writtenLong (c : Confidence) : Text := c.written ++ ['0']

end Confidence

/-- The signs of class notation, the surest first. -/
inductive Signal where
  | classHeader
  | enumHeader
  | abstractMark
  | relation
  deriving DecidableEq, Repr

namespace Signal

def all : List Signal := [classHeader, enumHeader, abstractMark, relation]

def pattern : Signal → Text
  | classHeader => "class <Name> [extends <Parent>] \x7b ... \x7d".toList
  | enumHeader => "enum <Name> \x7b ... \x7d".toList
  | abstractMark => "abstract class <Name>".toList
  | relation => "<A> [\"1\"|\"*\"] (--|-->|<--) [\"1\"|\"*\"] <B>".toList

def confidence : Signal → Confidence
  | classHeader => ⟨8, by decide⟩
  | enumHeader => ⟨8, by decide⟩
  | abstractMark => ⟨6, by decide⟩
  | relation => ⟨3, by decide⟩

def appearsIn (document : Text) : Signal → Bool
  | classHeader => !(ClassHeader.grammar.scan document).isEmpty
  | enumHeader => !(EnumHeader.grammar.scan document).isEmpty
  | abstractMark => !(ClassNotation.abstractMark.scan document).isEmpty
  | relation => !(Relation.grammar.scan document).isEmpty

def best? (document : Text) : Option Signal := all.find? (appearsIn document)

def confidenceIn (document : Text) : Confidence := (best? document).elim ⟨0, by decide⟩ confidence

def report (document : Text) : Signal → Log
  | classHeader => (ClassHeader.grammar.scan document).flatMap ClassHeader.report
  | enumHeader => (EnumHeader.grammar.scan document).flatMap EnumHeader.report
  | abstractMark => []
  | relation => (Relation.grammar.scan document).flatMap Relation.report

end Signal

/-- A detector gives a confidence and decides on its own. `report` is what one look at a text
writes to the log. -/
structure Detector where
  confidence : Text → Confidence
  accepts : Text → Bool
  report : Text → Log := fun _ => []

namespace Detector

/-- The best sign decides, and more than half is needed. Looking stops at the sign found, and a sign
that is absent reports nothing. -/
def classNotation : Detector where
  confidence := Signal.confidenceIn
  accepts document := (Signal.confidenceIn document).tenths > 5
  report document := (Signal.best? document).elim [] (Signal.report document)

end Detector

def maybeDeclares (document : Text) : Bool :=
  Text.contains "class".toList document || Text.contains "enum".toList document

end ClassNotation
