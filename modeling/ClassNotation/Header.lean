import ClassNotation.Grammar.Basic

/-! Headers: the grammars of class and enum declarations with their bodies, and of abstract marks. -/
namespace ClassNotation
open Grammar

structure ClassHeader where
  name : Text
  parent : Option Text
  body : Text
  deriving DecidableEq, Repr

structure EnumHeader where
  name : Text
  body : Text
  deriving DecidableEq, Repr

/-- The text up to the first closing brace. -/
def bracedBody : Grammar Text := do
  let _ ← literal ['\x7b']
  let body ← run0 (· != '\x7d')
  let _ ← literal ['\x7d']
  return body

def parentClause : Grammar Text := do
  let _ ← blanks1
  let _ ← literal "extends".toList
  let _ ← blanks1
  word

def ClassHeader.grammar : Grammar ClassHeader := do
  let _ ← literal "class".toList
  let _ ← blanks1
  let name ← word
  let parent ← parentClause.optional
  let _ ← blanks
  let body ← bracedBody
  return ⟨name, parent, body⟩

def EnumHeader.grammar : Grammar EnumHeader := do
  let _ ← literal "enum".toList
  let _ ← blanks1
  let name ← word
  let _ ← blanks
  let body ← bracedBody
  return ⟨name, body⟩

/-- The name of a class that is marked abstract, wherever the mark stands. -/
def abstractMark : Grammar Text := do
  let _ ← literal "abstract".toList
  let _ ← blanks1
  let _ ← literal "class".toList
  let _ ← blanks1
  word

end ClassNotation
