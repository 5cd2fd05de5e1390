import ClassNotation.Grammar.Basic

/-! Relations between two names, as they are written. -/
namespace ClassNotation

inductive Cardinality where
  | one
  | many
  deriving DecidableEq, Repr

inductive Arrow where
  | forward
  | plain
  | backward
  deriving DecidableEq, Repr

structure Relation where
  source : Text
  target : Text
  arrow : Arrow
  sourceCardinality : Option Cardinality := none
  targetCardinality : Option Cardinality := none
  deriving DecidableEq, Repr

def Cardinality.ofSymbol? : Char → Option Cardinality
  | '*' => some .many
  | '1' => some .one
  | _ => none

def Arrow.written : Arrow → Text
  | .forward => "-->".toList
  | .plain => "--".toList
  | .backward => "<--".toList

open Grammar

def Cardinality.grammar : Grammar Cardinality := oneOf Cardinality.ofSymbol?

def Arrow.exactly (a : Arrow) : Grammar Arrow := do
  let _ ← literal a.written
  return a

/-- The long arrow is tried before the plain one, which is its beginning. -/
def Arrow.grammar : Grammar Arrow := exactly .forward <|> exactly .plain <|> exactly .backward

namespace Relation

def ofWritten (left : Text) (leftCardinality : Option Cardinality) (arrow : Arrow)
    (rightCardinality : Option Cardinality) (right : Text) : Relation :=
  match arrow with
  | .backward => ⟨right, left, arrow, rightCardinality, leftCardinality⟩
  | _ => ⟨left, right, arrow, leftCardinality, rightCardinality⟩

/-- A cardinality and a name, or else a name alone. A leading `1` is a cardinality whenever a name
still follows it. -/
def rightEnd : Grammar (Option Cardinality × Text) :=
  (do
    let _ ← padding
    let c ← Cardinality.grammar
    let _ ← padding
    let name ← word
    return (some c, name)) <|>
  (do
    let _ ← padding
    let name ← word
    return (none, name))

def grammar : Grammar Relation := do
  let left ← word
  let _ ← padding
  let leftCardinality ← Cardinality.grammar.optional
  let _ ← padding
  let arrow ← Arrow.grammar
  let (rightCardinality, right) ← rightEnd
  return ofWritten left leftCardinality arrow rightCardinality right

end Relation
end ClassNotation
