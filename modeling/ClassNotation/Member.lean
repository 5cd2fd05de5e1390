import ClassNotation.Grammar.Basic
import ClassNotation.Model.Basic

/-! Members: how the lines of a class body become attributes and methods. A line that is neither is
cut into segments, since several members may stand on one line; what still is no member is skipped. -/
namespace ClassNotation

open Grammar

def Visibility.grammar : Grammar Visibility := do
  let symbol ← (oneOf Visibility.ofSymbol?).optional
  let _ ← blanks
  return symbol.getD .pub

namespace Method

def signature : Grammar (Option Text × Text) :=
  (do
    let (type, name) ← wordPair
    return (some type, name)) <|>
  (do
    let name ← word
    return (none, name))

def parameterList : Grammar Text := do
  let _ ← literal ['(']
  let text ← run0 (· != ')')
  let _ ← literal [')']
  return text

/-- A method of the named class. The one that bears the class's name is a constructor, with or
without a type before it; another one without a type returns nothing. -/
def grammar (className : Text) : Grammar Method := do
  let visibility ← Visibility.grammar
  let (type, name) ← signature
  let parameters ← parameterList
  return if name = className then .ofConstructor visibility name parameters
    else ⟨visibility, type.getD "void".toList, name, parameters⟩

end Method

def Attribute.grammar : Grammar Attribute := do
  let visibility ← Visibility.grammar
  let (type, name) ← wordPair
  return ⟨visibility, type, name⟩

inductive Member where
  | ofAttribute (a : Attribute)
  | ofMethod (m : Method)
  deriving DecidableEq, Repr

namespace Member

def ofLine? (className line : Text) : Option Member :=
  match (Method.grammar className).whole line with
  | some m => some (.ofMethod m)
  | none => (Attribute.grammar.whole line).map .ofAttribute

def attribute? : Member → Option Attribute
  | .ofAttribute a => some a
  | .ofMethod _ => none

def method? : Member → Option Method
  | .ofAttribute _ => none
  | .ofMethod m => some m

def depthAfter (depth : Nat) (c : Char) : Nat :=
  if c = '(' then depth + 1 else if c = ')' then depth - 1 else depth

/-- Cuts before each access symbol that follows a blank outside parentheses. The first piece goes
on with what stands before the text. -/
def cutPieces (depth : Nat) (afterBlank : Bool) : Text → List Text
  | [] => [[]]
  | c :: t =>
    let pieces := Text.consFirst c (cutPieces (depthAfter depth c) (isBlank c) t)
    if (Visibility.ofSymbol? c).isSome && depth == 0 && afterBlank then [] :: pieces else pieces

def segments (line : Text) : List Text :=
  ((cutPieces 0 false line).map Text.trim).filter (!·.isEmpty)

end Member

inductive Finding where
  | member (m : Member)
  | skippedLine (line : Text)
  | skippedSegment (segment : Text)
  deriving DecidableEq, Repr

namespace Finding

/-- A line is tried as a whole first. Its segments count only if there are several. -/
def ofLine (className line : Text) : List Finding :=
  match Member.ofLine? className line with
  | some m => [.member m]
  | none =>
    let pieces := Member.segments line
    if pieces.length ≤ 1 then [.skippedLine line]
    else pieces.map fun piece =>
      match Member.ofLine? className piece with
      | some m => .member m
      | none => .skippedSegment piece

/-- What a class body holds, line by line; blank lines hold nothing. -/
def ofBody (className body : Text) : List Finding :=
  (((Text.lines body).map Text.trim).filter (!·.isEmpty)).flatMap (ofLine className)

def member? : Finding → Option Member
  | .member m => some m
  | _ => none

def attributes (findings : List Finding) : List Attribute :=
  findings.filterMap fun f => f.member?.bind Member.attribute?

def methods (findings : List Finding) : List Method :=
  findings.filterMap fun f => f.member?.bind Member.method?

end Finding
end ClassNotation
