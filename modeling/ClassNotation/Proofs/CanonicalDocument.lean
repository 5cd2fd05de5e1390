import ClassNotation.Proofs.GrammarReadings
import ClassNotation.Proofs.RelationLinks

/-! Canonical documents: declarations in any order and relation lines behind them, each written in
one fixed way, with the model that they stand for. Every part carries the conditions on its text, so
there is no canonical document that is not well formed. Keywords may be names, and names may repeat. -/
namespace ClassNotation.Canonical

@[ext]
structure Word where
  text : Text
  isWord : IsWord text
  deriving DecidableEq

/-- Free text that holds neither two hyphens in a row nor the keyword of an abstract mark. -/
structure Inert (t : Text) : Prop where
  noHyphens : ¬ "--".toList <:+: t
  noAbstract : ¬ "abstract".toList <:+: t

structure Parameters where
  text : Text
  plain : ∀ c ∈ text, c ≠ ')' ∧ c ≠ '\x7b' ∧ c ≠ '\x7d' ∧ c ≠ '\n'
  inert : Inert text

structure Values where
  text : Text
  plain : ∀ c ∈ text, c ≠ '\x7b' ∧ c ≠ '\x7d'
  inert : Inert text

inductive Access where
  | pub
  | priv
  | prot
  deriving DecidableEq, Repr

namespace Access

def symbol : Access → Char
  | .pub => '+'
  | .priv => '-'
  | .prot => '#'

def visibility : Access → Visibility
  | .pub => .pub
  | .priv => .priv
  | .prot => .prot

end Access

/-- A member of the class that is named by `owner`. A method does not bear that name; a
constructor does, and has no type. -/
inductive MemberLine (owner : Word) where
  | ofAttribute (access : Access) (type name : Word)
  | ofMethod (access : Access) (type name : Word) (parameters : Parameters) (differs : name ≠ owner)
  | ofConstructor (access : Access) (parameters : Parameters)

namespace MemberLine
variable {owner : Word}

def core : MemberLine owner → Text
  | .ofAttribute access type name => access.symbol :: (type.text ++ ' ' :: name.text)
  | .ofMethod access type name parameters _ =>
    access.symbol :: (type.text ++ ' ' :: (name.text ++ '(' :: (parameters.text ++ [')'])))
  | .ofConstructor access parameters => access.symbol :: (owner.text ++ '(' :: (parameters.text ++ [')']))

def written (m : MemberLine owner) : Text := "  ".toList ++ m.core ++ "\n".toList

def member : MemberLine owner → Member
  | .ofAttribute access type name => .ofAttribute ⟨access.visibility, type.text, name.text⟩
  | .ofMethod access type name parameters _ =>
    .ofMethod ⟨access.visibility, type.text, name.text, parameters.text⟩
  | .ofConstructor access parameters => .ofMethod ⟨access.visibility, [], owner.text, parameters.text⟩

def attribute? : MemberLine owner → Option Attribute
  | .ofAttribute access type name => some ⟨access.visibility, type.text, name.text⟩
  | .ofMethod .. | .ofConstructor .. => none

def method? : MemberLine owner → Option Method
  | .ofAttribute .. => none
  | .ofMethod access type name parameters _ => some ⟨access.visibility, type.text, name.text, parameters.text⟩
  | .ofConstructor access parameters => some ⟨access.visibility, [], owner.text, parameters.text⟩

end MemberLine

structure ClassItem where
  name : Word
  isAbstract : Bool
  parent : Option Word
  members : List (MemberLine name)

namespace ClassItem

def clause (c : ClassItem) : Text :=
  match c.parent with
  | some parent => " extends ".toList ++ parent.text
  | none => []

def body (c : ClassItem) : Text := "\n".toList ++ c.members.flatMap MemberLine.written

def written (c : ClassItem) : Text :=
  (if c.isAbstract then "abstract ".toList else []) ++ "class ".toList ++ c.name.text ++ c.clause ++
    " \x7b".toList ++ c.body ++ "\x7d\n".toList

end ClassItem

structure EnumItem where
  name : Word
  values : Values

def EnumItem.written (e : EnumItem) : Text :=
  "enum ".toList ++ e.name.text ++ " \x7b".toList ++ e.values.text ++ "\x7d\n".toList

inductive Item where
  | ofClass (c : ClassItem)
  | ofEnum (e : EnumItem)

namespace Item

def written : Item → Text
  | .ofClass c => c.written
  | .ofEnum e => e.written

def class? : Item → Option ClassItem
  | .ofClass c => some c
  | .ofEnum _ => none

def enum? : Item → Option EnumItem
  | .ofClass _ => none
  | .ofEnum e => some e

end Item

/-- A relation as a line. A right name that follows the arrow without a cardinality must not begin
with the digit that is one. -/
structure RelationLine where
  left : Word
  leftCardinality : Option Cardinality
  arrow : Arrow
  rightCardinality : Option Cardinality
  right : Word
  unglued : rightCardinality = none → right.text.head? ≠ some '1'

def arrowText : Arrow → Text
  | .forward => "-->".toList
  | .plain => "--".toList
  | .backward => "<--".toList

def quoted : Cardinality → Text
  | .one => "\"1\"".toList
  | .many => "\"*\"".toList

def beforeArrow : Option Cardinality → Text
  | some c => quoted c ++ " ".toList
  | none => []

def behindArrow : Option Cardinality → Text
  | some c => " ".toList ++ quoted c
  | none => []

namespace RelationLine

def middle (r : RelationLine) : Text :=
  beforeArrow r.leftCardinality ++ arrowText r.arrow ++ behindArrow r.rightCardinality

def written (r : RelationLine) : Text :=
  r.left.text ++ " ".toList ++ r.middle ++ " ".toList ++ r.right.text ++ "\n".toList

/-- A backward arrow leads from the right name to the left one. -/
def relation (r : RelationLine) : Relation :=
  match r.arrow with
  | .forward => ⟨r.left.text, r.right.text, .forward, r.leftCardinality, r.rightCardinality⟩
  | .plain => ⟨r.left.text, r.right.text, .plain, r.leftCardinality, r.rightCardinality⟩
  | .backward => ⟨r.right.text, r.left.text, .backward, r.rightCardinality, r.leftCardinality⟩

end RelationLine

structure Document where
  items : List Item
  relations : List RelationLine

namespace Document

def written (d : Document) : Text :=
  d.items.flatMap Item.written ++ d.relations.flatMap RelationLine.written

def classes (d : Document) : List ClassItem := d.items.filterMap Item.class?

def enums (d : Document) : List EnumItem := d.items.filterMap Item.enum?

/-- A class is abstract if any class of its name is written so. Its attributes are those of its
body and then a public one for each link that the relations give to its name, an array if there are many. -/
def classDecl (d : Document) (c : ClassItem) : ClassDecl where
  name := c.name.text
  isAbstract := d.classes.any fun other => other.isAbstract && other.name == c.name
  parent := c.parent.map Word.text
  attributes := c.members.filterMap MemberLine.attribute? ++
    (d.relations.flatMap fun r => r.relation.linksOf c.name.text).map fun l =>
      ⟨.pub, if l.cardinality = some .many then l.target ++ "[]".toList else l.target, l.target⟩
  methods := c.members.filterMap MemberLine.method?

def model (d : Document) : Model where
  classes := d.classes.map d.classDecl
  enums := d.enums.map fun e => ⟨e.name.text, e.values.text⟩

end Document
end ClassNotation.Canonical
