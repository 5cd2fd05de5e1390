import ClassNotation.Text.Basic

/-! Models: classes with their members, and enums, in the order in which they were declared. -/
namespace ClassNotation

/-- The access of a member. Reading a document never leaves it unspecified; a model that is built
by hand may. -/
inductive Visibility where
  | pub
  | priv
  | prot
  | unspecified
  deriving DecidableEq, Repr

namespace Visibility

def ofSymbol? : Char → Option Visibility
  | '+' => some .pub
  | '-' => some .priv
  | '#' => some .prot
  | _ => none

/-- A member without a symbol, or with an unknown one, is public. -/
def ofSymbol (symbol : Option Char) : Visibility := (symbol.bind ofSymbol?).getD .pub

def symbol? : Visibility → Option Char
  | .pub => some '+'
  | .priv => some '-'
  | .prot => some '#'
  | .unspecified => none

def name : Visibility → Text
  | .pub => "public".toList
  | .priv => "private".toList
  | .prot => "protected".toList
  | .unspecified => "unspecified".toList

end Visibility

structure Attribute where
  visibility : Visibility
  typeName : Text
  name : Text
  deriving DecidableEq, Repr

/-- A method with its parameter list as written. A constructor has the empty return type. -/
structure Method where
  visibility : Visibility
  returnType : Text
  name : Text
  parameters : Text
  deriving DecidableEq, Repr

namespace Method

def ofConstructor (visibility : Visibility) (name parameters : Text) : Method :=
  ⟨visibility, [], name, parameters⟩

def isConstructor (m : Method) : Bool := m.returnType.isEmpty

end Method

structure ClassDecl where
  name : Text
  isAbstract : Bool := false
  parent : Option Text := none
  attributes : List Attribute := []
  methods : List Method := []
  deriving DecidableEq, Repr

structure EnumDecl where
  name : Text
  values : Text
  deriving DecidableEq, Repr

inductive Declaration where
  | ofClass (c : ClassDecl)
  | ofEnum (e : EnumDecl)
  deriving DecidableEq, Repr

def Declaration.name : Declaration → Text
  | .ofClass c => c.name
  | .ofEnum e => e.name

/-- Names may repeat; nothing is merged. -/
structure Model where
  classes : List ClassDecl := []
  enums : List EnumDecl := []
  deriving DecidableEq, Repr

namespace Model

def addClass (m : Model) (c : ClassDecl) : Model := { m with classes := m.classes ++ [c] }

def addEnum (m : Model) (e : EnumDecl) : Model := { m with enums := m.enums ++ [e] }

def append (m n : Model) : Model := ⟨m.classes ++ n.classes, m.enums ++ n.enums⟩

instance : Append Model := ⟨append⟩

def class? (m : Model) (name : Text) : Option ClassDecl := m.classes.find? (·.name == name)

def enum? (m : Model) (name : Text) : Option EnumDecl := m.enums.find? (·.name == name)

def declarations (m : Model) : List Declaration := m.classes.map .ofClass ++ m.enums.map .ofEnum

def declarationCount (m : Model) : Nat := m.classes.length + m.enums.length

def isEmpty (m : Model) : Bool := m.classes.isEmpty && m.enums.isEmpty

end Model
end ClassNotation
