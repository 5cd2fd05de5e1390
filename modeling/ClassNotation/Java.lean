import ClassNotation.Error
import ClassNotation.Outline

/-! Java stubs of a model: one declaration text for each class and enum. -/
namespace ClassNotation

structure Layout where
  indent : Nat := 4
  deriving DecidableEq, Repr

namespace Layout

def maxIndent : Nat := 16

/-- Only the command line asks for this; rendering takes any indent. -/
def check (l : Layout) : Except Error Unit :=
  if l.indent ≤ maxIndent then .ok ()
  else .error (.configuration
    ("indent must be at most ".toList ++ Text.ofNat maxIndent ++ ", got ".toList ++ Text.ofNat l.indent))

def description (l : Layout) : Text := "indent=".toList ++ Text.ofNat l.indent

def margin (l : Layout) : Text := List.replicate l.indent ' '

end Layout

/-- An access that was left open becomes `private`. -/
def Visibility.keyword : Visibility → Text
  | .pub => "public".toList
  | .priv | .unspecified => "private".toList
  | .prot => "protected".toList

def Attribute.java (a : Attribute) : Text :=
  a.visibility.keyword ++ ' ' :: a.typeName ++ ' ' :: a.name ++ [';']

def Method.java (m : Method) : Text :=
  m.visibility.keyword ++ ' ' :: (if m.isConstructor then [] else m.returnType ++ [' ']) ++
    m.name ++ '(' :: m.parameters ++ ") \x7b\x7d".toList

def ClassDecl.javaHeader (c : ClassDecl) : Text :=
  "public ".toList ++ (if c.isAbstract then "abstract ".toList else []) ++ "class ".toList ++ c.name ++
    (match c.parent with
      | some parent => " extends ".toList ++ parent
      | none => []) ++
    " \x7b".toList

/-- Attributes come before methods, with an empty line between them where both are present. -/
def ClassDecl.java (layout : Layout) (c : ClassDecl) : Text :=
  Text.joinWith ['\n'] <|
    [c.javaHeader] ++ c.attributes.map (layout.margin ++ ·.java) ++
    (if c.attributes.isEmpty || c.methods.isEmpty then [] else [[]]) ++
    c.methods.map (layout.margin ++ ·.java) ++ [['\x7d']]

/-- The values stand as they were written, without the blanks around them. -/
def EnumDecl.java (layout : Layout) (e : EnumDecl) : Text :=
  let values := Text.trim e.values
  "public enum ".toList ++ e.name ++ " \x7b\n".toList ++
    (if values.isEmpty then [] else layout.margin ++ values ++ ['\n']) ++ ['\x7d']

def Declaration.java (layout : Layout) : Declaration → Text
  | .ofClass c => c.java layout
  | .ofEnum e => e.java layout

def Model.java (layout : Layout) (m : Model) : List Text := m.declarations.map (·.java layout)

def generate (layout : Layout) (document : Text) : List Text := (Model.ofText document).java layout

end ClassNotation
