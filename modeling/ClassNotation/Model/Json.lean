import ClassNotation.Json
import ClassNotation.Model.Basic

/-! The JSON text of a model. Each part is given the depth at which it stands. -/
namespace ClassNotation

def Attribute.json (depth : Nat) (a : Attribute) : Text :=
  Json.object depth [("visibility", Json.string a.visibility.name),
    ("type_name", Json.string a.typeName), ("name", Json.string a.name)]

def Method.json (depth : Nat) (m : Method) : Text :=
  Json.object depth [("visibility", Json.string m.visibility.name),
    ("return_type", Json.string m.returnType), ("name", Json.string m.name),
    ("parameters", Json.string m.parameters)]

def ClassDecl.json (depth : Nat) (c : ClassDecl) : Text :=
  Json.object depth [("name", Json.string c.name), ("is_abstract", Json.bool c.isAbstract),
    ("parent", c.parent.elim Json.null Json.string),
    ("attributes", Json.array (depth + 1) (c.attributes.map (·.json (depth + 2)))),
    ("methods", Json.array (depth + 1) (c.methods.map (·.json (depth + 2))))]

def EnumDecl.json (depth : Nat) (e : EnumDecl) : Text :=
  Json.object depth [("name", Json.string e.name), ("raw_values", Json.string e.values)]

def Model.json (m : Model) : Text :=
  Json.object 0 [("classes", Json.array 1 (m.classes.map (·.json 2))),
    ("enums", Json.array 1 (m.enums.map (·.json 2)))]

end ClassNotation
