import ClassNotation.Outline

/-! Edits of a stored model. Between two clears they only append. -/
namespace ClassNotation

inductive Edit where
  | addClass (c : ClassDecl)
  | addEnum (e : EnumDecl)
  | read (document : Text)
  | clear
  deriving DecidableEq, Repr

namespace Model

def edit (m : Model) : Edit → Model
  | .addClass c => m.addClass c
  | .addEnum e => m.addEnum e
  | .read document => m.read document
  | .clear => {}

def ofEdits (edits : List Edit) : Model := edits.foldl edit {}

end Model
end ClassNotation
