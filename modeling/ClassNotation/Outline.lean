import ClassNotation.Grammar.Scan
import ClassNotation.Header
import ClassNotation.Member
import ClassNotation.Relation.Links

/-! Outlines: what four independent scans find in a document, and the model that it amounts to. -/
namespace ClassNotation

/-- Each list is one scan of the whole document, bodies included. -/
structure Outline where
  classes : List ClassHeader
  enums : List EnumHeader
  abstractMarks : List Text
  relations : List Relation
  deriving DecidableEq, Repr

namespace Outline

def ofText (document : Text) : Outline where
  classes := ClassHeader.grammar.scan document
  enums := EnumHeader.grammar.scan document
  abstractMarks := abstractMark.scan document
  relations := Relation.grammar.scan document

def links (o : Outline) : Links := .ofRelations o.relations

/-- The members of the body, then one attribute for each link of the class's name. -/
def classDecl (o : Outline) (h : ClassHeader) : ClassDecl :=
  let found := Finding.ofBody h.name h.body
  { name := h.name
    isAbstract := o.abstractMarks.contains h.name
    parent := h.parent
    attributes := Finding.attributes found ++ (o.links.of h.name).map Link.toAttribute
    methods := Finding.methods found }

def model (o : Outline) : Model where
  classes := o.classes.map o.classDecl
  enums := o.enums.map fun h => ⟨h.name, h.body⟩

end Outline

namespace Model

/-- Reads a document. Every text is one; what is not understood is passed over. -/
def ofText (document : Text) : Model := (Outline.ofText document).model

/-- Reads a document into a model: first its classes and then its enums are added, one by one. -/
def read (m : Model) (document : Text) : Model :=
  let o := Outline.ofText document
  let withClasses := o.classes.foldl (fun stored h => stored.addClass (o.classDecl h)) m
  o.enums.foldl (fun stored h => stored.addEnum ⟨h.name, h.body⟩) withClasses

end Model
end ClassNotation
