import ClassNotation.Java
import ClassNotation.Log.Basic

/-! What reading and rendering report: each thing found, and each piece of a body that was skipped. -/
namespace ClassNotation

def ClassHeader.report (h : ClassHeader) : Log :=
  Log.event .trace "Matched class header" [("name", h.name),
    ("parent", match h.parent with
      | some parent => "Some(\"".toList ++ parent ++ "\")".toList
      | none => "None".toList)]

def EnumHeader.report (h : EnumHeader) : Log :=
  Log.event .trace "Matched enum header" [("name", h.name)]

def Arrow.label : Arrow → Text
  | .forward => "Directed".toList
  | .plain => "Plain".toList
  | .backward => "ReverseDirected".toList

def Relation.report (r : Relation) : Log :=
  Log.event .trace "Matched relationship"
    [("from", r.source), ("to", r.target), ("kind", r.arrow.label)]

def Finding.report (className : Text) : Finding → Log
  | .member _ => []
  | .skippedLine line => Log.event .trace "Skipping line" [("class", className), ("line", line)]
  | .skippedSegment segment =>
    Log.event .trace "Skipping segment" [("class", className), ("segment", segment)]

def ClassDecl.report (c : ClassDecl) : Log :=
  Log.event .debug "Assembled class" [("class", c.name),
    ("attributes", Text.ofNat c.attributes.length), ("methods", Text.ofNat c.methods.length),
    ("is_abstract", Text.ofBool c.isAbstract)]

namespace Outline

/-- One class: what its body holds that is no member, then the class itself. -/
def classReport (o : Outline) (h : ClassHeader) : Log :=
  (Finding.ofBody h.name h.body).flatMap (Finding.report h.name) ++ (o.classDecl h).report

def report (stored : Model) (o : Outline) : Log :=
  Log.event .trace "Starting model assembly" ++
  o.relations.flatMap Relation.report ++
  Log.event .debug "Resolved relationships" [("relation_count", Text.ofNat o.relations.length),
    ("class_count", Text.ofNat o.links.length)] ++
  Log.within ⟨.debug, "assemble_classes", []⟩
    (o.classes.flatMap ClassHeader.report ++ o.classes.flatMap o.classReport)
    (o.enums.flatMap EnumHeader.report ++
      Log.event .info "Parsing completed"
        [("classes", Text.ofNat (stored.classes.length + o.classes.length)),
          ("enums", Text.ofNat (stored.enums.length + o.enums.length))])

end Outline

def lengthField (document : Text) : List (String × Text) :=
  [("input_len", Text.ofNat (Text.byteSize document))]

def Model.readLog (stored : Model) (document : Text) : Log :=
  Log.within ⟨.info, "parse_uml", lengthField document⟩ ((Outline.ofText document).report stored)

def Model.javaLog (layout : Layout) (m : Model) : Log :=
  Log.within ⟨.info, "render_java", [("indent", Text.ofNat layout.indent)]⟩
    (Log.event .debug "Rendering completed" [("declarations", Text.ofNat (m.java layout).length)])

end ClassNotation
