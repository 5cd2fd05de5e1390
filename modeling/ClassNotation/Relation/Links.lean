import ClassNotation.Model.Basic
import ClassNotation.Relation.Basic

/-! Links: what the relations of a document add to each class that they name. -/
namespace ClassNotation

/-- One end of a relation, seen from the other. -/
structure Link where
  target : Text
  cardinality : Option Cardinality
  deriving DecidableEq, Repr

/-- A link is held in a public attribute named for its target, in an array if there are many. -/
def Link.toAttribute (l : Link) : Attribute where
  visibility := .pub
  typeName := if l.cardinality = some .many then l.target ++ "[]".toList else l.target
  name := l.target

/-- The links of each name, names in the order in which they were first seen. -/
abbrev Links := List (Text × List Link)

namespace Links

def add (name : Text) (new : List Link) : Links → Links
  | [] => [(name, new)]
  | (n, old) :: rest => if n = name then (n, old ++ new) :: rest else (n, old) :: add name new rest

/-- Both ends get an entry. A plain relation links both ways; any other links its source to its
target, and then the source's cardinality stands in for a missing one of the target. -/
def addRelation (links : Links) (r : Relation) : Links :=
  let links := add r.target [] (add r.source [] links)
  match r.arrow with
  | .plain =>
    add r.target [⟨r.source, r.sourceCardinality⟩] (add r.source [⟨r.target, r.targetCardinality⟩] links)
  | .forward | .backward =>
    add r.source [⟨r.target, r.targetCardinality <|> r.sourceCardinality⟩] links

def ofRelations (rs : List Relation) : Links := rs.foldl addRelation []

def of (links : Links) (name : Text) : List Link := (links.lookup name).getD []

end Links
end ClassNotation
