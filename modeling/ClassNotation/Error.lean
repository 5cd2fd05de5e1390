import ClassNotation.Text.Basic

/-! The causes of failure. Reading a document never fails; these arise around it. -/
namespace ClassNotation

inductive Error where
  | configuration (reason : Text)
  | detection (reason : Text)
  | emptyModel
  | io (cause : Text)
  | unknownDiagramType (name : Text)
  | noReader
  | noRenderer
  | unreadableFile (path : Text)
  | unwritableFile (path cause : Text)
  deriving DecidableEq, Repr

namespace Error

def message : Error → Text
  | configuration reason => "Configuration error: ".toList ++ reason
  | detection reason => "Detection error: ".toList ++ reason
  | emptyModel => "No class or enum declarations found".toList
  | io cause => "IO error: ".toList ++ cause
  | unknownDiagramType name => "Unknown diagram type: ".toList ++ name
  | noReader => "No class notation parser available".toList
  | noRenderer => "No Java renderer available".toList
  | unreadableFile path => "Failed to read input file '".toList ++ path ++ "'".toList
  | unwritableFile path cause =>
    "Failed to write output file '".toList ++ path ++ "': ".toList ++ cause

def undetected : Error := .detection "No suitable detector found for input".toList

end Error
end ClassNotation
