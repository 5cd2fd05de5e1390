import ClassNotation.Text.Basic

/-! The files around a run, and what reading and writing does to them. Every directory can be
written to; links and access rights are not modelled. -/
namespace ClassNotation

inductive WriteFailure where
  | missingDirectory
  | notDirectory
  | isDirectory
  | nameTooLong
  | other (message : Text)
  deriving DecidableEq, Repr

def WriteFailure.message : WriteFailure → Text
  | missingDirectory => "No such file or directory (os error 2)".toList
  | notDirectory => "Not a directory (os error 20)".toList
  | isDirectory => "Is a directory (os error 21)".toList
  | nameTooLong => "File name too long (os error 36)".toList
  | other message => message

abbrev Place := List Text

/-- Files with their bytes, and the working directory. It exists and so do the directories above
it; any other directory exists as long as something lies below it. -/
structure Disk where
  home : Place := []
  files : List (Place × ByteArray) := []

namespace Disk

def pieces : Text → List Text
  | [] => [[]]
  | '/' :: t => [] :: pieces t
  | c :: t => Text.consFirst c (pieces t)

def names (path : Text) : List Text := (pieces path).filter (!·.isEmpty)

def file? (d : Disk) (place : Place) : Option ByteArray := d.files.lookup place

def isDirectory (d : Disk) (place : Place) : Bool :=
  place.isPrefixOf d.home || d.files.any fun (p, _) => place.isPrefixOf p && p != place

/-- A disk with the given files in its working directory. Elsewhere it holds only the null device,
as a file that is empty. -/
def ofWorkingFiles (files : List (Place × ByteArray)) : Disk :=
  let home := ["tmp".toList, "work".toList]
  { home
    files := (["dev".toList, "null".toList], ByteArray.empty) :: files.map fun (p, bytes) => (home ++ p, bytes) }

def workingFiles (d : Disk) : List (Place × ByteArray) :=
  d.files.filterMap fun (p, bytes) =>
    if d.home.isPrefixOf p then some (p.drop d.home.length, bytes) else none

def isHere (name : Text) : Bool := name == ['.']

def isUp (name : Text) : Bool := name == ['.', '.']

def maxNameSize : Nat := 255

def maxPathSize : Nat := 4095

def follow (d : Disk) (here : Place) : List Text → Except WriteFailure Place
  | [] => .ok here
  | name :: rest =>
    if isHere name then follow d here rest
    else if isUp name then follow d here.dropLast rest
    else if maxNameSize < Text.byteSize name then .error .nameTooLong
    else if isDirectory d (here ++ [name]) then follow d (here ++ [name]) rest
    else if (file? d (here ++ [name])).isSome then .error .notDirectory
    else .error .missingDirectory

/-- Where a path starts: at the root if it begins with a slash, and else in the working directory. -/
def start (d : Disk) (path : Text) : Place := if path.head? == some '/' then [] else d.home

/-- The place of a file that a path names, whether it exists or not. A path that ends in a slash
names a directory, and so does one without names. -/
def locate (d : Disk) (path : Text) : Except WriteFailure Place :=
  let name := (names path).getLast?.getD ['.']
  if maxPathSize < Text.byteSize path then .error .nameTooLong
  else (follow d (start d path) (names path).dropLast).bind fun here =>
    if path.getLast? == some '/' || isHere name || isUp name then .error .isDirectory
    else if maxNameSize < Text.byteSize name then .error .nameTooLong
    else if isDirectory d (here ++ [name]) then .error .isDirectory
    else .ok (here ++ [name])

def read? (d : Disk) (path : Text) : Option ByteArray :=
  match d.locate path with
  | .ok place => d.file? place
  | .error _ => none

def put (place : Place) (bytes : ByteArray) : List (Place × ByteArray) → List (Place × ByteArray)
  | [] => [(place, bytes)]
  | (p, old) :: rest => if p = place then (p, bytes) :: rest else (p, old) :: put place bytes rest

def write (d : Disk) (path : Text) (bytes : ByteArray) : Except WriteFailure Disk :=
  (d.locate path).map fun place => { d with files := put place bytes d.files }

end Disk
end ClassNotation
