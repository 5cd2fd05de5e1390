import ClassNotation.Text.Blank

/-! Texts as lists of characters, the character classes of the notation, trimming and lines. -/
namespace ClassNotation

/-- A text is the list of its characters; a `String` appears only where text enters or leaves. -/
abbrev Text := List Char

def isWordChar (c : Char) : Bool := c.isAlphanum || c == '_'

/-- Padding stands around the cardinalities of a relation: blanks and double quotes. -/
def isPadding (c : Char) : Bool := c == '"' || isBlank c

namespace Text

def trimStart (t : Text) : Text := t.dropWhile isBlank

def trimEnd (t : Text) : Text := (t.reverse.dropWhile isBlank).reverse

def trim (t : Text) : Text := trimEnd (trimStart t)

def consFirst (c : Char) : List Text → List Text
  | [] => [[c]]
  | piece :: rest => (c :: piece) :: rest

/-- The lines of a text. A newline ends a line, and one carriage return directly before it goes
too; after a final newline no further line starts. -/
def lines : Text → List Text
  | [] => []
  | '\n' :: t => [] :: lines t
  | '\r' :: '\n' :: t => [] :: lines t
  | c :: t => consFirst c (lines t)

def line (t : Text) : Text := t ++ ['\n']

def decode? (bytes : ByteArray) : Option Text := (String.fromUTF8? bytes).map String.toList

def encode (t : Text) : ByteArray := (String.ofList t).toUTF8

def byteSize (t : Text) : Nat := t.foldl (fun n c => n + c.utf8Size) 0

def joinWith (separator : Text) : List Text → Text
  | [] => []
  | [t] => t
  | t :: u :: ts => t ++ separator ++ joinWith separator (u :: ts)

def ofNat (n : Nat) : Text := Nat.toDigits 10 n

def ofBool (b : Bool) : Text := if b then "true".toList else "false".toList

def contains (part : Text) : Text → Bool
  | [] => part.isEmpty
  | c :: t => part.isPrefixOf (c :: t) || contains part t

end Text
end ClassNotation
