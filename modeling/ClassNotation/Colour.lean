import ClassNotation.Text.Basic

/-! Colours for Java text on a terminal: access keywords, declaring keywords and braces. -/
namespace ClassNotation

inductive Colour where
  | cyan
  | magenta
  | yellow
  deriving DecidableEq, Repr

def Colour.code : Colour → Nat
  | cyan => 14
  | magenta => 13
  | yellow => 11

/-- A whole word, or a single character outside words. -/
inductive Token where
  | word (w : Text)
  | mark (c : Char)
  deriving DecidableEq, Repr

namespace Token

def ofText : Text → List Token
  | [] => []
  | c :: t =>
    if isWordChar c then
      match ofText t with
      | word w :: rest => word (c :: w) :: rest
      | rest => word [c] :: rest
    else mark c :: ofText t

def text : Token → Text
  | word w => w
  | mark c => [c]

def colour? : Token → Option Colour
  | word w =>
    if ["public".toList, "private".toList, "protected".toList].contains w then some .cyan
    else if ["class".toList, "enum".toList, "abstract".toList, "extends".toList].contains w then
      some .magenta
    else none
  | mark c => if c = '\x7b' ∨ c = '\x7d' then some .yellow else none

end Token

structure Palette where
  start : Colour → Text
  stop : Text

namespace Palette

def standard : Palette where
  start c := "\x1b[38;5;".toList ++ Text.ofNat c.code ++ ['m']
  stop := "\x1b[39m".toList

def muted : Palette where
  start _ := "\x1b[m".toList
  stop := "\x1b[m".toList

def paint (p : Palette) (t : Token) : Text :=
  match t.colour? with
  | some c => p.start c ++ t.text ++ p.stop
  | none => t.text

end Palette

/-- Paints a text line by line, and each line word by word. A newline comes behind every line; the
last one goes again if the text does not end in one. -/
def colourize (p : Palette) (t : Text) : Text :=
  let painted := (Text.lines t).flatMap fun line => Text.line ((Token.ofText line).flatMap p.paint)
  if t.getLast? != some '\n' && painted.getLast? == some '\n' then painted.dropLast else painted

end ClassNotation
