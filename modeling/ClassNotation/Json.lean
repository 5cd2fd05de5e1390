import ClassNotation.Text.Basic

/-! JSON text laid out over several lines, two blanks for each level. -/
namespace ClassNotation.Json

def hexDigit (n : Nat) : Char := if n < 10 then Char.ofNat (48 + n) else Char.ofNat (87 + n)

/-- Only quotes, backslashes and control characters below U+0020 are escaped. -/
def escape (c : Char) : Text :=
  match c with
  | '"' => ['\\', '"']
  | '\\' => ['\\', '\\']
  | '\x08' => ['\\', 'b']
  | '\x0c' => ['\\', 'f']
  | '\n' => ['\\', 'n']
  | '\r' => ['\\', 'r']
  | '\t' => ['\\', 't']
  | c =>
    if c.toNat < 32 then ['\\', 'u', '0', '0', hexDigit (c.toNat / 16), hexDigit (c.toNat % 16)]
    else [c]

def string (t : Text) : Text := '"' :: t.flatMap escape ++ ['"']

def null : Text := "null".toList

def bool (b : Bool) : Text := Text.ofBool b

def margin (depth : Nat) : Text := List.replicate (2 * depth) ' '

def block (opening closing : Char) (depth : Nat) (items : List Text) : Text :=
  if items.isEmpty then [opening, closing]
  else
    opening :: '\n' :: Text.joinWith [',', '\n'] (items.map (margin (depth + 1) ++ ·)) ++
      '\n' :: margin depth ++ [closing]

def array (depth : Nat) (items : List Text) : Text := block '[' ']' depth items

def object (depth : Nat) (fields : List (String × Text)) : Text :=
  block '\x7b' '\x7d' depth (fields.map fun (key, value) => string key.toList ++ [':', ' '] ++ value)

end ClassNotation.Json
