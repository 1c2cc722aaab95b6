import Guion.Double.Text
import Guion.Json

namespace Guion.Json

def hexDigit (n : Nat) : Char :=
  Nat.digitChar n

def escaped (c : Char) : List Char :=
  if c = '"' then ['\\', '"']
  else if c = '\\' then ['\\', '\\']
  else if c = '\n' then ['\\', 'n']
  else if c = '\r' then ['\\', 'r']
  else if c = '\t' then ['\\', 't']
  else if c = '\x08' then ['\\', 'b']
  else if c = '\x0c' then ['\\', 'f']
  else if c.toNat < 32 then
    ['\\', 'u', '0', '0', hexDigit (c.toNat / 16), hexDigit (c.toNat % 16)]
  else [c]

def quoted (s : String) : List Char :=
  '"' :: (s.toList.flatMap escaped ++ ['"'])

def floatText (x : Float) : String :=
  match Double.shape x with
  | .nan => "NaN"
  | .infinite negative => Double.signText negative ++ "Infinity"
  | .finite _ _ _ => Double.shown x

def indentation (depth : Nat) : List Char :=
  '\n' :: List.replicate (2 * depth) ' '

mutual

/-- The text of a value with one item or field to a line, indented by two spaces a level. -/
def chars (depth : Nat) : Json → List Char
  | .null => "null".toList
  | .bool b => (if b then "true" else "false").toList
  | .int n => (toString n).toList
  | .float x => (floatText x).toList
  | .text s => quoted s
  | .list [] => ['[', ']']
  | .list (v :: vs) =>
    '[' :: (indentation (depth + 1) ++ chars (depth + 1) v ++ itemChars (depth + 1) vs ++
      indentation depth ++ [']'])
  | .object [] => ['\x7b', '\x7d']
  | .object ((name, v) :: fields) =>
    '\x7b' :: (indentation (depth + 1) ++ quoted name ++ [':', ' '] ++ chars (depth + 1) v ++
      fieldChars (depth + 1) fields ++ indentation depth ++ ['\x7d'])

def itemChars (depth : Nat) : List Json → List Char
  | [] => []
  | v :: vs => ',' :: (indentation depth ++ chars depth v ++ itemChars depth vs)

def fieldChars (depth : Nat) : List (String × Json) → List Char
  | [] => []
  | (name, v) :: fields =>
    ',' :: (indentation depth ++ quoted name ++ [':', ' '] ++ chars depth v ++
      fieldChars depth fields)

end

def render (value : Json) : String :=
  String.ofList (chars 0 value)

end Guion.Json
