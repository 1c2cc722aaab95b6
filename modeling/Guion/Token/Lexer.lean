import Guion.Double.Read
import Guion.Token

namespace Guion

open Double (isDigit)

def isAccented (c : Char) : Bool :=
  c ∈ ['á', 'é', 'í', 'ó', 'ú', 'ü', 'ñ', 'Á', 'É', 'Í', 'Ó', 'Ú', 'Ü', 'Ñ']

def isNameStart (c : Char) : Bool :=
  ('A' ≤ c && c ≤ 'Z') || ('a' ≤ c && c ≤ 'z') || c == '_' || isAccented c

def isNamePart (c : Char) : Bool :=
  isNameStart c || isDigit c

def isSpace (c : Char) : Bool :=
  c == ' ' || c == '\t' || c == '\x0c' || c == '\r' || c == '\n'

def commentEnd? : List Char → Option Nat
  | '*' :: '/' :: _ => some 2
  | _ :: cs => (commentEnd? cs).map (· + 1)
  | [] => none

/-- The length of the white space or comment that a text begins with. A comment that does not end
is none. -/
def layout? : List Char → Option Nat
  | '/' :: '*' :: cs => (commentEnd? cs).map (· + 2)
  | '/' :: '/' :: cs => some (2 + (cs.takeWhile (· != '\n')).length)
  | c :: cs => if isSpace c then some (1 + (cs.takeWhile isSpace).length) else none
  | [] => none

def nameLength : List Char → Nat
  | c :: cs => if isNameStart c then 1 + (cs.takeWhile isNamePart).length else 0
  | [] => 0

def integerLength (cs : List Char) : Nat :=
  (cs.takeWhile isDigit).length

def decimalLength? (cs : List Char) : Option Nat :=
  let whole := integerLength cs
  match cs.drop whole with
  | '.' :: rest =>
    let fraction := integerLength rest
    if whole = 0 ∨ fraction = 0 then none else some (whole + 1 + fraction)
  | _ => none

def textLength? : List Char → Option Nat
  | '"' :: cs =>
    let inner := (cs.takeWhile fun c => c != '"' && c != '\n').length
    match cs.drop inner with
    | '"' :: _ => some (inner + 2)
    | _ => none
  | _ => none

/-- A name is a keyword where that keyword is accepted and its whole text is the name. -/
def wordTerminal (accepts : Terminal → Bool) (word : List Char) : Terminal :=
  match Keyword.all.find? fun k => accepts (.keyword k) && k.chars == word with
  | some k => .keyword k
  | none => .name

/-- The first accepted keyword that a text begins with, whatever follows it. -/
def keywordAt? (accepts : Terminal → Bool) (cs : List Char) : Option Keyword :=
  Keyword.all.find? fun k => accepts (.keyword k) && k.chars.isPrefixOf cs

def symbolAt? (accepts : Terminal → Bool) (cs : List Char) : Option Symbol :=
  Symbol.all.find? fun s => accepts (.symbol s) && s.chars.isPrefixOf cs

/-- The class and length of the token that a text begins with, among the accepted classes. -/
def lexeme? (accepts : Terminal → Bool) (cs : List Char) : Option (Terminal × Nat) :=
  match if accepts .decimal then decimalLength? cs else none with
  | some n => some (.decimal, n)
  | none =>
    if accepts .name ∧ nameLength cs ≠ 0 then
      some (wordTerminal accepts (cs.take (nameLength cs)), nameLength cs)
    else
      match if accepts .text then textLength? cs else none with
      | some n => some (.text, n)
      | none =>
        if accepts .integer ∧ integerLength cs ≠ 0 then some (.integer, integerLength cs)
        else
          match keywordAt? accepts cs, symbolAt? accepts cs with
          | some k, _ => some (.keyword k, k.chars.length)
          | none, some s => some (.symbol s, s.chars.length)
          | none, none => none

end Guion
