import Guion.Double.Read
import Guion.Json

namespace Guion.Json

def isBlank (c : Char) : Bool :=
  c == ' ' || c == '\t' || c == '\n' || c == '\r'

def blanks (cs : List Char) : List Char :=
  cs.dropWhile isBlank

def hexValue? (c : Char) : Option Nat :=
  if '0' ≤ c ∧ c ≤ '9' then some (c.toNat - 48)
  else if 'a' ≤ c ∧ c ≤ 'f' then some (c.toNat - 87)
  else if 'A' ≤ c ∧ c ≤ 'F' then some (c.toNat - 55)
  else none

def unit? (a b c d : Char) : Option Nat := do
  let a ← hexValue? a
  let b ← hexValue? b
  let c ← hexValue? c
  let d ← hexValue? d
  some (((a * 16 + b) * 16 + c) * 16 + d)

/-- The character of one 16-bit unit. Half of a pair alone is no character, and a text has no room
for it as a unit: it is read as the replacement character, which is a limit of this reader. -/
def unitChar (n : Nat) : Char :=
  if 0xD800 ≤ n ∧ n ≤ 0xDFFF then '\uFFFD' else Char.ofNat n

def pair? (high low : Nat) : Option Char :=
  if 0xD800 ≤ high ∧ high ≤ 0xDBFF ∧ 0xDC00 ≤ low ∧ low ≤ 0xDFFF then
    some (Char.ofNat (0x10000 + (high - 0xD800) * 1024 + (low - 0xDC00)))
  else none

def escape? : Char → Option Char
  | '"' => some '"'
  | '\\' => some '\\'
  | '/' => some '/'
  | 'b' => some '\x08'
  | 'f' => some '\x0c'
  | 'n' => some '\n'
  | 'r' => some '\r'
  | 't' => some '\t'
  | _ => none

def quotedText (acc : List Char) : List Char → Option (String × List Char)
  | [] => none
  | '"' :: cs => some (String.ofList acc.reverse, cs)
  | '\\' :: 'u' :: a :: b :: c :: d :: '\\' :: 'u' :: e :: f :: g :: h :: cs =>
    match unit? a b c d, unit? e f g h with
    | some high, some low =>
      match pair? high low with
      | some x => quotedText (x :: acc) cs
      | none => quotedText (unitChar high :: acc) ('\\' :: 'u' :: e :: f :: g :: h :: cs)
    | _, _ => none
  | '\\' :: 'u' :: a :: b :: c :: d :: cs =>
    match unit? a b c d with
    | some n => quotedText (unitChar n :: acc) cs
    | none => none
  | '\\' :: c :: cs =>
    match escape? c with
    | some x => quotedText (x :: acc) cs
    | none => none
  | c :: cs => if c.toNat < 32 then none else quotedText (c :: acc) cs

def wholeDigits? : List Char → Option (List Char × List Char)
  | '0' :: cs => some (['0'], cs)
  | cs =>
    match cs.takeWhile Double.isDigit with
    | [] => none
    | digits => some (digits, cs.dropWhile Double.isDigit)

def fractionDigits : List Char → List Char × List Char
  | '.' :: cs =>
    match cs.takeWhile Double.isDigit with
    | [] => ([], '.' :: cs)
    | digits => (digits, cs.dropWhile Double.isDigit)
  | cs => ([], cs)

def exponentPart (cs : List Char) : Option Int × List Char :=
  match cs with
  | mark :: rest =>
    if mark = 'e' ∨ mark = 'E' then
      let (negative, rest) := match rest with
        | '-' :: rest => (true, rest)
        | '+' :: rest => (false, rest)
        | rest => (false, rest)
      match rest.takeWhile Double.isDigit with
      | [] => (none, cs)
      | digits =>
        let n : Int := Double.digitsValue digits
        (some (if negative then -n else n), rest.dropWhile Double.isDigit)
    else (none, cs)
  | [] => (none, cs)

def number? (negative : Bool) (cs : List Char) : Option (Json × List Char) := do
  let (whole, cs) ← wholeDigits? cs
  let (fraction, cs) := fractionDigits cs
  let (exponent, cs) := exponentPart cs
  if fraction = [] ∧ exponent = none then
    if Double.digitLimit < whole.length then none
    else
      let n : Int := Double.digitsValue whole
      some (.int (if negative then -n else n), cs)
  else
    some (.float (Double.signed negative (Double.ofDigits whole fraction (exponent.getD 0))), cs)

mutual

def value : Nat → List Char → Option (Json × List Char)
  | 0, _ => none
  | fuel + 1, cs =>
    match cs with
    | '"' :: cs => do
      let (s, cs) ← quotedText [] cs
      some (.text s, cs)
    | '[' :: cs =>
      match blanks cs with
      | ']' :: cs => some (.list [], cs)
      | cs => do
        let (vs, cs) ← items fuel cs
        some (.list vs, cs)
    | '\x7b' :: cs =>
      match blanks cs with
      | '\x7d' :: cs => some (.object [], cs)
      | cs => do
        let (fields, cs) ← fields fuel [] cs
        some (.object fields, cs)
    | 'n' :: 'u' :: 'l' :: 'l' :: cs => some (.null, cs)
    | 't' :: 'r' :: 'u' :: 'e' :: cs => some (.bool true, cs)
    | 'f' :: 'a' :: 'l' :: 's' :: 'e' :: cs => some (.bool false, cs)
    | 'N' :: 'a' :: 'N' :: cs => some (.float Double.nan, cs)
    | 'I' :: 'n' :: 'f' :: 'i' :: 'n' :: 'i' :: 't' :: 'y' :: cs =>
      some (.float Double.infinity, cs)
    | '-' :: 'I' :: 'n' :: 'f' :: 'i' :: 'n' :: 'i' :: 't' :: 'y' :: cs =>
      some (.float (-Double.infinity), cs)
    | '-' :: cs => number? true cs
    | cs => number? false cs

def items : Nat → List Char → Option (List Json × List Char)
  | 0, _ => none
  | fuel + 1, cs => do
    let (v, cs) ← value fuel cs
    match blanks cs with
    | ',' :: cs => do
      let (vs, cs) ← items fuel (blanks cs)
      some (v :: vs, cs)
    | ']' :: cs => some ([v], cs)
    | _ => none

def fields : Nat → List (String × Json) → List Char → Option (List (String × Json) × List Char)
  | 0, _, _ => none
  | fuel + 1, acc, '"' :: cs => do
    let (name, cs) ← quotedText [] cs
    match blanks cs with
    | ':' :: cs => do
      let (v, cs) ← value fuel (blanks cs)
      let acc := insertField name v acc
      match blanks cs with
      | ',' :: cs => fields fuel acc (blanks cs)
      | '\x7d' :: cs => some (acc, cs)
      | _ => none
    | _ => none
  | _, _, _ => none

end

/-- Read a text that holds one value and blanks around it. -/
def parse? (text : String) : Option Json :=
  let cs := text.toList
  match value (2 * cs.length + 2) (blanks cs) with
  | some (v, rest) => if blanks rest = [] then some v else none
  | none => none

end Guion.Json
