import Guion.Double.Remainder
import Guion.Double.Shortest

namespace Guion.Double

def isDigit (c : Char) : Bool :=
  '0' ≤ c && c ≤ '9'

def digitLimit : Nat := 4300

def digitsValue (cs : List Char) : Nat :=
  cs.foldl (fun n c => 10 * n + (c.toNat - 48)) 0

/-- The double nearest to `digits * 10 ^ scale`. Numbers beyond every double are settled without
writing them out. -/
def ofNumeral (n : Numeral) : Float :=
  let point := decimalLength n.digits + n.scale
  if n.digits = 0 ∨ point < -400 then 0.0
  else if 400 < point then infinity
  else Float.ofScientific n.digits (n.scale < 0) n.scale.natAbs

def signed (negative : Bool) (x : Float) : Float :=
  if negative then -x else x

def ofDigits (whole fraction : List Char) (exponent : Int) : Float :=
  ofNumeral ⟨digitsValue (whole ++ fraction), exponent - fraction.length⟩

def exponent? : List Char → Option Int
  | [] => some 0
  | mark :: cs =>
    if mark = 'e' ∨ mark = 'E' then
      let (negative, digits) := match cs with
        | '-' :: cs => (true, cs)
        | '+' :: cs => (false, cs)
        | cs => (false, cs)
      if digits ≠ [] ∧ digits.all isDigit then
        some (if negative then -(digitsValue digits : Int) else digitsValue digits)
      else none
    else none

def unsigned? (cs : List Char) : Option Float :=
  let whole := cs.takeWhile isDigit
  let rest := cs.dropWhile isDigit
  let (fraction, rest) := match rest with
    | '.' :: rest => (rest.takeWhile isDigit, rest.dropWhile isDigit)
    | rest => ([], rest)
  if whole = [] ∧ fraction = [] then none
  else (exponent? rest).map (ofDigits whole fraction)

def withoutUnderscores : List Char → List Char
  | a :: '_' :: b :: cs =>
    if isDigit a && isDigit b then a :: withoutUnderscores (b :: cs)
    else a :: '_' :: withoutUnderscores (b :: cs)
  | a :: cs => a :: withoutUnderscores cs
  | [] => []

/-- Read a number written freely: with a sign, underscores between digits, or the words for
infinity and for no number. -/
def read? (text : List Char) : Option Float :=
  let (negative, cs) := match text with
    | '-' :: cs => (true, cs)
    | '+' :: cs => (false, cs)
    | cs => (false, cs)
  let word := String.ofList (cs.map Char.toLower)
  if word = "inf" ∨ word = "infinity" then some (signed negative infinity)
  else if word = "nan" then some nan
  else (unsigned? (withoutUnderscores cs)).map (signed negative)

end Guion.Double
