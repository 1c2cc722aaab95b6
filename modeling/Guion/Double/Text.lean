import Guion.Double.Shortest

namespace Guion.Double

def zeros (n : Nat) : String :=
  String.ofList (List.replicate n '0')

def signText (negative : Bool) : String :=
  if negative then "-" else ""

def Numeral.point (n : Numeral) : Int :=
  decimalLength n.digits + n.scale

def Numeral.positional (n : Numeral) : String :=
  let digits := (Nat.toDigits 10 n.digits)
  let point := n.point
  if point ≤ 0 then "0." ++ zeros (-point).toNat ++ String.ofList digits
  else if digits.length ≤ point then
    String.ofList digits ++ zeros (point - digits.length).toNat ++ ".0"
  else
    String.ofList (digits.take point.toNat) ++ "." ++ String.ofList (digits.drop point.toNat)

def Numeral.split (n : Numeral) : String × String :=
  let digits := Nat.toDigits 10 n.digits
  (String.ofList (digits.take 1), String.ofList (digits.drop 1))

def Numeral.scientific (n : Numeral) : String :=
  let (first, rest) := n.split
  first ++ "." ++ (if rest = "" then "0" else rest) ++ "E" ++ toString (n.point - 1)

def isPlain (mantissa : Nat) (exponent : Int) : Bool :=
  let up := Nat.pow 2 exponent.toNat
  let down := Nat.pow 2 (-exponent).toNat
  down ≤ mantissa * up * 1000 && mantissa * up < 10000000 * down

/-- The text of a double in the language: plain from a thousandth up to ten million, and with an
exponent elsewhere. -/
def text (x : Float) : String :=
  match shape x with
  | .nan => "NaN"
  | .infinite negative => signText negative ++ "Infinity"
  | .finite negative mantissa exponent =>
    signText negative ++
      if mantissa = 0 then "0.0"
      else if isPlain mantissa exponent then (shortest mantissa exponent).positional
      else (shortest mantissa exponent).scientific

def Numeral.exponential (n : Numeral) : String :=
  let (first, rest) := n.split
  let power := n.point - 1
  let size := toString power.natAbs
  first ++ (if rest = "" then "" else "." ++ rest) ++ "e" ++ (if power < 0 then "-" else "+") ++
    (if size.length < 2 then "0" ++ size else size)

/-- The text of a double as a piece of data: positional where the point stands from four places
before the digits up to the sixteenth, and with an exponent elsewhere. -/
def shown (x : Float) : String :=
  match shape x with
  | .nan => "nan"
  | .infinite negative => signText negative ++ "inf"
  | .finite negative mantissa exponent =>
    signText negative ++
      if mantissa = 0 then "0.0"
      else
        let n := shortest mantissa exponent
        if -4 < n.point ∧ n.point ≤ 16 then n.positional else n.exponential

end Guion.Double
