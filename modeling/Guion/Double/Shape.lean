namespace Guion.Double

/-- The number a double stands for. A finite one is `mantissa * 2 ^ exponent` under its sign. -/
inductive Shape where
  | finite (negative : Bool) (mantissa : Nat) (exponent : Int)
  | infinite (negative : Bool)
  | nan
deriving DecidableEq, Repr

/-- The weight of the hidden bit, which a normal double has and a subnormal one lacks. -/
def hidden : Nat := 4503599627370496

def leastExponent : Int := -1074

def shape (x : Float) : Shape :=
  let bits := x.toBits.toNat
  let negative := bits / 9223372036854775808 == 1
  let biased := bits / hidden % 2048
  let fraction := bits % hidden
  if biased = 2047 then
    if fraction = 0 then .infinite negative else .nan
  else if biased = 0 then .finite negative fraction leastExponent
  else .finite negative (hidden + fraction) (biased - 1075)

def ofParts (negative : Bool) (mantissa : Nat) (exponent : Int) : Float :=
  let least := max (exponent + Nat.log2 mantissa - 52) leastExponent
  let units :=
    if least ≤ exponent then mantissa * Nat.pow 2 (exponent - least).toNat
    else mantissa / Nat.pow 2 (least - exponent).toNat
  let biased := if units < hidden then 0 else (least + 1075).toNat
  let sign := if negative then 9223372036854775808 else 0
  Float.ofBits (sign + biased * hidden + units % hidden).toUInt64

def wholePart (mantissa : Nat) (exponent : Int) : Nat :=
  if 0 ≤ exponent then mantissa * Nat.pow 2 exponent.toNat
  else mantissa / Nat.pow 2 (-exponent).toNat

def truncate? (x : Float) : Option Int :=
  match shape x with
  | .finite negative mantissa exponent =>
    let whole : Int := wholePart mantissa exponent
    some (if negative then -whole else whole)
  | _ => none

def fraction? (x : Float) : Option (Int × Nat) :=
  match shape x with
  | .finite negative mantissa exponent =>
    let size : Int := (mantissa * Nat.pow 2 exponent.toNat : Nat)
    some (if negative then -size else size, Nat.pow 2 (-exponent).toNat)
  | _ => none

def equalsInt (x : Float) (n : Int) : Bool :=
  match fraction? x with
  | some (num, den) => num == n * den
  | none => false

def within (low high : Int) (x : Float) : Bool :=
  match fraction? x with
  | some (num, den) => low * den ≤ num && num ≤ high * den
  | none => false

end Guion.Double
