import Guion.Double.Shape

namespace Guion.Double

structure Numeral where
  digits : Nat
  scale : Int
deriving DecidableEq, Repr

def decimalLength (n : Nat) : Nat :=
  (Nat.toDigits 10 n).length

def ratio (exponent scale : Int) : Nat × Nat :=
  let binary := exponent - 2
  (Nat.pow 2 binary.toNat * Nat.pow 10 (-scale).toNat,
    Nat.pow 2 (-binary).toNat * Nat.pow 10 scale.toNat)

/-- How far below the double, in quarters of its last place, numbers still round to it. The gap is
halved under a power of two. -/
def quartersBelow (mantissa : Nat) (exponent : Int) : Nat :=
  if mantissa = hidden ∧ exponent ≠ leastExponent then 1 else 2

/-- Whether `count * 10 ^ scale` rounds to the double `mantissa * 2 ^ exponent`. A number halfway
between two doubles rounds to the one with the even mantissa. -/
def roundsTo (mantissa : Nat) (exponent : Int) (count : Nat) (scale : Int) : Bool :=
  let (num, den) := ratio exponent scale
  let low := (4 * mantissa - quartersBelow mantissa exponent) * num
  let high := (4 * mantissa + 2) * num
  if mantissa % 2 = 0 then low ≤ count * den && count * den ≤ high
  else low < count * den && count * den < high

def onGrid? (mantissa : Nat) (exponent : Int) (scale : Int) : Option Nat :=
  let (num, den) := ratio exponent scale
  let below := 4 * mantissa * num / den
  let rest := 2 * (4 * mantissa * num % den)
  match roundsTo mantissa exponent below scale, roundsTo mantissa exponent (below + 1) scale with
  | true, true =>
    if rest < den ∨ (rest = den ∧ below % 2 = 0) then some below else some (below + 1)
  | true, false => some below
  | false, true => some (below + 1)
  | false, false => none

def decimalPlaces (mantissa : Nat) (exponent : Int) : Int :=
  let (num, den) := ratio exponent 0
  let quarters := 4 * mantissa * num
  if den ≤ quarters then decimalLength (quarters / den)
  else 1 - (decimalLength ((den - 1) / quarters) : Int)

def Numeral.trimmed (n : Numeral) : Nat → Numeral
  | 0 => n
  | fuel + 1 =>
    if n.digits % 10 = 0 ∧ n.digits ≠ 0 then
      Numeral.trimmed ⟨n.digits / 10, n.scale + 1⟩ fuel
    else n

/-- The decimal with the fewest digits that rounds to `mantissa * 2 ^ exponent`. Seventeen digits
always do. -/
def shortest (mantissa : Nat) (exponent : Int) : Numeral :=
  let places := decimalPlaces mantissa exponent
  let found := (List.range 17).findSome? fun n =>
    (onGrid? mantissa exponent (places - (n + 1 : Nat))).map fun digits =>
      (⟨digits, places - (n + 1 : Nat)⟩ : Numeral)
  (found.getD ⟨mantissa, exponent⟩).trimmed 17

end Guion.Double
