import Guion.Double.Shape

namespace Guion.Double

def nan : Float := 0.0 / 0.0

def infinity : Float := 1.0 / 0.0

/-- The exact remainder of a division cut toward zero, with the sign of the dividend. An infinite
dividend has none. -/
def remainder? (x y : Float) : Option Float :=
  match shape x, shape y with
  | .nan, _ => some nan
  | _, .nan => some nan
  | .infinite _, _ => none
  | .finite .., .infinite _ => some x
  | .finite negative mx ex, .finite _ my ey =>
    let least := min ex ey
    let a := mx * Nat.pow 2 (ex - least).toNat
    let b := my * Nat.pow 2 (ey - least).toNat
    some (ofParts negative (a % b) least)

def modulo (x y : Float) : Float :=
  match remainder? x y with
  | none => nan
  | some r => if r == 0.0 then 0.0 else if r < 0.0 then r + y else r

/-- The quotient of two doubles that are not negative, cut to a whole number. The remainder is
taken off before the division, so that only the last step can round. -/
def wholeQuotient (x y : Float) : Float :=
  match remainder? x y with
  | none => nan
  | some r =>
    let quotient := (x - r) / y
    let whole := quotient.floor
    if 0.5 < quotient - whole then whole + 1.0 else whole

/-- The power of two doubles. Zero to a power that has no value gives positive infinity, whatever
the sign of the zero. -/
def power (x y : Float) : Float :=
  let r := Float.pow x y
  if x == 0.0 && r.isInf then infinity else r

end Guion.Double
