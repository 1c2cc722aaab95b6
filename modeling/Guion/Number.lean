import Guion.Double.Remainder
import Guion.Double.Text
import Guion.Width

namespace Guion

/-- The numbers that data can hold. A truth value counts as one or zero. -/
inductive Number where
  | int (n : Int)
  | truth (b : Bool)
  | float (x : Float)
deriving DecidableEq

namespace Number

def text : Number → String
  | int n => toString n
  | truth b => if b then "True" else "False"
  | float x => Double.shown x

def integer? : Number → Option Int
  | int n => some n
  | truth b => some (if b then 1 else 0)
  | float _ => none

def toFloat : Number → Float
  | int n => Float.ofInt n
  | truth b => if b then 1.0 else 0.0
  | float x => x

def doubleLimit : Nat :=
  Nat.pow 2 1024 - Nat.pow 2 970

def isSized : Number → Bool
  | int n => n.natAbs < doubleLimit
  | truth _ => true
  | float _ => true

def equals (a b : Number) : Bool :=
  match a.integer?, b.integer? with
  | some m, some n => m == n
  | some m, none => Double.equalsInt b.toFloat m
  | none, some n => Double.equalsInt a.toFloat n
  | none, none => a.toFloat == b.toFloat

def isZero (a : Number) : Bool :=
  a.equals (int 0)

def isWithin (w : Width) (a : Number) : Bool :=
  match a.integer? with
  | some n => decide (w.Holds n)
  | none => Double.within w.low w.high a.toFloat

/-- An operation that stays with the integers as long as both operands are some. -/
def combine (whole : Int → Int → Int) (broken : Float → Float → Float) (a b : Number) : Number :=
  match a.integer?, b.integer? with
  | some m, some n => int (whole m n)
  | _, _ => float (broken a.toFloat b.toFloat)

def add : Number → Number → Number := combine (· + ·) (· + ·)

def sub : Number → Number → Number := combine (· - ·) (· - ·)

def mul : Number → Number → Number := combine (· * ·) (· * ·)

def neg : Number → Number
  | float x => float (-x)
  | a => sub (int 0) a

def cutQuotient (x y : Float) : Float :=
  let quotient := Double.wholeQuotient x.abs y.abs
  if (x < 0.0) == (y < 0.0) then quotient else -quotient

def quotient : Number → Number → Number := combine Int.tdiv cutQuotient

def remainder (a b : Number) : Number :=
  a.sub (b.mul (a.quotient b))

def wrap (w : Width) (a : Number) : Number :=
  match a.integer? with
  | some n => int (w.wrap n)
  | none =>
    let low := Float.ofInt w.low
    float (Double.modulo (a.toFloat - low) (Float.ofInt (2 * w.half)) + low)

end Number

end Guion
