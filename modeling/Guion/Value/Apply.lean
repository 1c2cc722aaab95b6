import Guion.Failure
import Guion.Value.Conform

namespace Guion.Tree

def sumOf (m n : Number) : Except Failure Number :=
  if m.integer?.isSome == n.integer?.isSome || (m.isSized && n.isSized) then .ok (m.add n)
  else Stuck.raise .hugeNumeral

def sum : Tree → Tree → Except Failure Tree
  | text s, text t => .ok (text (s ++ t))
  | list ss, list ts => .ok (list (ss ++ ts))
  | s, t =>
    match s.number?, t.number? with
    | some m, some n => ofNumber <$> sumOf m n
    | _, _ => Stuck.raise .malformed

end Guion.Tree

namespace Guion.Value

def integer? : Value → Option Int
  | entero n => some n
  | largo n => some n
  | _ => none

def width (a b : Value) : Width :=
  if a.kind? = some .largo ∨ b.kind? = some .largo then .largo else .entero

/-- The type in which two numbers meet: a decimal wins over a `largo` and that over an `entero`. -/
def promotion (a b : Value) : Kind :=
  if a.kind? = some .decimal ∨ b.kind? = some .decimal then .decimal
  else .ofWidth (width a b)

/-- Numbers are equal by size across types, other values only to those of their own type. -/
def equals (a b : Value) : Bool :=
  match a.toFloat?, b.toFloat? with
  | some x, some y => x == y
  | _, _ =>
    match a, b with
    | foreign s, foreign t => s.equals t
    | a, b => decide (a = b)

def integerOp (op : BinaryOp) (w : Width) (x y : Int) : Except Failure Int :=
  match op with
  | .add => .ok (w.wrap (x + y))
  | .sub => .ok (w.wrap (x - y))
  | .mul => .ok (w.wrap (x * y))
  | .div => if y = 0 then Fault.raise .divisionByZero else .ok (w.wrap (x.tdiv y))
  | .mod => if y = 0 then Fault.raise .moduloByZero else .ok (w.wrap (x.tmod y))
  | .pow =>
    match truncate w (Double.power (Float.ofInt x) (Float.ofInt y)) with
    | .ok n => .ok n
    | .error _ => Fault.raise (.powerTooLarge (.int x) (.int y) w)
  | op => Fault.raise (.binaryUnknown op)

def looseOp (op : BinaryOp) (w : Width) (x y : Number) : Except Failure Number :=
  match op with
  | .add => .ok ((x.add y).wrap w)
  | .sub => .ok ((x.sub y).wrap w)
  | .mul => .ok ((x.mul y).wrap w)
  | .div => if y.isZero then Fault.raise .divisionByZero else .ok ((x.quotient y).wrap w)
  | .mod => if y.isZero then Fault.raise .moduloByZero else .ok ((x.remainder y).wrap w)
  | .pow =>
    match truncate w (Double.power x.toFloat y.toFloat) with
    | .ok n => .ok (.int n)
    | .error _ => Fault.raise (.powerTooLarge x y w)
  | op => Fault.raise (.binaryUnknown op)

def decimalOp (op : BinaryOp) (x y : Float) : Except Failure Float :=
  match op with
  | .add => .ok (x + y)
  | .sub => .ok (x - y)
  | .mul => .ok (x * y)
  | .div => if y == 0.0 then Fault.raise .divisionByZero else .ok (x / y)
  | .mod =>
    if y == 0.0 then Fault.raise .moduloByZero
    else match Double.remainder? x y with
      | some r => .ok r
      | none => Stuck.raise .remainderOfInfinity
  | .pow => .ok (Double.power x y)
  | op => Fault.raise (.binaryUnknown op)

def order? (op : BinaryOp) : Option (Float → Float → Bool) :=
  match op with
  | .less => some fun x y => x < y
  | .lessEqual => some fun x y => x ≤ y
  | .greater => some fun x y => y < x
  | .greaterEqual => some fun x y => y ≤ x
  | _ => none

def joins (op : BinaryOp) (a b : Value) : Bool :=
  op == .add && (a.kind? == some .cadena || b.kind? == some .cadena)

def join (a b : Value) : Except Failure Value :=
  if a.isForeign || b.isForeign then ofContent <$> a.content.sum b.content
  else .ok (cadena (a.text ++ b.text))

def arithmetic (op : BinaryOp) (a b : Value) : Except Failure Value :=
  match a.integer?, b.integer? with
  | some x, some y => (width a b).value <$> integerOp op (width a b) x y
  | _, _ =>
    match a.number?, b.number? with
    | some x, some y => (width a b).holding <$> looseOp op (width a b) x y
    | _, _ =>
      match a.toFloat?, b.toFloat? with
      | some x, some y => decimal <$> decimalOp op x y
      | _, _ => Fault.raise (.binaryOperands op a b)

def meetAsDoubles (op : BinaryOp) (a b : Value) : Bool :=
  a.isNumeric && b.isNumeric &&
    (op == .equal || op == .notEqual || op == .pow || (order? op).isSome ||
      promotion a b == .decimal)

/-- Apply a binary operator. An integer beyond every double has none to meet another number with. -/
def binary (op : BinaryOp) (a b : Value) : Except Failure Value :=
  if meetAsDoubles op a b && !(a.isSized && b.isSized) then Stuck.raise .hugeNumeral
  else
    match op with
    | .equal => .ok (booleano (a.equals b))
    | .notEqual => .ok (booleano (!a.equals b))
    | op =>
      match order? op with
      | some holds =>
        match a.toFloat?, b.toFloat? with
        | some x, some y => .ok (booleano (holds x y))
        | _, _ => Fault.raise (.binaryOperands op a b)
      | none => if joins op a b then a.join b else arithmetic op a b

def unary (op : UnaryOp) (v : Value) : Except Failure Value :=
  match op, v with
  | .not, booleano b => .ok (booleano !b)
  | .not, _ => Fault.raise .notOperand
  | .plus, v => if v.isNumeric then .ok v else Fault.raise (.unaryOperand .plus)
  | .minus, entero n => .ok (entero (Width.wrap .entero (-n)))
  | .minus, largo n => .ok (largo (Width.wrap .largo (-n)))
  | .minus, loose w n => .ok (w.holding (n.neg.wrap w))
  | .minus, decimal x => .ok (decimal (-x))
  | .minus, _ => Fault.raise (.unaryOperand .minus)
  | op, v => if v.isNumeric then Fault.raise (.unaryUnknown op) else Fault.raise (.unaryOperand op)

end Guion.Value
