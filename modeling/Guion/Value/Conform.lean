import Guion.Failure

namespace Guion.Value

def ofLiteral (n : Number) : Except Failure Value :=
  if n.isWithin .entero then .ok (Width.holding .entero n)
  else if n.isWithin .largo then .ok (Width.holding .largo n)
  else Fault.raise (.literalTooLarge n)

def truncate (w : Width) (x : Float) : Except Failure Int :=
  match Double.truncate? x with
  | some n => if w.Holds n then .ok n else Fault.raise (.decimalTooLarge x w)
  | none => Fault.raise (.decimalTooLarge x w)

def convert (target : Kind) (v : Value) (n : Number) : Except Failure Value :=
  match target with
  | .entero =>
    if v.kind? = some .entero then .ok v
    else if n.isWithin .entero then .ok (Width.holding .entero n)
    else Fault.raise (.largoTooLarge n)
  | .largo => .ok (Width.holding .largo n)
  | .decimal => if n.isSized then .ok (decimal n.toFloat) else Stuck.raise .hugeNumeral
  | _ => .ok v

def coerce (target : TypeName) (v : Value) : Except Failure Value :=
  match target, v with
  | .known .entero, decimal x => entero <$> truncate .entero x
  | .known .largo, decimal x => largo <$> truncate .largo x
  | .known kind, v =>
    match v.number? with
    | some n => convert kind v n
    | none => .ok v
  | .unknown _, v => .ok v

/-- Whether a value may be held under a type name. `null` may be held under any. -/
def compatible (target : TypeName) (v : Value) : Bool :=
  match v.kind?, target with
  | none, _ => true
  | some kind, .known expected => kind == expected
  | some _, .unknown _ => false

/-- The value to store when `v` is bound to a slot of type `target`. -/
def conform (target : TypeName) (v : Value) (slot : Slot) : Except Failure Value := do
  let w ← coerce target v
  if compatible target w then .ok w else Fault.raise (.mismatch slot target w)

end Guion.Value
