namespace Guion

/-- The two integer types by their size in bits: 32 for `entero`, 64 for `largo`. -/
inductive Width where
  | entero
  | largo
deriving DecidableEq, Repr

namespace Width

def half : Width → Int
  | entero => 2147483648
  | largo => 9223372036854775808

def low (w : Width) : Int := -w.half

def high (w : Width) : Int := w.half - 1

def Holds (w : Width) (n : Int) : Prop :=
  w.low ≤ n ∧ n ≤ w.high

instance (w : Width) (n : Int) : Decidable (w.Holds n) :=
  inferInstanceAs (Decidable (_ ∧ _))

/-- The integer of the width that differs from `n` by a multiple of the width's size. -/
def wrap (w : Width) (n : Int) : Int :=
  (n - w.low) % (2 * w.half) + w.low

def name : Width → String
  | entero => "entero"
  | largo => "largo"

end Width

end Guion
