import Guion.Value.Apply

namespace Guion

section Yields

variable {α β : Type} {good : α → Prop} {goal : β → Prop} {bad : Failure → Prop}

def Yields (good : α → Prop) (bad : Failure → Prop) : Except Failure α → Prop
  | .ok a => good a
  | .error e => bad e

theorem Yields.bind {x : Except Failure α} {f : α → Except Failure β} (hx : Yields good bad x)
    (hf : ∀ a, good a → Yields goal bad (f a)) : Yields goal bad (x >>= f) := by
  cases x with
  | ok a => exact hf a hx
  | error e => exact hx

theorem Yields.map {x : Except Failure α} {f : α → β} (hx : Yields good bad x)
    (hf : ∀ a, good a → goal (f a)) : Yields goal bad (f <$> x) := by
  cases x with
  | ok a => exact hf a hx
  | error e => exact hx

theorem Yields.mono {x : Except Failure α} {good' : α → Prop} {bad' : Failure → Prop}
    (hx : Yields good bad x) (hg : ∀ a, good a → good' a) (hb : ∀ e, bad e → bad' e) :
    Yields good' bad' x := by
  cases x with
  | ok a => exact hg a hx
  | error e => exact hb e hx

end Yields

def BinaryOp.Known (op : BinaryOp) : Prop := ∀ symbol, op ≠ other symbol

def UnaryOp.Known (op : UnaryOp) : Prop := ∀ symbol, op ≠ other symbol

def LogicalOp.Known (op : LogicalOp) : Prop := ∀ symbol, op ≠ other symbol

def Fault.Known : Fault → Prop
  | unaryUnknown _ => False
  | binaryUnknown _ => False
  | _ => True

/-- The ways to fail that the language has words for, and that of a run cut short. -/
def Failure.Worded : Failure → Prop
  | fault cause _ => cause.Known
  | exhausted => True
  | _ => False

namespace Width

theorem half_pos (w : Width) : 0 < w.half := by
  cases w <;> decide

theorem wrap_holds (w : Width) (n : Int) : w.Holds (w.wrap n) := by
  have hpos := w.half_pos
  have hlow := Int.emod_nonneg (n - w.low) (show 2 * w.half ≠ 0 by omega)
  have hhigh := Int.emod_lt_of_pos (n - w.low) (show 0 < 2 * w.half by omega)
  simp only [Holds, wrap, high, low] at *
  omega

theorem Holds.toLargo {n : Int} (h : Holds .entero n) : Holds .largo n := by
  simp only [Holds, low, high, half] at *
  omega

theorem Holds.isSized {w : Width} {n : Int} (h : w.Holds n) : (Number.int n).isSized = true := by
  have hlimit : 18446744073709551616 < Number.doubleLimit := by decide +kernel
  have hn : n.natAbs < 18446744073709551616 := by
    cases w <;> simp only [Holds, low, high, half] at h <;> omega
  simp only [Number.isSized, decide_eq_true_eq]
  omega

end Width

namespace Value

/-- The values that a program read from text can have: integers are in the range of their type, and
texts are texts. -/
def Regular (v : Value) : Prop :=
  v.InRange ∧ v.isForeign = false

def Fits (kind : Kind) (v : Value) : Prop :=
  v = null ∨ v.kind? = some kind

theorem regular_entero {n : Int} (h : Width.Holds .entero n) : (entero n).Regular := ⟨h, rfl⟩

theorem regular_largo {n : Int} (h : Width.Holds .largo n) : (largo n).Regular := ⟨h, rfl⟩

theorem regular_decimal (x : Float) : (decimal x).Regular := ⟨trivial, rfl⟩

theorem regular_booleano (b : Bool) : (booleano b).Regular := ⟨trivial, rfl⟩

theorem regular_cadena (s : String) : (cadena s).Regular := ⟨trivial, rfl⟩

theorem regular_null : null.Regular := ⟨trivial, rfl⟩

theorem regular_value {w : Width} {n : Int} (h : w.Holds n) : (w.value n).Regular := by
  cases w with
  | entero => exact regular_entero h
  | largo => exact regular_largo h

theorem Regular.isSized {v : Value} (h : v.Regular) : v.isSized = true := by
  cases v with
  | entero n =>
    simp only [Value.isSized, number?, Option.all_some]
    exact Width.Holds.isSized (w := .entero) h.1
  | largo n =>
    simp only [Value.isSized, number?, Option.all_some]
    exact Width.Holds.isSized (w := .largo) h.1
  | decimal | booleano | cadena | null => rfl
  | loose w n => exact h.1.elim
  | foreign content => cases h.2

theorem ofLiteral_yields (n : Int) : Yields Regular Failure.Worded (ofLiteral (.int n)) := by
  unfold ofLiteral
  split
  · rename_i h
    exact regular_entero (of_decide_eq_true h)
  · split
    · rename_i h
      exact regular_largo (of_decide_eq_true h)
    · trivial

theorem truncate_yields (w : Width) (x : Float) : Yields w.Holds Failure.Worded (truncate w x) := by
  unfold truncate
  split
  · split
    · assumption
    · trivial
  · trivial

theorem convert_yields (kind : Kind) {v : Value} {n : Int} (hv : v.Regular)
    (hn : v = entero n ∨ v = largo n) :
    Yields Regular Failure.Worded (convert kind v (.int n)) := by
  cases kind with
  | entero =>
    simp only [convert]
    split
    · exact hv
    · split
      · rename_i h
        exact regular_entero (of_decide_eq_true h)
      · trivial
  | largo =>
    obtain rfl | rfl := hn
    · exact regular_largo hv.1.toLargo
    · exact hv
  | decimal =>
    have hs : (Number.int n).isSized = true := by
      obtain rfl | rfl := hn
      · exact Width.Holds.isSized hv.1
      · exact Width.Holds.isSized hv.1
    simp only [convert, hs, ↓reduceIte]
    exact regular_decimal _
  | booleano => exact hv
  | cadena => exact hv

theorem coerce_yields (kind : Kind) {v : Value} (hv : v.Regular) :
    Yields Regular Failure.Worded (coerce (.known kind) v) := by
  cases v with
  | decimal x =>
    cases kind with
    | entero => exact (truncate_yields .entero x).map fun n hn => regular_entero hn
    | largo => exact (truncate_yields .largo x).map fun n hn => regular_largo hn
    | decimal | booleano | cadena => exact hv
  | entero n =>
    simp only [coerce, number?]
    exact convert_yields kind hv (.inl rfl)
  | largo n =>
    simp only [coerce, number?]
    exact convert_yields kind hv (.inr rfl)
  | booleano b => cases kind <;> exact hv
  | cadena s => cases kind <;> exact hv
  | null => cases kind <;> exact hv
  | loose w n => exact hv.1.elim
  | foreign content => cases hv.2

theorem fits_of_compatible {kind : Kind} {v : Value} (h : compatible (.known kind) v = true) :
    v.Fits kind := by
  unfold compatible at h
  cases v with
  | null => exact .inl rfl
  | entero | largo | decimal | booleano | cadena | loose | foreign =>
    simp only [kind?, beq_iff_eq] at h
    exact .inr (congrArg some h)

theorem conform_yields (kind : Kind) {v : Value} (slot : Slot) (hv : v.Regular) :
    Yields (fun w => w.Regular ∧ w.Fits kind) Failure.Worded (conform (.known kind) v slot) := by
  refine (coerce_yields kind hv).bind fun w hw => ?_
  split
  · rename_i h
    exact ⟨hw, fits_of_compatible h⟩
  · trivial

theorem unary_yields {op : UnaryOp} (hop : op.Known) {v : Value} (hv : v.Regular) :
    Yields Regular Failure.Worded (unary op v) := by
  cases op with
  | not =>
    cases v with
    | booleano b => exact regular_booleano _
    | entero | largo | decimal | cadena | null | loose | foreign => trivial
  | plus =>
    simp only [unary]
    split
    · exact hv
    · trivial
  | minus =>
    cases v with
    | entero n => exact regular_entero (Width.wrap_holds _ _)
    | largo n => exact regular_largo (Width.wrap_holds _ _)
    | decimal x => exact regular_decimal _
    | booleano | cadena | null | foreign => trivial
    | loose w n => exact hv.1.elim
  | other symbol => exact (hop symbol rfl).elim

end Value

end Guion
