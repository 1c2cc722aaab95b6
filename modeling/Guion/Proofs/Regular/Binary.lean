import Guion.Proofs.Regular

namespace Guion

namespace Double

def IsInfinite (x : Float) : Prop := ∃ negative, shape x = .infinite negative

def IsNan (x : Float) : Prop := shape x = .nan

theorem remainder?_eq_none_iff (x y : Float) :
    remainder? x y = none ↔ IsInfinite x ∧ ¬ IsNan y := by
  unfold remainder? IsInfinite IsNan
  rcases shape x with _ | negative | _ <;> rcases shape y with _ | negative' | _ <;> simp

end Double

namespace Value

/-- A decimal remainder whose dividend is infinite and whose divisor is a number other than
zero. -/
def InfiniteRemainder (op : BinaryOp) (a b : Value) : Prop :=
  op = .mod ∧ promotion a b = .decimal ∧ ∃ x y, a.toFloat? = some x ∧ b.toFloat? = some y ∧
    Double.IsInfinite x ∧ (y == 0.0) = false ∧ ¬ Double.IsNan y

def BinaryFailure (op : BinaryOp) (a b : Value) (e : Failure) : Prop :=
  e.Worded ∨ (e = .stuck .remainderOfInfinity ∧ InfiniteRemainder op a b)

theorem integerOp_yields {op : BinaryOp} (hop : op.Known) (hequal : op ≠ .equal)
    (hnotEqual : op ≠ .notEqual) (horder : order? op = none) (w : Width) (x y : Int) :
    Yields w.Holds Failure.Worded (integerOp op w x y) := by
  cases op with
  | add | sub | mul => exact w.wrap_holds _
  | div | mod =>
    simp only [integerOp]
    split
    · trivial
    · exact w.wrap_holds _
  | pow =>
    simp only [integerOp]
    split
    · rename_i n h
      have hn := truncate_yields w (Double.power (Float.ofInt x) (Float.ofInt y))
      rw [h] at hn
      exact hn
    · trivial
  | equal => exact (hequal rfl).elim
  | notEqual => exact (hnotEqual rfl).elim
  | less | lessEqual | greater | greaterEqual => cases horder
  | other symbol => exact (hop symbol rfl).elim

theorem decimalOp_yields {op : BinaryOp} (hop : op.Known) (hequal : op ≠ .equal)
    (hnotEqual : op ≠ .notEqual) (horder : order? op = none) {a b : Value} {x y : Float}
    (hp : promotion a b = .decimal) (ha : a.toFloat? = some x) (hb : b.toFloat? = some y) :
    Yields (fun _ => True) (BinaryFailure op a b) (decimalOp op x y) := by
  cases op with
  | add | sub | mul | pow => trivial
  | div =>
    simp only [decimalOp]
    split
    · exact .inl trivial
    · trivial
  | mod =>
    simp only [decimalOp]
    split
    · exact .inl trivial
    · rename_i hy
      split
      · trivial
      · rename_i hr
        obtain ⟨hx, hn⟩ := (Double.remainder?_eq_none_iff x y).mp hr
        exact .inr ⟨rfl, rfl, hp, x, y, ha, hb, hx, Bool.eq_false_iff.mpr hy, hn⟩
  | equal => exact (hequal rfl).elim
  | notEqual => exact (hnotEqual rfl).elim
  | less | lessEqual | greater | greaterEqual => cases horder
  | other symbol => exact (hop symbol rfl).elim

theorem arithmetic_cases (op : BinaryOp) {a b : Value} (ha : a.Regular) (hb : b.Regular) :
    (∃ x y, promotion a b ≠ .decimal ∧
      arithmetic op a b = (width a b).value <$> integerOp op (width a b) x y) ∨
    (∃ x y, promotion a b = .decimal ∧ a.toFloat? = some x ∧ b.toFloat? = some y ∧
      arithmetic op a b = decimal <$> decimalOp op x y) ∨
    ((a.toFloat? = none ∨ b.toFloat? = none) ∧
      arithmetic op a b = Fault.raise (.binaryOperands op a b)) := by
  cases a with
  | loose w n => exact ha.1.elim
  | foreign content => cases ha.2
  | booleano | cadena | null => exact .inr (.inr ⟨.inl rfl, rfl⟩)
  | entero m | largo m =>
    cases b with
    | loose w n => exact hb.1.elim
    | foreign content => cases hb.2
    | booleano | cadena | null => exact .inr (.inr ⟨.inr rfl, rfl⟩)
    | entero n | largo n => exact .inl ⟨m, n, nofun, rfl⟩
    | decimal y => exact .inr (.inl ⟨Float.ofInt m, y, rfl, rfl, rfl, rfl⟩)
  | decimal x =>
    cases b with
    | loose w n => exact hb.1.elim
    | foreign content => cases hb.2
    | booleano | cadena | null => exact .inr (.inr ⟨.inr rfl, rfl⟩)
    | entero n | largo n => exact .inr (.inl ⟨x, Float.ofInt n, rfl, rfl, rfl, rfl⟩)
    | decimal y => exact .inr (.inl ⟨x, y, rfl, rfl, rfl, rfl⟩)

theorem arithmetic_yields {op : BinaryOp} (hop : op.Known) (hequal : op ≠ .equal)
    (hnotEqual : op ≠ .notEqual) (horder : order? op = none) {a b : Value} (ha : a.Regular)
    (hb : b.Regular) : Yields Regular (BinaryFailure op a b) (arithmetic op a b) := by
  obtain ⟨x, y, _, h⟩ | ⟨x, y, hp, hx, hy, h⟩ | ⟨_, h⟩ := arithmetic_cases op ha hb
  · rw [h]
    have hn := integerOp_yields hop hequal hnotEqual horder (width a b) x y
    exact (hn.mono (fun _ hm => hm) fun e he => .inl he).map fun n hn => regular_value hn
  · rw [h]
    have hr := decimalOp_yields hop hequal hnotEqual horder hp hx hy
    exact hr.map fun r _ => regular_decimal r
  · rw [h]
    exact .inl trivial

theorem meetAsDoubles_sized (op : BinaryOp) {a b : Value} (ha : a.Regular) (hb : b.Regular) :
    (meetAsDoubles op a b && !(a.isSized && b.isSized)) = false := by
  rw [ha.isSized, hb.isSized]
  exact Bool.and_false _

theorem join_yields {a b : Value} (ha : a.Regular) (hb : b.Regular) (bad : Failure → Prop) :
    Yields Regular bad (a.join b) := by
  simp only [join, ha.2, hb.2, Bool.or_self, Bool.false_eq_true, ↓reduceIte]
  exact regular_cadena _

theorem ordered_yields (op : BinaryOp) (holds : Float → Float → Bool) (a b : Value) :
    Yields Regular (BinaryFailure op a b)
      (match a.toFloat?, b.toFloat? with
        | some x, some y => .ok (booleano (holds x y))
        | _, _ => Fault.raise (.binaryOperands op a b)) := by
  split
  · exact regular_booleano _
  · exact .inl trivial

theorem binary_yields {op : BinaryOp} (hop : op.Known) {a b : Value} (ha : a.Regular)
    (hb : b.Regular) : Yields Regular (BinaryFailure op a b) (binary op a b) := by
  simp only [binary, meetAsDoubles_sized op ha hb, Bool.false_eq_true, ↓reduceIte]
  split
  · exact regular_booleano _
  · exact regular_booleano _
  · rename_i hequal hnotEqual
    split
    · exact ordered_yields op _ a b
    · rename_i horder
      split
      · exact join_yields ha hb _
      · exact arithmetic_yields hop hequal hnotEqual horder ha hb

theorem decimalOp_infinite {x y : Float} (hx : Double.IsInfinite x) (hy : (y == 0.0) = false)
    (hn : ¬ Double.IsNan y) : decimalOp .mod x y = Stuck.raise .remainderOfInfinity := by
  have hr := (Double.remainder?_eq_none_iff x y).mpr ⟨hx, hn⟩
  simp only [decimalOp, hy, hr, Bool.false_eq_true, ↓reduceIte]

/-- A remainder of infinity is the one operation on regular values outside the language's words. -/
theorem binary_stuck_iff {op : BinaryOp} (hop : op.Known) {a b : Value} (ha : a.Regular)
    (hb : b.Regular) :
    binary op a b = .error (.stuck .remainderOfInfinity) ↔ InfiniteRemainder op a b := by
  constructor
  · intro h
    have hy := binary_yields hop ha hb
    rw [h] at hy
    obtain hw | ⟨_, hr⟩ := hy
    · exact hw.elim
    · exact hr
  · rintro ⟨rfl, hp, x, y, hx, hy, hinf, hzero, hnan⟩
    simp only [binary, meetAsDoubles_sized .mod ha hb, Bool.false_eq_true, ↓reduceIte]
    change arithmetic .mod a b = _
    obtain ⟨_, _, hne, _⟩ | ⟨x', y', _, hx', hy', h⟩ | ⟨hnone, _⟩ := arithmetic_cases .mod ha hb
    · exact (hne hp).elim
    · cases hx.symm.trans hx'
      cases hy.symm.trans hy'
      rw [h, decimalOp_infinite hinf hzero hnan]
      rfl
    · simp [hx, hy] at hnone

end Value

end Guion
