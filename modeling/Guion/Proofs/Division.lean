import Guion.Proofs.Wrapping
import Mathlib.Data.Rat.Floor
import Mathlib.Tactic.Positivity

namespace Guion

/-- A fraction cut toward zero. -/
def towardZero (x : ℚ) : Int :=
  if 0 ≤ x then ⌊x⌋ else ⌈x⌉

theorem towardZero_neg (x : ℚ) : towardZero (-x) = -towardZero x := by
  unfold towardZero
  obtain hx | rfl | hx := lt_trichotomy x 0
  · rw [if_pos (by linarith), if_neg (by linarith), Int.floor_neg]
  · simp
  · rw [if_neg (by linarith), if_pos (by linarith), Int.ceil_neg]

theorem towardZero_div (a b : Int) : towardZero (a / b) = a.tdiv b := by
  have hnat (m n : Nat) : towardZero ((m : ℚ) / n) = (m : Int).tdiv n := by
    rw [towardZero, if_pos (by positivity)]
    exact Rat.floor_natCast_div_natCast m n
  obtain ⟨m, rfl | rfl⟩ := a.eq_nat_or_neg <;> obtain ⟨n, rfl | rfl⟩ := b.eq_nat_or_neg <;>
    simp [neg_div, div_neg, towardZero_neg, hnat]

namespace Width

variable {w : Width} {a b : Int}

theorem Holds.tmod (ha : w.Holds a) (b : Int) : w.Holds (a.tmod b) := by
  have hle : (a.tmod b).natAbs ≤ a.natAbs := by
    rw [Int.natAbs_tmod]
    exact Nat.mod_le _ _
  have hpos : 0 ≤ a → 0 ≤ a.tmod b := Int.tmod_nonneg b
  have hneg : 0 ≤ -a → 0 ≤ (-a).tmod b := Int.tmod_nonneg b
  have hhalf := w.half_pos
  rw [Int.neg_tmod] at hneg
  simp only [Holds, low, high] at ha ⊢
  omega

/-- One quotient leaves the range of the width: that of its least integer and minus one. -/
theorem Holds.tdiv (ha : w.Holds a) (hb : b ≠ 0) (h : ¬ (a = w.low ∧ b = -1)) :
    w.Holds (a.tdiv b) := by
  have hhalf := w.half_pos
  simp only [Holds, low, high] at ha h ⊢
  by_cases hone : b.natAbs = 1
  · obtain rfl | rfl : b = 1 ∨ b = -1 := by omega
    · rwa [Int.tdiv_one]
    · rw [Int.tdiv_neg, Int.tdiv_one]
      omega
  · have htwo : (a.tdiv b).natAbs ≤ a.natAbs / 2 := by
      rw [Int.natAbs_tdiv]
      exact Nat.div_le_div_left (by omega) (by decide)
    omega

theorem wrap_tdiv (ha : w.Holds a) (hb : b ≠ 0) :
    w.wrap (a.tdiv b) = if a = w.low ∧ b = -1 then w.low else a.tdiv b := by
  split
  next h =>
    obtain ⟨rfl, rfl⟩ := h
    cases w <;> decide
  next h => exact (ha.tdiv hb h).wrap

theorem Holds.meet_left (v w : Width) (h : v.Holds a) : (v.meet w).Holds a := by
  cases v <;> cases w <;> first | exact h | exact h.toLargo

theorem meet_meet (v w : Width) : (v.meet w).meet w = v.meet w := by
  cases v <;> cases w <;> rfl

end Width

def BinaryOp.divided? : BinaryOp → Option (Int → Int → Int)
  | .div => some Int.tdiv
  | .mod => some Int.tmod
  | _ => none

namespace Value

theorem binary_divided {op : BinaryOp} {f : Int → Int → Int} (h : op.divided? = some f)
    (v w : Width) (a : Int) {b : Int} (hb : b ≠ 0) :
    binary op (v.value a) (w.value b) = .ok ((v.meet w).value ((v.meet w).wrap (f a b))) := by
  have hop : op ∈ BinaryOp.whole := by
    cases op <;> first | decide | cases h
  rw [binary_value hop]
  cases op <;> cases h <;> rw [integerOp, if_neg hb] <;> rfl

theorem binary_divided_zero {op : BinaryOp} {f : Int → Int → Int} (h : op.divided? = some f)
    (v w : Width) (a b : Int) :
    (∃ cause, cause.family = .divisionByZero ∧
      binary op (v.value a) (w.value b) = Fault.raise cause) ↔ b = 0 := by
  constructor
  · rintro ⟨cause, _, hraise⟩
    by_contra hb
    rw [binary_divided h v w a hb] at hraise
    cases hraise
  · rintro rfl
    have hop : op ∈ BinaryOp.whole := by
      cases op <;> first | decide | cases h
    rw [binary_value hop]
    cases op <;> cases h
    · exact ⟨.divisionByZero, rfl, rfl⟩
    · exact ⟨.moduloByZero, rfl, rfl⟩

theorem divided_and_restored {v w : Width} {a b : Int} (ha : v.Holds a) (hb : b ≠ 0) :
    (do
      let quotient ← binary .div (v.value a) (w.value b)
      let product ← binary .mul quotient (w.value b)
      let rest ← binary .mod (v.value a) (w.value b)
      binary .add product rest) = .ok ((v.meet w).value a) := by
  rw [binary_divided rfl v w a hb, binary_divided rfl v w a hb]
  generalize hu : v.meet w = u
  have hmul := @binary_unbounded .mul _ rfl u w (u.wrap (a.tdiv b)) b
  have hadd := @binary_unbounded .add _ rfl u u (u.wrap (u.wrap (a.tdiv b) * b))
    (u.wrap (a.tmod b))
  rw [← hu, Width.meet_meet, hu] at hmul
  rw [u.meet_self] at hadd
  have hexact : u.wrap (u.wrap (a.tdiv b) * b) + u.wrap (a.tmod b) ≡ a [ZMOD 2 ^ u.bits] :=
    calc u.wrap (u.wrap (a.tdiv b) * b) + u.wrap (a.tmod b)
        ≡ u.wrap (a.tdiv b) * b + a.tmod b [ZMOD 2 ^ u.bits] :=
          (u.wrap_modEq _).add (u.wrap_modEq _)
      _ ≡ a.tdiv b * b + a.tmod b [ZMOD 2 ^ u.bits] :=
          ((u.wrap_modEq _).mul_right b).add_right _
      _ = a := by rw [mul_comm, Int.mul_tdiv_add_tmod]
  have hua : u.Holds a := hu ▸ ha.meet_left v w
  change (do
    let product ← binary .mul (u.value (u.wrap (a.tdiv b))) (w.value b)
    binary .add product (u.value (u.wrap (a.tmod b)))) = _
  rw [hmul]
  change binary .add _ _ = _
  rw [hadd, Width.wrap_eq_of_modEq hexact, hua.wrap]

end Value

open Value

/-- Division and remainder of integers in range. They are refused exactly where the divisor is zero.
Elsewhere the remainder is smaller than the divisor, has the sign of the dividend where it is not
zero, and is the exact one. The quotient is the exact one cut toward zero, but for the least integer
of the width divided by minus one, which stays as it is. Quotient and remainder together give the
dividend back under the language's own operators, also there. -/
theorem division_truncates (v w : Width) {a : Int} (ha : v.Holds a) (b : Int) :
    ((∃ cause, cause.family = .divisionByZero ∧
        binary .div (v.value a) (w.value b) = Fault.raise cause) ↔ b = 0) ∧
      ((∃ cause, cause.family = .divisionByZero ∧
        binary .mod (v.value a) (w.value b) = Fault.raise cause) ↔ b = 0) ∧
      (b ≠ 0 → ∃ q r, binary .div (v.value a) (w.value b) = .ok ((v.meet w).value q) ∧
        binary .mod (v.value a) (w.value b) = .ok ((v.meet w).value r) ∧
        |r| < |b| ∧ (r = 0 ∨ r.sign = a.sign) ∧ r = a - b * towardZero (a / b) ∧
        q = (if a = (v.meet w).low ∧ b = -1 then (v.meet w).low else towardZero (a / b)) ∧
        (do
          let quotient ← binary .div (v.value a) (w.value b)
          let product ← binary .mul quotient (w.value b)
          let rest ← binary .mod (v.value a) (w.value b)
          binary .add product rest) = .ok ((v.meet w).value a)) := by
  have hmeet := ha.meet_left v w
  refine ⟨binary_divided_zero rfl v w a b, binary_divided_zero rfl v w a b, fun hb => ?_⟩
  refine ⟨(v.meet w).wrap (a.tdiv b), a.tmod b, binary_divided rfl v w a hb, ?_, ?_, ?_, ?_, ?_,
    divided_and_restored ha hb⟩
  · rw [binary_divided rfl v w a hb, (hmeet.tmod b).wrap]
  · rw [Int.abs_eq_natAbs, Int.abs_eq_natAbs, Int.natAbs_tmod]
    exact_mod_cast Nat.mod_lt _ (Int.natAbs_pos.mpr hb)
  · have hsign := Int.sign_tmod a b
    split at hsign
    · exact .inl (Int.sign_eq_zero_iff_zero.mp hsign)
    · exact .inr hsign
  · have hexact := Int.mul_tdiv_add_tmod a b
    rw [towardZero_div]
    omega
  · rw [towardZero_div]
    exact Width.wrap_tdiv hmeet hb

/-- The least `entero` divided by minus one is itself. A `largo` divisor leaves it room. -/
theorem division_truncates_least :
    Width.entero.Holds (-2147483648) ∧ (-1 : Int) ≠ 0 ∧
      binary .div (.entero (-2147483648)) (.entero (-1)) = .ok (.entero (-2147483648)) ∧
      binary .mod (.entero (-2147483648)) (.entero (-1)) = .ok (.entero 0) ∧
      binary .div (.entero (-2147483648)) (.largo (-1)) = .ok (.largo 2147483648) := by
  have ha : Width.entero.Holds (-2147483648) := by decide
  obtain ⟨q, r, hq, hr, hlt, _, _, rfl, _⟩ :=
    (division_truncates .entero .entero ha (-1)).2.2 (by decide)
  obtain ⟨q', r', hq', _, _, _, _, rfl, _⟩ :=
    (division_truncates .entero .largo ha (-1)).2.2 (by decide)
  have hcut : towardZero ((-2147483648 : Int) / (-1 : Int)) = 2147483648 := towardZero_div _ _
  have hzero : r = 0 := Int.abs_lt_one_iff.mp hlt
  subst hzero
  rw [hcut] at hq'
  exact ⟨ha, by decide, hq, hr, hq'⟩

end Guion
