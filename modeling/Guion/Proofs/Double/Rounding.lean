import Guion.Proofs.Figures
import Mathlib.Algebra.Order.Field.Power
import Mathlib.Data.Rat.Cast.Order
import Mathlib.Tactic.Linarith
import Mathlib.Tactic.Positivity
import Mathlib.Tactic.Ring

namespace Guion.Double

/-- The rational number that a numeral stands for. -/
def Numeral.value (n : Numeral) : ℚ := n.digits * 10 ^ n.scale

/-- The size of a finite double. -/
def size (mantissa : Nat) (exponent : Int) : ℚ := mantissa * 2 ^ exponent

variable {mantissa m m' : Nat} {exponent scale e e' : Int} {r : ℚ}

section Ratio

theorem zpow_toNat {a : ℚ} (ha : a ≠ 0) (k : Int) : a ^ k.toNat = a ^ k * a ^ (-k).toNat := by
  rw [← zpow_natCast, ← zpow_natCast, ← zpow_add₀ ha]
  congr 1
  omega

theorem exists_ratio (exponent scale : Int) : ∃ c : ℚ, 0 < c ∧
    ((ratio exponent scale).1 : ℚ) = c * 2 ^ (exponent - 2) ∧
      ((ratio exponent scale).2 : ℚ) = c * 10 ^ scale := by
  have htwo := zpow_toNat (by norm_num : (2 : ℚ) ≠ 0) (exponent - 2)
  have hten := zpow_toNat (by norm_num : (10 : ℚ) ≠ 0) scale
  refine ⟨2 ^ (-(exponent - 2)).toNat * 10 ^ (-scale).toNat, by positivity, ?_, ?_⟩
  · simp only [ratio, Nat.pow_eq]
    push_cast
    rw [htwo]
    ring
  · simp only [ratio, Nat.pow_eq]
    push_cast
    rw [hten]
    ring

theorem ratio_snd_pos (exponent scale : Int) : 0 < (ratio exponent scale).2 :=
  Nat.mul_pos (Nat.pow_pos (by decide)) (Nat.pow_pos (by decide))

variable {a count : Nat}

theorem ratio_le_iff : a * (ratio exponent scale).1 ≤ count * (ratio exponent scale).2 ↔
    (a : ℚ) * 2 ^ (exponent - 2) ≤ count * 10 ^ scale := by
  obtain ⟨c, hc, hnum, hden⟩ := exists_ratio exponent scale
  rw [← Nat.cast_le (α := ℚ), Nat.cast_mul, Nat.cast_mul, hnum, hden, mul_left_comm,
    mul_left_comm (count : ℚ), mul_le_mul_iff_right₀ hc]

theorem ratio_ge_iff : count * (ratio exponent scale).2 ≤ a * (ratio exponent scale).1 ↔
    (count : ℚ) * 10 ^ scale ≤ a * 2 ^ (exponent - 2) := by
  obtain ⟨c, hc, hnum, hden⟩ := exists_ratio exponent scale
  rw [← Nat.cast_le (α := ℚ), Nat.cast_mul, Nat.cast_mul, hnum, hden, mul_left_comm,
    mul_left_comm (a : ℚ), mul_le_mul_iff_right₀ hc]

end Ratio

section Rounds

/-- The lower end of the numbers that round to a double. -/
def low (mantissa : Nat) (exponent : Int) : ℚ :=
  (4 * mantissa - quartersBelow mantissa exponent : Nat) * 2 ^ (exponent - 2)

/-- The upper end of the numbers that round to a double. -/
def high (mantissa : Nat) (exponent : Int) : ℚ :=
  (4 * mantissa + 2 : Nat) * 2 ^ (exponent - 2)

/-- The rational rounds to the double. The ends count where the mantissa is even. -/
def Rounds (mantissa : Nat) (exponent : Int) (r : ℚ) : Prop :=
  if mantissa % 2 = 0 then low mantissa exponent ≤ r ∧ r ≤ high mantissa exponent
  else low mantissa exponent < r ∧ r < high mantissa exponent

theorem roundsTo_iff {count : Nat} : roundsTo mantissa exponent count scale = true ↔
    Rounds mantissa exponent (count * 10 ^ scale) := by
  simp only [roundsTo, Rounds, low, high]
  split
  · rw [Bool.and_eq_true, decide_eq_true_eq, decide_eq_true_eq, ratio_le_iff, ratio_ge_iff]
  · rw [Bool.and_eq_true, decide_eq_true_eq, decide_eq_true_eq, ← not_le, ← not_le, ← not_le,
      ← not_le, ratio_ge_iff, ratio_le_iff]

theorem Rounds.of_lt (hl : low mantissa exponent < r) (hh : r < high mantissa exponent) :
    Rounds mantissa exponent r := by
  unfold Rounds
  split
  · exact ⟨hl.le, hh.le⟩
  · exact ⟨hl, hh⟩

theorem Rounds.low_le (h : Rounds mantissa exponent r) : low mantissa exponent ≤ r := by
  unfold Rounds at h
  split at h
  · exact h.1
  · exact h.1.le

theorem Rounds.le_high (h : Rounds mantissa exponent r) : r ≤ high mantissa exponent := by
  unfold Rounds at h
  split at h
  · exact h.2
  · exact h.2.le

theorem Rounds.of_odd (h : Rounds mantissa exponent r) (ho : mantissa % 2 ≠ 0) :
    low mantissa exponent < r ∧ r < high mantissa exponent := by
  rwa [Rounds, if_neg ho] at h

end Rounds

section Canonical

/-- The mantissa and exponent are those of a double: the leading bit is the hidden one, unless the
exponent is the least. -/
structure Canonical (mantissa : Nat) (exponent : Int) : Prop where
  least_le : leastExponent ≤ exponent
  lt : mantissa < 2 * hidden
  normal : leastExponent < exponent → hidden ≤ mantissa

theorem Canonical.quarters (h : Canonical m e) (h' : Canonical m' e')
    (hlt : e < e' ∨ e = e' ∧ m < m') :
    4 * m + 2 ≤ (4 * m' - quartersBelow m' e') * 2 ^ (e' - e).toNat ∧
      (4 * m + 2 = (4 * m' - quartersBelow m' e') * 2 ^ (e' - e).toNat →
        m % 2 ≠ 0 ∨ m' % 2 ≠ 0) := by
  have hbelow := quartersBelow_le m' e'
  obtain hlt | ⟨rfl, hlt⟩ := hlt
  · have hleast := h.least_le
    have hnormal := h'.normal (by omega)
    have hm := h.lt
    -- the gap below a power of two is halved just where the exponent grows
    have hhalf : 4 * hidden - 1 ≤ 4 * m' - quartersBelow m' e' := by
      unfold quartersBelow
      split <;> omega
    obtain ⟨k, hk⟩ : ∃ k, (e' - e).toNat = k + 1 := ⟨(e' - e).toNat - 1, by omega⟩
    have hpow : 2 * (4 * m' - quartersBelow m' e') ≤
        (4 * m' - quartersBelow m' e') * 2 ^ (e' - e).toNat := by
      rw [hk, Nat.pow_succ, Nat.mul_comm]
      exact Nat.mul_le_mul_left _ (Nat.le_mul_of_pos_left 2 (Nat.two_pow_pos k))
    omega
  · rw [Int.sub_self, Int.toNat_zero, Nat.pow_zero, Nat.mul_one]
    omega

/-- Of two doubles, the one that is written first ends before the other begins. Where they touch,
one of the mantissas is odd. -/
theorem Canonical.apart (h : Canonical m e) (h' : Canonical m' e')
    (hlt : e < e' ∨ e = e' ∧ m < m') :
    high m e ≤ low m' e' ∧ (high m e = low m' e' → m % 2 ≠ 0 ∨ m' % 2 ≠ 0) := by
  have hquarters := h.quarters h' hlt
  have hpower : (2 : ℚ) ^ (e' - 2) = (2 ^ (e' - e).toNat : Nat) * 2 ^ (e - 2) := by
    push_cast
    rw [← zpow_natCast, ← zpow_add₀ (by norm_num)]
    congr 1
    omega
  have hpos : (0 : ℚ) < 2 ^ (e - 2) := by positivity
  rw [high, low, hpower, ← mul_assoc, ← Nat.cast_mul]
  refine ⟨mul_le_mul_of_nonneg_right (by exact_mod_cast hquarters.1) hpos.le, fun heq => ?_⟩
  exact hquarters.2 (by exact_mod_cast mul_right_cancel₀ hpos.ne' heq)

/-- A rational rounds to one double only. -/
theorem Canonical.eq_of_rounds (h : Canonical m e) (h' : Canonical m' e') (hr : Rounds m e r)
    (hr' : Rounds m' e' r) : m = m' ∧ e = e' := by
  -- of two doubles that a rational rounds to, neither is written before the other
  have hnot {m m' : Nat} {e e' : Int} (h : Canonical m e) (h' : Canonical m' e')
      (hr : Rounds m e r) (hr' : Rounds m' e' r) : ¬ (e < e' ∨ e = e' ∧ m < m') := by
    intro hlt
    obtain ⟨hle, heq⟩ := h.apart h' hlt
    have hhigh := hr.le_high
    have hlow := hr'.low_le
    obtain ho | ho := heq (by linarith)
    · linarith [(hr.of_odd ho).2]
    · linarith [(hr'.of_odd ho).1]
  have hfirst := hnot h h' hr hr'
  have hsecond := hnot h' h hr' hr
  omega

end Canonical

section Shape

variable {x y : Float} {negative : Bool}

theorem shape_canonical (h : shape x = .finite negative mantissa exponent) :
    Canonical mantissa exponent := by
  simp only [shape] at h
  split at h
  next => split at h <;> cases h
  next hb =>
    split at h
    next =>
      cases h
      exact ⟨le_rfl, by unfold hidden; omega, fun h => absurd h (lt_irrefl _)⟩
    next =>
      cases h
      refine ⟨by unfold leastExponent; omega, by unfold hidden; omega, fun _ => by omega⟩

theorem eq_of_toBits (h : x.toBits = y.toBits) : x = y := by
  obtain ⟨⟨a, ha⟩⟩ := x
  obtain ⟨⟨b, hb⟩⟩ := y
  obtain rfl : a = b := h
  rfl

/-- The bits of a double that is a number, from its shape. -/
def Shape.bits : Shape → Nat
  | .finite negative mantissa exponent =>
    negative.toNat * 9223372036854775808 +
      if mantissa < hidden then mantissa
      else (exponent + 1075).toNat * hidden + (mantissa - hidden)
  | .infinite negative => negative.toNat * 9223372036854775808 + 2047 * hidden
  | .nan => 0

theorem bits_shape (hx : shape x ≠ .nan) : (shape x).bits = x.toBits.toNat := by
  have hlt := x.toBits.toNat_lt
  simp only [shape] at hx ⊢
  generalize x.toBits.toNat = bits at hx hlt ⊢
  have hsign : (bits / 9223372036854775808 == 1).toNat = bits / 9223372036854775808 := by
    have hcases : bits / 9223372036854775808 = 0 ∨ bits / 9223372036854775808 = 1 := by omega
    obtain hzero | hone := hcases
    · rw [hzero]
      rfl
    · rw [hone]
      rfl
  split
  next hb =>
    split
    next hf =>
      rw [Shape.bits, hsign]
      unfold hidden at *
      omega
    next hf => simp [hb, hf] at hx
  next hb =>
    split
    next hz =>
      rw [Shape.bits, hsign, if_pos (Nat.mod_lt _ (by decide))]
      unfold hidden at *
      omega
    next hz =>
      rw [Shape.bits, hsign, if_neg (by omega)]
      unfold hidden at *
      omega

theorem eq_of_shape (h : shape x = shape y) (hx : shape x ≠ .nan) : x = y := by
  refine eq_of_toBits (UInt64.toNat_inj.mp ?_)
  rw [← bits_shape hx, ← bits_shape (h ▸ hx), h]

end Shape

end Guion.Double
