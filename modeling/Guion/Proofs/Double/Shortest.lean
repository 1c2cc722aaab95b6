import Guion.Proofs.Double.Rounding

namespace Guion.Double

variable {mantissa : Nat} {exponent scale : Int} {count : Nat} {n : Numeral}

section Places

theorem decimalLength_pos (k : Nat) : 0 < decimalLength k :=
  List.length_pos_iff.mpr (toDigits_ne_nil k)

theorem lt_pow_decimalLength (k : Nat) : k < 10 ^ decimalLength k :=
  (Nat.length_toDigits_le_iff (by decide) (decimalLength_pos k)).mp le_rfl

theorem pow_decimalLength_le {k : Nat} (hk : k ≠ 0) : 10 ^ (decimalLength k - 1) ≤ k := by
  by_contra hlt
  have hpos := decimalLength_pos k
  by_cases hone : decimalLength k = 1
  · rw [hone] at hlt
    omega
  · have hle := (Nat.length_toDigits_le_iff (b := 10) (by decide) (by omega)).mpr
      (Nat.lt_of_not_le hlt)
    have hlength : (Nat.toDigits 10 k).length = decimalLength k := rfl
    omega

theorem size_eq (mantissa : Nat) (exponent : Int) :
    size mantissa exponent = (4 * mantissa : Nat) * 2 ^ (exponent - 2) := by
  rw [size, zpow_sub₀ (by norm_num)]
  push_cast
  ring

theorem le_size_iff : count * (ratio exponent scale).2 ≤ 4 * mantissa * (ratio exponent scale).1 ↔
    (count : ℚ) * 10 ^ scale ≤ size mantissa exponent := by
  rw [ratio_ge_iff, size_eq]

theorem size_pos (hm : mantissa ≠ 0) (exponent : Int) : 0 < size mantissa exponent := by
  have hcast : (0 : ℚ) < mantissa := by exact_mod_cast Nat.pos_of_ne_zero hm
  unfold size
  positivity

theorem size_between (mantissa : Nat) (exponent scale : Int) :
    let below := 4 * mantissa * (ratio exponent scale).1 / (ratio exponent scale).2
    (below : ℚ) * 10 ^ scale ≤ size mantissa exponent ∧
      size mantissa exponent < (below + 1 : Nat) * 10 ^ scale := by
  intro below
  refine ⟨le_size_iff.mp (Nat.div_mul_le_self _ _), ?_⟩
  rw [← not_le, ← le_size_iff, not_le]
  exact Nat.lt_mul_of_div_lt (Nat.lt_succ_self _) (ratio_snd_pos exponent scale)

theorem places_of_ge_one (h : (ratio exponent 0).2 ≤ 4 * mantissa * (ratio exponent 0).1) :
    let whole := 4 * mantissa * (ratio exponent 0).1 / (ratio exponent 0).2
    (10 : ℚ) ^ (decimalLength whole - 1) ≤ size mantissa exponent ∧
      size mantissa exponent < 10 ^ decimalLength whole := by
  intro whole
  have hwhole : whole ≠ 0 := (Nat.div_pos h (ratio_snd_pos exponent 0)).ne'
  obtain ⟨hlow, hhigh⟩ := size_between mantissa exponent 0
  rw [zpow_zero, mul_one] at hlow hhigh
  have hfirst : (10 : ℚ) ^ (decimalLength whole - 1) ≤ whole := by
    exact_mod_cast pow_decimalLength_le hwhole
  have hlast : ((whole + 1 : Nat) : ℚ) ≤ 10 ^ decimalLength whole := by
    exact_mod_cast lt_pow_decimalLength whole
  exact ⟨hfirst.trans hlow, hhigh.trans_le hlast⟩

theorem places_of_lt_one (hm : mantissa ≠ 0)
    (h : 4 * mantissa * (ratio exponent 0).1 < (ratio exponent 0).2) :
    let inverse := ((ratio exponent 0).2 - 1) / (4 * mantissa * (ratio exponent 0).1)
    1 ≤ 10 ^ decimalLength inverse * size mantissa exponent ∧
      10 ^ (decimalLength inverse - 1) * size mantissa exponent < 1 := by
  intro inverse
  have hnum := ratio_pos exponent 0
  have hquarters : 0 < 4 * mantissa * (ratio exponent 0).1 := Nat.mul_pos (by omega) hnum
  have hinverse : inverse ≠ 0 := (Nat.div_pos (by omega) hquarters).ne'
  have hsize := size_pos hm exponent
  have hlow : inverse * (4 * mantissa * (ratio exponent 0).1) < (ratio exponent 0).2 := by
    have hle : inverse * (4 * mantissa * (ratio exponent 0).1) ≤ (ratio exponent 0).2 - 1 :=
      Nat.div_mul_le_self _ _
    omega
  have hhigh : (ratio exponent 0).2 ≤ (inverse + 1) * (4 * mantissa * (ratio exponent 0).1) := by
    have hlt : (ratio exponent 0).2 - 1 < (inverse + 1) * (4 * mantissa * (ratio exponent 0).1) :=
      Nat.lt_mul_of_div_lt (Nat.lt_succ_self _) hquarters
    omega
  have hscaled (k : Nat) : (ratio exponent 0).2 ≤ k * (4 * mantissa * (ratio exponent 0).1) ↔
      1 ≤ k * size mantissa exponent := by
    have hge := @ratio_ge_iff exponent 0 (k * (4 * mantissa)) 1
    rw [Nat.one_mul, Nat.cast_one, zpow_zero, mul_one] at hge
    rw [size_eq, ← Nat.mul_assoc, ← mul_assoc (k : ℚ), ← Nat.cast_mul]
    exact hge
  rw [← not_le, hscaled, not_le] at hlow
  rw [hscaled] at hhigh
  have hfirst : (10 : ℚ) ^ (decimalLength inverse - 1) ≤ inverse := by
    exact_mod_cast pow_decimalLength_le hinverse
  have hlast : ((inverse + 1 : Nat) : ℚ) ≤ 10 ^ decimalLength inverse := by
    exact_mod_cast lt_pow_decimalLength inverse
  exact ⟨hhigh.trans (mul_le_mul_of_nonneg_right hlast hsize.le),
    (mul_le_mul_of_nonneg_right hfirst hsize.le).trans_lt hlow⟩

theorem pow_mul_grid (i : Int) (k : Nat) : (10 : ℚ) ^ k * 10 ^ (i - k) = 10 ^ i := by
  rw [← zpow_natCast, ← zpow_add₀ (by norm_num)]
  congr 1
  omega

theorem pow_mul_zpow {k : Nat} {i : Int} (h : i = -k) : (10 : ℚ) ^ k * 10 ^ i = 1 := by
  rw [h, ← zero_sub, pow_mul_grid, zpow_zero]

/-- The places before the point are those of the power of ten next above the double. -/
theorem decimalPlaces_spec (hm : mantissa ≠ 0) (exponent : Int) :
    (10 : ℚ) ^ (decimalPlaces mantissa exponent - 1) ≤ size mantissa exponent ∧
      size mantissa exponent < 10 ^ decimalPlaces mantissa exponent := by
  simp only [decimalPlaces]
  split
  next h =>
    obtain ⟨hlow, hhigh⟩ := places_of_ge_one h
    generalize 4 * mantissa * (ratio exponent 0).1 / (ratio exponent 0).2 = whole at hlow hhigh ⊢
    have hpos := decimalLength_pos whole
    refine ⟨?_, by exact_mod_cast hhigh⟩
    rw [← zpow_natCast] at hlow
    convert hlow using 2
    omega
  next h =>
    obtain ⟨hlow, hhigh⟩ := places_of_lt_one hm (Nat.lt_of_not_le h)
    generalize ((ratio exponent 0).2 - 1) / (4 * mantissa * (ratio exponent 0).1) = inverse
      at hlow hhigh ⊢
    have hpos := decimalLength_pos inverse
    constructor
    · refine le_of_mul_le_mul_left ?_ (pow_pos (by norm_num : (0 : ℚ) < 10) (decimalLength inverse))
      rwa [pow_mul_zpow (by omega)]
    · refine lt_of_mul_lt_mul_left ?_
        (pow_nonneg (by norm_num : (0 : ℚ) ≤ 10) (decimalLength inverse - 1))
      rwa [pow_mul_zpow (by omega)]

end Places

section Grid

theorem onGrid?_eq_some (h : onGrid? mantissa exponent scale = some count) :
    Rounds mantissa exponent (count * 10 ^ scale) ∧
      count ≤ 4 * mantissa * (ratio exponent scale).1 / (ratio exponent scale).2 + 1 := by
  simp only [onGrid?] at h
  split at h
  next hbelow habove =>
    split at h
    next =>
      cases h
      exact ⟨roundsTo_iff.mp hbelow, Nat.le_succ _⟩
    next =>
      cases h
      exact ⟨roundsTo_iff.mp habove, le_rfl⟩
  next hbelow _ =>
    cases h
    exact ⟨roundsTo_iff.mp hbelow, Nat.le_succ _⟩
  next _ habove =>
    cases h
    exact ⟨roundsTo_iff.mp habove, le_rfl⟩
  next => cases h

theorem quartersBelow_pos (mantissa : Nat) (exponent : Int) :
    0 < quartersBelow mantissa exponent := by
  unfold quartersBelow
  split <;> omega

theorem low_add (hm : mantissa ≠ 0) (exponent : Int) : low mantissa exponent +
    (quartersBelow mantissa exponent : ℚ) * 2 ^ (exponent - 2) = size mantissa exponent := by
  have hle := quartersBelow_le mantissa exponent
  rw [low, ← add_mul, ← Nat.cast_add, Nat.sub_add_cancel (by omega), size_eq]

theorem size_add (mantissa : Nat) (exponent : Int) :
    size mantissa exponent + 2 * 2 ^ (exponent - 2) = high mantissa exponent := by
  rw [high, size_eq, ← add_mul, Nat.cast_add, Nat.cast_ofNat]

theorem low_lt_size (hm : mantissa ≠ 0) (exponent : Int) :
    low mantissa exponent < size mantissa exponent := by
  have hquarters : (0 : ℚ) < quartersBelow mantissa exponent := by
    exact_mod_cast quartersBelow_pos mantissa exponent
  rw [← low_add hm]
  exact lt_add_of_pos_right _ (by positivity)

theorem size_lt_high (mantissa : Nat) (exponent : Int) :
    size mantissa exponent < high mantissa exponent := by
  rw [← size_add]
  exact lt_add_of_pos_right _ (by positivity)

/-- On a grid finer than the numbers that round to the double, one of its neighbours is such a
number. -/
theorem onGrid?_isSome (hm : mantissa ≠ 0)
    (hfine : (10 : ℚ) ^ scale < (quartersBelow mantissa exponent + 2) * 2 ^ (exponent - 2)) :
    (onGrid? mantissa exponent scale).isSome := by
  let below := 4 * mantissa * (ratio exponent scale).1 / (ratio exponent scale).2
  obtain ⟨hbelow, habove⟩ := size_between mantissa exponent scale
  have hlow := low_lt_size hm exponent
  have hhigh := size_lt_high mantissa exponent
  have hrounds : roundsTo mantissa exponent below scale ∨
      roundsTo mantissa exponent (below + 1) scale := by
    rw [roundsTo_iff, roundsTo_iff]
    by_cases hclose : low mantissa exponent < below * 10 ^ scale
    · exact .inl (.of_lt hclose (hbelow.trans_lt hhigh))
    · -- below the lower end, the next step cannot go beyond the upper one
      refine .inr (.of_lt (hlow.trans habove) ?_)
      calc ((below + 1 : Nat) : ℚ) * 10 ^ scale
          = below * 10 ^ scale + 10 ^ scale := by push_cast; ring
        _ < low mantissa exponent + (quartersBelow mantissa exponent + 2) * 2 ^ (exponent - 2) :=
            add_lt_add_of_le_of_lt (not_lt.mp hclose) hfine
        _ = high mantissa exponent := by rw [← size_add, ← low_add hm]; ring
  simp only [onGrid?]
  split
  next => split <;> rfl
  next => rfl
  next => rfl
  next hbelow habove =>
    obtain h | h := hrounds
    · exact absurd h (Bool.eq_false_iff.mp hbelow)
    · exact absurd h (Bool.eq_false_iff.mp habove)

/-- A grid of seventeen places is fine enough for every double. -/
theorem seventeen_places (h : Canonical mantissa exponent) (hm : mantissa ≠ 0) :
    (10 : ℚ) ^ (decimalPlaces mantissa exponent - 17) <
      (quartersBelow mantissa exponent + 2) * 2 ^ (exponent - 2) := by
  have hquarters : 4 * mantissa < (quartersBelow mantissa exponent + 2) * 10 ^ 16 := by
    have hlt := h.lt
    unfold quartersBelow
    unfold hidden at *
    split <;> omega
  have hcast : ((4 * mantissa : Nat) : ℚ) < (quartersBelow mantissa exponent + 2) * 10 ^ 16 := by
    exact_mod_cast hquarters
  have hgrid : decimalPlaces mantissa exponent - 17 =
      decimalPlaces mantissa exponent - 1 - (16 : Nat) := by omega
  refine lt_of_mul_lt_mul_left ?_ (by positivity : (0 : ℚ) ≤ 10 ^ 16)
  calc (10 : ℚ) ^ 16 * 10 ^ (decimalPlaces mantissa exponent - 17)
      = 10 ^ (decimalPlaces mantissa exponent - 1) := by rw [hgrid, pow_mul_grid]
    _ ≤ size mantissa exponent := (decimalPlaces_spec hm exponent).1
    _ = (4 * mantissa : Nat) * 2 ^ (exponent - 2) := size_eq mantissa exponent
    _ < (quartersBelow mantissa exponent + 2) * 10 ^ 16 * 2 ^ (exponent - 2) :=
        mul_lt_mul_of_pos_right hcast (by positivity)
    _ = 10 ^ 16 * ((quartersBelow mantissa exponent + 2) * 2 ^ (exponent - 2)) := by ring

theorem onGrid?_le (hm : mantissa ≠ 0) {places : Nat}
    (h : onGrid? mantissa exponent (decimalPlaces mantissa exponent - places) = some count) :
    count ≤ 10 ^ places := by
  obtain ⟨_, hcount⟩ := onGrid?_eq_some h
  have hgrid := (size_between mantissa exponent (decimalPlaces mantissa exponent - places)).1
  generalize 4 * mantissa * (ratio exponent (decimalPlaces mantissa exponent - places)).1 /
    (ratio exponent (decimalPlaces mantissa exponent - places)).2 = below at hcount hgrid
  have hlt : (below : ℚ) < 10 ^ places := by
    refine lt_of_mul_lt_mul_right ?_
      (by positivity : (0 : ℚ) ≤ 10 ^ (decimalPlaces mantissa exponent - places))
    rw [pow_mul_grid]
    exact hgrid.trans_lt (decimalPlaces_spec hm exponent).2
  have hnat : below < 10 ^ places := by exact_mod_cast hlt
  omega

end Grid

section Trimmed

theorem Numeral.value_trimmed (n : Numeral) (fuel : Nat) : (n.trimmed fuel).value = n.value := by
  induction fuel generalizing n with
  | zero => rfl
  | succ fuel ih =>
    unfold trimmed
    split
    next hlast =>
      have hdigits : n.digits = n.digits / 10 * 10 := by omega
      rw [ih, value, value, zpow_add_one₀ (by norm_num), hdigits]
      push_cast
      rw [Nat.mul_div_cancel _ (by decide)]
      ring
    next => rfl

theorem Numeral.trimmed_last {fuel : Nat} (h : n.digits ≠ 0) (hlt : n.digits < 10 ^ (fuel + 1)) :
    (n.trimmed fuel).digits % 10 ≠ 0 := by
  induction fuel generalizing n with
  | zero =>
    unfold trimmed
    omega
  | succ fuel ih =>
    unfold trimmed
    split
    next hlast =>
      rw [Nat.pow_succ] at hlt
      refine ih ?_ ?_
      · simp only
        omega
      · simp only
        omega
    next hlast => omega

end Trimmed

/-- The shortest decimal of a double rounds to the double, and has no trailing zero. -/
theorem shortest_spec (h : Canonical mantissa exponent) (hm : mantissa ≠ 0) :
    Rounds mantissa exponent (shortest mantissa exponent).value ∧
      (shortest mantissa exponent).digits % 10 ≠ 0 := by
  simp only [shortest]
  cases hfound : (List.range 17).findSome? fun n =>
      (onGrid? mantissa exponent (decimalPlaces mantissa exponent - (n + 1 : Nat))).map fun digits =>
        (⟨digits, decimalPlaces mantissa exponent - (n + 1 : Nat)⟩ : Numeral) with
  | none =>
    have hnone := List.findSome?_eq_none_iff.mp hfound 16 (by decide)
    have hsome := onGrid?_isSome hm (seventeen_places h hm)
    have hgrid : onGrid? mantissa exponent (decimalPlaces mantissa exponent - 17) = none :=
      Option.map_eq_none_iff.mp hnone
    rw [hgrid] at hsome
    cases hsome
  | some found =>
    obtain ⟨n, hn, hdigits⟩ := List.exists_of_findSome?_eq_some hfound
    obtain ⟨digits, hgrid, rfl⟩ := Option.map_eq_some_iff.mp hdigits
    have hfew : digits < 10 ^ (17 + 1) :=
      calc digits ≤ 10 ^ (n + 1) := onGrid?_le hm hgrid
        _ ≤ 10 ^ 17 := Nat.pow_le_pow_right (by decide) (List.mem_range.mp hn)
        _ < 10 ^ (17 + 1) := by decide
    refine ⟨?_, Numeral.trimmed_last (onGrid?_ne_zero hm hgrid) hfew⟩
    rw [Numeral.value_trimmed]
    exact (onGrid?_eq_some hgrid).1

end Guion.Double
