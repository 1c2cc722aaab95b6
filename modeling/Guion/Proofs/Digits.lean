import Guion.Double.Read
import Mathlib.Algebra.Group.Nat.Defs
import Mathlib.Tactic.Ring

namespace Guion.Double

theorem digitsValue_toDigits (n : Nat) : digitsValue (Nat.toDigits 10 n) = n :=
  Nat.ofDigitChars_toDigits (b := 10) (by decide) (by decide)

theorem digitsValue_append (ds es : List Char) :
    digitsValue (ds ++ es) = digitsValue ds * 10 ^ es.length + digitsValue es := by
  have hfold (acc : Nat) : es.foldl (fun n c => 10 * n + (c.toNat - 48)) acc =
      acc * 10 ^ es.length + digitsValue es := by
    induction es generalizing acc with
    | nil => simp [digitsValue]
    | cons e es ih =>
      rw [digitsValue, List.foldl_cons, List.foldl_cons, ih, ih, List.length_cons, Nat.pow_succ']
      ring
  rw [digitsValue, List.foldl_append]
  exact hfold _

theorem digitsValue_zeros (k : Nat) (ds : List Char) :
    digitsValue (List.replicate k '0' ++ ds) = digitsValue ds := by
  induction k with
  | zero => rfl
  | succ k ih => exact ih

theorem digitsValue_append_zeros (ds : List Char) (k : Nat) :
    digitsValue (ds ++ List.replicate k '0') = digitsValue ds * 10 ^ k := by
  have hzero : digitsValue (List.replicate k '0') = 0 := by
    rw [← List.append_nil (List.replicate k '0')]
    exact digitsValue_zeros k []
  rw [digitsValue_append, hzero, List.length_replicate, Nat.add_zero]

theorem signed_natAbs (n : Int) :
    (if decide (n < 0) then -(n.natAbs : Int) else n.natAbs) = n := by
  by_cases hn : n < 0
  · simp only [hn, decide_true, if_true]
    omega
  · simp only [hn, decide_false, Bool.false_eq_true, if_false]
    omega

theorem isDigit_of_mem_toDigits {n : Nat} {c : Char} (h : c ∈ Nat.toDigits 10 n) :
    isDigit c = true := by
  have hc := Nat.isDigit_of_mem_toDigits (by decide) (by decide) h
  simpa [isDigit, Char.isDigit, Char.le_def] using hc

theorem toDigits_ne_nil (n : Nat) : Nat.toDigits 10 n ≠ [] := by
  by_cases h : n < 10
  · simp [Nat.toDigits_of_lt_base h]
  · simp [Nat.toDigits_of_base_le (by decide : 1 < 10) (Nat.le_of_not_lt h)]

theorem length_toDigits_le {n limit : Nat} (hl : 0 < limit) (h : n < 10 ^ limit) :
    (Nat.toDigits 10 n).length ≤ limit :=
  (Nat.length_toDigits_le_iff (by decide) hl).mpr h

theorem digitsValue_lt {ds : List Char} (h : ∀ d ∈ ds, isDigit d) :
    digitsValue ds < 10 ^ ds.length := by
  have hfold (acc : Nat) :
      ds.foldl (fun n c => 10 * n + (c.toNat - 48)) acc < (acc + 1) * 10 ^ ds.length := by
    induction ds generalizing acc with
    | nil => simp
    | cons d ds ih =>
      obtain ⟨hd, hds⟩ := List.forall_mem_cons.mp h
      have hdigit : d.toNat - 48 < 10 := by
        simp only [isDigit, Bool.and_eq_true, decide_eq_true_eq] at hd
        have hhigh : d.toNat ≤ 57 := hd.2
        omega
      have hrest := ih hds (10 * acc + (d.toNat - 48))
      have hscale : (10 * acc + (d.toNat - 48) + 1) * 10 ^ ds.length ≤
          (acc + 1) * 10 * 10 ^ ds.length := Nat.mul_le_mul_right _ (by omega)
      rw [List.foldl_cons, List.length_cons, Nat.pow_succ', ← Nat.mul_assoc]
      omega
  simpa [digitsValue] using hfold 0

end Guion.Double
