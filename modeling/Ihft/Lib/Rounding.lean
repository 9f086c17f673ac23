import Mathlib.Tactic

/-!
# Rounding up

The least multiple of `a` that is not below a number.
-/

namespace Rounding

/-- `n` rounded up to a multiple of `a`. -/
def roundUp (n a : ℕ) : ℕ := if n % a = 0 then n else n + (a - n % a)

variable {n m a : ℕ}

theorem roundUp_of_dvd (h : a ∣ n) : roundUp n a = n := if_pos (Nat.mod_eq_zero_of_dvd h)

theorem le_roundUp : n ≤ roundUp n a := by
  unfold roundUp
  split <;> omega

theorem roundUp_lt (ha : 0 < a) : roundUp n a < n + a := by
  unfold roundUp
  split <;> omega

theorem dvd_roundUp (ha : 0 < a) : a ∣ roundUp n a := by
  unfold roundUp
  split
  · rename_i h
    exact Nat.dvd_of_mod_eq_zero h
  · have hlt := Nat.mod_lt n ha
    have hdiv := Nat.div_add_mod n a
    refine ⟨n / a + 1, ?_⟩
    rw [Nat.mul_add, Nat.mul_one]
    omega

/-- The next multiple is the least one. -/
theorem roundUp_le (ha : 0 < a) (hnm : n ≤ m) (hm : a ∣ m) : roundUp n a ≤ m := by
  have hlt : roundUp n a < m + a := (roundUp_lt ha).trans_le (Nat.add_le_add_right hnm a)
  exact Nat.le_of_lt_add_of_dvd hlt (dvd_roundUp ha) hm

/-- As a number of whole parts, with one more for a rest. -/
theorem roundUp_eq_mul (n a : ℕ) (ha : 0 < a) :
    roundUp n a = (n / a + if n % a > 0 then 1 else 0) * a := by
  have hdiv := Nat.div_add_mod n a
  have hlt := Nat.mod_lt n ha
  have hcomm := Nat.mul_comm a (n / a)
  unfold roundUp
  split_ifs with h h' h'
  · omega
  · rw [Nat.add_zero]
    omega
  · rw [Nat.add_mul, Nat.one_mul]
    omega
  · omega

end Rounding
