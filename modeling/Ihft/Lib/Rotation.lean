import Mathlib.Tactic

/-!
# Rotation

The numbers below `n` on a ring, in the order in which they come from a cursor on.  The order does
not depend on `n`: numbers that are put in behind the last one come between it and the number 0.
-/

namespace Rotation

/-- From the cursor on, `a` comes before `b`. -/
def Before (cursor a b : ℕ) : Prop := (cursor ≤ a ∧ b < cursor) ∨ ((cursor ≤ a ↔ cursor ≤ b) ∧ a < b)

variable {n cursor a b x i j : ℕ}

/-- The place of a number that is found `i` places from the cursor on. -/
theorem add_mod_cases (hcursor : cursor < n) (hi : i < n) :
    (cursor + i < n ∧ (cursor + i) % n = cursor + i) ∨
      (n ≤ cursor + i ∧ (cursor + i) % n = cursor + i - n) := by
  rcases Nat.lt_or_ge (cursor + i) n with hlt | hge
  · exact .inl ⟨hlt, Nat.mod_eq_of_lt hlt⟩
  · rw [Nat.mod_eq_sub_mod hge, Nat.mod_eq_of_lt (by omega)]
    exact .inr ⟨hge, rfl⟩

theorem succ_mod_cases (hx : x < n) : (x + 1 < n ∧ (x + 1) % n = x + 1) ∨
    (x + 1 = n ∧ (x + 1) % n = 0) := by
  rcases Nat.lt_or_ge (x + 1) n with hlt | hge
  · exact .inl ⟨hlt, Nat.mod_eq_of_lt hlt⟩
  · have heq : x + 1 = n := by omega
    rw [heq, Nat.mod_self]
    exact .inr ⟨rfl, rfl⟩

theorem before_add_mod_iff (hcursor : cursor < n) (hi : i < n) (hj : j < n) :
    Before cursor ((cursor + i) % n) ((cursor + j) % n) ↔ i < j := by
  unfold Before
  rcases add_mod_cases hcursor hi with ⟨hi', heq⟩ | ⟨hi', heq⟩ <;>
    rcases add_mod_cases hcursor hj with ⟨hj', heq'⟩ | ⟨hj', heq'⟩ <;> rw [heq, heq'] <;> omega

/-- The number that the cursor has just passed is the last one. -/
theorem before_succ_mod (hx : x < n) (ha : a < n) (hne : a ≠ x) : Before ((x + 1) % n) a x := by
  unfold Before
  rcases succ_mod_cases hx with ⟨hlt, heq⟩ | ⟨hlast, heq⟩ <;> rw [heq] <;> omega

/-- Passing a number before both does not change their order. -/
theorem Before.succ_mod (h : Before cursor a b) (hpassed : Before cursor x a) (hx : x < n)
    (ha : a < n) : Before ((x + 1) % n) a b := by
  unfold Before at h hpassed ⊢
  rcases succ_mod_cases hx with ⟨hlt, heq⟩ | ⟨hlast, heq⟩ <;> rw [heq] <;> omega

end Rotation
