import Mathlib.Data.Fintype.Card
import Mathlib.Tactic

/-!
# Counting who is left

A reference count is the number of parties that still satisfy a predicate.  It drops by one when
one of them stops doing so.
-/

namespace Counting

variable {ρ : Type*} [Fintype ρ]

/-- The number of parties that satisfy `p`. -/
def count (p : ρ → Prop) [DecidablePred p] : ℕ := (Finset.univ.filter p).card

variable {p q : ρ → Prop} [DecidablePred p] [DecidablePred q]

theorem count_congr (h : ∀ i, p i ↔ q i) : count p = count q := by
  unfold count
  congr 1
  exact Finset.filter_congr fun i _ => h i

theorem count_le : count p ≤ Fintype.card ρ := Finset.card_le_univ _

theorem count_all (h : ∀ i, p i) : count p = Fintype.card ρ := by
  unfold count
  rw [Finset.filter_true_of_mem fun i _ => h i, Finset.card_univ]

theorem count_eq_zero_iff : count p = 0 ↔ ∀ i, ¬ p i := by
  simp [count, Finset.filter_eq_empty_iff]

/-- The party `r` leaves, the others stay as they are. -/
theorem count_eq_succ {r : ρ} (hp : p r) (hq : ¬ q r) (h : ∀ i, i ≠ r → (q i ↔ p i)) :
    count p = count q + 1 := by
  classical
  unfold count
  have hins : Finset.univ.filter p = insert r (Finset.univ.filter q) := by
    ext i
    by_cases hi : i = r
    · subst hi; simp [hp]
    · simp [hi, h i hi]
  rw [hins, Finset.card_insert_of_notMem (by simp [hq])]

end Counting
