import Mathlib.Data.List.Basic
import Mathlib.Tactic

/-!
# Memory that is written and read in stretches

A memory gives a value to every address.  What was written to a stretch of it is read back, and a
write to one stretch leaves the others alone.
-/

namespace Bytes

variable {α : Type*}

/-- The memory after a list was written from `start` on. -/
def write (memory : ℕ → α) (start : ℕ) (xs : List α) (a : ℕ) : α :=
  if start ≤ a then xs[a - start]?.getD (memory a) else memory a

/-- The `n` values from `start` on. -/
def read (memory : ℕ → α) (start n : ℕ) : List α := (List.range' start n).map memory

/-- Two stretches have no address in common. -/
def Apart (start n start' n' : ℕ) : Prop := start + n ≤ start' ∨ start' + n' ≤ start

variable {memory memory' : ℕ → α} {start start' n n' : ℕ} {xs : List α}

theorem Apart.symm (h : Apart start n start' n') : Apart start' n' start n := Or.symm h

@[simp] theorem length_read : (read memory start n).length = n := by simp [read]

theorem read_congr (h : ∀ a, start ≤ a → a < start + n → memory a = memory' a) :
    read memory start n = read memory' start n := by
  apply List.map_congr_left
  intro a ha
  rw [List.mem_range'_1] at ha
  exact h a ha.1 ha.2

theorem write_of_lt {a : ℕ} (h : a < start) : write memory start xs a = memory a :=
  if_neg (Nat.not_le.2 h)

theorem write_of_le {a : ℕ} (h : start + xs.length ≤ a) : write memory start xs a = memory a := by
  rw [write, if_pos (by omega), List.getElem?_eq_none (by omega), Option.getD_none]

/-- What was written is read back. -/
theorem read_write_self : read (write memory start xs) start xs.length = xs := by
  apply List.ext_getElem length_read
  intro i hi hi'
  simp only [read, List.getElem_map, List.getElem_range', Nat.one_mul, write]
  rw [if_pos (Nat.le_add_right _ _), Nat.add_sub_cancel_left, List.getElem?_eq_getElem hi',
    Option.getD_some]

/-- The other stretches are left alone. -/
theorem read_write_of_apart (h : Apart start' n start xs.length) :
    read (write memory start xs) start' n = read memory start' n := by
  apply read_congr
  intro a ha ha'
  rcases h with h | h
  · exact write_of_lt (by omega)
  · exact write_of_le (by omega)

end Bytes
