import Mathlib.Data.List.Basic
import Mathlib.Tactic

/-!
# The lines of a text

`lines` is what a loop over `std::getline` goes through: the pieces between the newlines, without an
empty piece at the end.
-/

namespace Lines

/-- The lines of a text; a newline at its end starts no other line. -/
def lines (text : List Char) : List (List Char) :=
  let pieces := text.splitOn '\n'
  if pieces.getLast? = some [] then pieces.dropLast else pieces

/-- A newline behind every line. -/
def unlines (ls : List (List Char)) : List Char := ls.flatMap (· ++ ['\n'])

variable {l : List Char} {ls : List (List Char)}

theorem unlines_cons : unlines (l :: ls) = l ++ '\n' :: unlines ls := by
  simp [unlines]

theorem splitOn_unlines (h : ∀ l ∈ ls, '\n' ∉ l) : (unlines ls).splitOn '\n' = ls ++ [[]] := by
  induction ls with
  | nil => rfl
  | cons l ls ih =>
    rw [List.forall_mem_cons] at h
    rw [unlines_cons, List.splitOn, List.splitOnP_append_cons_of_forall_mem _ _ (by simp),
      ← List.splitOn, ih h.2]
    · rfl
    · exact fun c hc => beq_false_of_ne fun heq => h.1 (heq ▸ hc)

/-- Lines that were written down are read back. -/
theorem lines_unlines (h : ∀ l ∈ ls, '\n' ∉ l) : lines (unlines ls) = ls := by
  simp [lines, splitOn_unlines h]

end Lines
