import Mathlib.Data.List.Basic
import Mathlib.Tactic

/-!
# Searching a text

`find` looks for a pattern from a position on, as `std::string_view::find` does.  `occurrence` is
the same search from the beginning of a list; its value cuts the list into what comes before the
first occurrence and what comes after it.  `pieces` goes on cutting what comes after it.
-/

namespace Search

variable {α : Type*} [DecidableEq α]

/-- The first place at which the pattern occurs. -/
def occurrence (pat : List α) : List α → Option ℕ
  | [] => if pat = [] then some 0 else none
  | c :: s => if pat <+: c :: s then some 0 else (occurrence pat s).map (· + 1)

/-- The first place from `start` on at which the pattern occurs. -/
def find (pat s : List α) (start : ℕ) : Option ℕ :=
  if start ≤ s.length then (occurrence pat (s.drop start)).map (start + ·) else none

variable {pat s t : List α} {i : ℕ}

theorem occurrence_of_isPrefix (h : pat <+: s) : occurrence pat s = some 0 := by
  cases s with
  | nil =>
    rw [occurrence, if_pos (List.prefix_nil.1 h)]
  | cons c s => rw [occurrence, if_pos h]

theorem occurrence_cons_of_not {c : α} (h : ¬ pat <+: c :: s) :
    occurrence pat (c :: s) = (occurrence pat s).map (· + 1) := by
  rw [occurrence, if_neg h]

/-- The pattern stands where it was found. -/
theorem isPrefix_drop_of_occurrence (h : occurrence pat s = some i) : pat <+: s.drop i := by
  induction s generalizing i with
  | nil =>
    rw [occurrence] at h
    split_ifs at h with hpat
    rw [hpat]
    exact List.nil_prefix
  | cons c s ih =>
    rw [occurrence] at h
    split_ifs at h with hpat
    · cases h
      exact hpat
    · obtain ⟨j, hj, rfl⟩ := Option.map_eq_some_iff.1 h
      exact ih hj

theorem length_le_of_occurrence (h : occurrence pat s = some i) : i + pat.length ≤ s.length := by
  induction s generalizing i with
  | nil =>
    rw [occurrence] at h
    split_ifs at h with hpat
    cases h
    simp [hpat]
  | cons c s ih =>
    rw [occurrence] at h
    split_ifs at h with hpat
    · cases h
      simpa using hpat.length_le
    · obtain ⟨j, hj, rfl⟩ := Option.map_eq_some_iff.1 h
      have hle := ih hj
      rw [List.length_cons]
      omega

/-- A list in which the pattern was found. -/
theorem eq_append_of_occurrence (h : occurrence pat s = some i) :
    s = s.take i ++ pat ++ s.drop (i + pat.length) := by
  obtain ⟨rest, hrest⟩ := isPrefix_drop_of_occurrence h
  rw [← List.drop_drop, ← hrest, List.drop_left, List.append_assoc, hrest, List.take_append_drop]

/-- The search fails if and only if the pattern occurs nowhere. -/
theorem occurrence_eq_none_iff : occurrence pat s = none ↔ ¬ pat <:+: s := by
  induction s with
  | nil =>
    rw [occurrence, List.infix_nil]
    split_ifs with hpat <;> simp [hpat]
  | cons c s ih =>
    rw [occurrence, List.infix_cons_iff]
    split_ifs with hpat
    · simp [hpat]
    · rw [Option.map_eq_none_iff, ih]
      simp [hpat]

/-- The search of a single element stops at the first one. -/
theorem notMem_take_of_occurrence {c : α} (h : occurrence [c] s = some i) : c ∉ s.take i := by
  induction s generalizing i with
  | nil => simp [occurrence] at h
  | cons d s ih =>
    rw [occurrence] at h
    split_ifs at h with hpat
    · cases h
      simp
    · obtain ⟨j, hj, rfl⟩ := Option.map_eq_some_iff.1 h
      have hne : c ≠ d := fun heq => hpat (by simp [heq])
      rw [List.take_succ_cons, List.mem_cons, not_or]
      exact ⟨hne, ih hj⟩

theorem notMem_of_occurrence {c : α} (h : occurrence [c] s = none) : c ∉ s := by
  rw [occurrence_eq_none_iff] at h
  intro hmem
  obtain ⟨l, r, rfl⟩ := List.append_of_mem hmem
  exact h ⟨l, r, by simp⟩

theorem find_of_le {start : ℕ} (h : start ≤ s.length) :
    find pat s start = (occurrence pat (s.drop start)).map (start + ·) := if_pos h

/-! ## Pieces -/

/-- The pattern does not occur before the place where it was found. -/
theorem not_isPrefix_drop_of_lt {j : ℕ} (h : occurrence pat s = some i) (hj : j < i) :
    ¬ pat <+: s.drop j := by
  induction s generalizing i j with
  | nil =>
    rw [occurrence] at h
    split_ifs at h
    cases h
    omega
  | cons c s ih =>
    rw [occurrence] at h
    split_ifs at h with hpat
    · cases h
      omega
    · obtain ⟨k, hk, rfl⟩ := Option.map_eq_some_iff.1 h
      cases j with
      | zero => exact hpat
      | succ j => exact ih hk (by omega)

theorem not_infix_take_of_occurrence (hpat : pat ≠ []) (h : occurrence pat s = some i) :
    ¬ pat <:+: s.take i := by
  rintro ⟨l, r, heq⟩
  have hlen := congrArg List.length heq
  rw [List.length_append, List.length_append, List.length_take] at hlen
  have hpos := List.length_pos_iff.2 hpat
  apply not_isPrefix_drop_of_lt h (show l.length < i by omega)
  refine ⟨r ++ s.drop i, ?_⟩
  conv_rhs => rw [← List.take_append_drop i s, ← heq]
  simp

/-- The pieces between the first occurrences of the pattern, up to `n` of them. -/
def pieces (pat : List α) : ℕ → List α → List (List α)
  | 0, s => [s]
  | n + 1, s =>
    match occurrence pat s with
    | none => [s]
    | some i => s.take i :: pieces pat n (s.drop (i + pat.length))

variable {n : ℕ}

@[simp] theorem pieces_zero : pieces pat 0 s = [s] := rfl

theorem pieces_of_none (h : occurrence pat s = none) : pieces pat n s = [s] := by
  cases n with
  | zero => rfl
  | succ n => rw [pieces, h]

theorem pieces_of_some (h : occurrence pat s = some i) :
    pieces pat (n + 1) s = s.take i :: pieces pat n (s.drop (i + pat.length)) := by
  rw [pieces, h]

@[simp] theorem pieces_ne_nil : pieces pat n s ≠ [] := by
  cases n with
  | zero => simp
  | succ n =>
    unfold pieces
    cases occurrence pat s <;> simp

theorem length_pieces_le : (pieces pat n s).length ≤ n + 1 := by
  induction n generalizing s with
  | zero => simp
  | succ n ih =>
    unfold pieces
    cases occurrence pat s with
    | none => simp
    | some i => simpa using ih

/-- A text with few occurrences has no more pieces. -/
theorem pieces_eq_of_length_le (h : (pieces pat (n + 1) s).length ≤ n + 1) :
    pieces pat (n + 1) s = pieces pat n s := by
  induction n generalizing s with
  | zero =>
    cases hi : occurrence pat s with
    | none => rw [pieces_of_none hi, pieces_of_none hi]
    | some i =>
      rw [pieces_of_some hi] at h
      simp at h
  | succ n ih =>
    cases hi : occurrence pat s with
    | none => rw [pieces_of_none hi, pieces_of_none hi]
    | some i =>
      rw [pieces_of_some hi, List.length_cons, Nat.add_le_add_iff_right] at h
      rw [pieces_of_some hi, pieces_of_some hi, ih h]

/-- The pieces with the pattern between them are the text. -/
theorem intercalate_pieces : pat.intercalate (pieces pat n s) = s := by
  induction n generalizing s with
  | zero => simp
  | succ n ih =>
    cases h : occurrence pat s with
    | none => rw [pieces_of_none h, List.intercalate_singleton]
    | some i =>
      rw [pieces_of_some h, List.intercalate_cons_of_ne_nil pieces_ne_nil, ih]
      exact (eq_append_of_occurrence h).symm

/-- If the pieces are fewer than they could be, the pattern is in none of them. -/
theorem not_infix_of_mem_pieces (hpat : pat ≠ []) (h : (pieces pat n s).length ≤ n) :
    ∀ t ∈ pieces pat n s, ¬ pat <:+: t := by
  induction n generalizing s with
  | zero => simp at h
  | succ n ih =>
    cases hi : occurrence pat s with
    | none =>
      rw [pieces_of_none hi]
      intro t ht
      rw [List.mem_singleton.1 ht]
      exact occurrence_eq_none_iff.1 hi
    | some i =>
      rw [pieces_of_some hi] at h ⊢
      rw [List.length_cons, Nat.add_le_add_iff_right] at h
      intro t ht
      rcases List.mem_cons.1 ht with rfl | ht
      · exact not_infix_take_of_occurrence hpat hi
      · exact ih h t ht

/-- A character that begins no occurrence belongs to the first piece. -/
theorem pieces_cons {c : α} (h : ¬ pat <+: c :: s) :
    pieces pat n (c :: s) = (pieces pat n s).modifyHead (c :: ·) := by
  cases n with
  | zero => rfl
  | succ n =>
    have hcons := occurrence_cons_of_not h
    cases hi : occurrence pat s with
    | none => rw [pieces_of_none hi, pieces_of_none (by rw [hcons, hi]; rfl), List.modifyHead_cons]
    | some i =>
      rw [pieces_of_some hi, pieces_of_some (by rw [hcons, hi]; rfl), List.modifyHead_cons,
        List.take_succ_cons, Nat.add_right_comm, List.drop_succ_cons]

theorem pieces_of_isPrefix (h : pat <+: s) :
    pieces pat (n + 1) s = [] :: pieces pat n (s.drop pat.length) := by
  rw [pieces_of_some (occurrence_of_isPrefix h), List.take_zero, Nat.zero_add]

end Search
