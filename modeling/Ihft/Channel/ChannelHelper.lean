import Mathlib.Data.Nat.Log
import Ihft.Lib.Counter

/-!
# Counter types and capacities

A channel is parametrized by an unsigned counter type of 8, 16, 32 or 64 bits (`seqnum_counter`).
`to2pow` rounds the requested number of places to a power of two between 4 and a quarter of the
range of the counter; its doubling loop works in `size_t`, that is modulo `2 ^ 64`.
-/

namespace Ihft.Channel

/-- The types admitted by the concept `seqnum_counter`. -/
inductive SeqnumCounter
  | uint8
  | uint16
  | uint32
  | uint64
  deriving DecidableEq, Repr

namespace SeqnumCounter

/-- `std::numeric_limits<T>::digits`. -/
def digits : SeqnumCounter → ℕ
  | uint8 => 8
  | uint16 => 16
  | uint32 => 32
  | uint64 => 64

/-- A value of type `counter_t`. -/
abbrev Val (T : SeqnumCounter) := BitVec T.digits

/-- `std::numeric_limits<T>::max()`. -/
def max (T : SeqnumCounter) : T.Val := BitVec.allOnes T.digits

variable (T : SeqnumCounter)

theorem eight_le_digits : 8 ≤ T.digits := by cases T <;> decide

theorem digits_le : T.digits ≤ 64 := by cases T <;> decide

theorem digits_pos : 0 < T.digits := T.eight_le_digits.trans_lt' (by decide)

theorem two_pow_eight_le : 2 ^ 8 ≤ 2 ^ T.digits := Nat.pow_le_pow_right (by decide) T.eight_le_digits

end SeqnumCounter

/-! ## Rounding the capacity -/

/-- `while (power < n) power *= 2;` in `size_t`, with `fuel` bounding the number of tests. -/
def doubleWhile (n : ℕ) : ℕ → ℕ → Option ℕ
  | 0, _ => none
  | fuel + 1, power =>
    if power < n then doubleWhile n fuel (power * 2 % 2 ^ 64) else some power

/-- `channel_helper::to2pow<T>(n)`. -/
def to2pow (T : SeqnumCounter) (n : ℕ) : Option ℕ :=
  let minValidPow := 4
  if n ≤ minValidPow then
    some minValidPow
  else
    let maxValidPow := 2 ^ (T.digits - 2)
    if n ≥ maxValidPow then
      some maxValidPow
    else
      (doubleWhile n 64 minValidPow).map (min maxValidPow)

/-- From `2 ^ e` on, the doubling stops at the least power of two that is at least `n`, before it
can overflow. -/
theorem doubleWhile_two_pow {n m : ℕ} (hm : m < 64) (hn : n ≤ 2 ^ m) :
    ∀ (fuel e : ℕ), e ≤ m → m < e + fuel →
      ∃ e', doubleWhile n fuel (2 ^ e) = some (2 ^ e') ∧ e ≤ e' ∧ e' ≤ m ∧ n ≤ 2 ^ e' ∧
        (e' = e ∨ 2 ^ (e' - 1) < n)
  | 0, e, he, hf => by omega
  | fuel + 1, e, he, hf => by
    by_cases h : 2 ^ e < n
    · have hlt : e < m := by
        by_contra hge
        have := Nat.pow_le_pow_right (n := 2) (by decide) (not_lt.1 hge)
        omega
      have hmod : 2 ^ e * 2 % 2 ^ 64 = 2 ^ (e + 1) := by
        rw [← pow_succ, Nat.mod_eq_of_lt (Nat.pow_lt_pow_right (by decide) (by omega))]
      obtain ⟨e', hd, h1, h2, h3, h4⟩ := doubleWhile_two_pow hm hn fuel (e + 1) hlt (by omega)
      refine ⟨e', by rw [doubleWhile, if_pos h, hmod, hd], by omega, h2, h3, .inr ?_⟩
      rcases h4 with rfl | h4
      · simpa using h
      · exact h4
    · exact ⟨e, by rw [doubleWhile, if_neg h], le_rfl, he, by omega, .inl rfl⟩

/-- The capacities `to2pow` can return. -/
def IsCapacity (T : SeqnumCounter) (C : ℕ) : Prop := ∃ e, 2 ≤ e ∧ e + 2 ≤ T.digits ∧ C = 2 ^ e

/-- `to2pow` always returns, a capacity that is at least `n` unless it is the largest one, and that
is below `2 n` unless it is the smallest one. -/
theorem to2pow_spec (T : SeqnumCounter) (n : ℕ) :
    ∃ C, to2pow T n = some C ∧ IsCapacity T C ∧ (n ≤ C ∨ C = 2 ^ (T.digits - 2)) ∧
      (C = 4 ∨ C < 2 * n) := by
  have h8 := T.eight_le_digits
  have h64 := T.digits_le
  unfold to2pow
  by_cases h4 : n ≤ 4
  · exact ⟨4, by simp [h4], ⟨2, le_rfl, by omega, rfl⟩, .inl h4, .inl rfl⟩
  by_cases hmax : n ≥ 2 ^ (T.digits - 2)
  · refine ⟨2 ^ (T.digits - 2), by simp [h4, hmax], ⟨T.digits - 2, by omega, by omega, rfl⟩,
      .inr rfl, .inr (by omega)⟩
  obtain ⟨e, hd, h1, h2, h3, h5⟩ := doubleWhile_two_pow (m := T.digits - 2) (n := n) (by omega)
    (by omega) 64 2 (by omega) (by omega)
  have hle : 2 ^ e ≤ 2 ^ (T.digits - 2) := Nat.pow_le_pow_right (by decide) h2
  refine ⟨2 ^ e, ?_, ⟨e, h1, by omega, rfl⟩, .inl h3, ?_⟩
  · have hd' : doubleWhile n 64 4 = some (2 ^ e) := hd
    simp [h4, hmax, hd', hle]
  · rcases h5 with rfl | h5
    · exact .inl rfl
    · right
      have : 2 ^ e = 2 * 2 ^ (e - 1) := by rw [← pow_succ']; congr 1; omega
      omega

namespace IsCapacity

variable {T : SeqnumCounter} {C : ℕ}

theorem four_le (h : IsCapacity T C) : 4 ≤ C := by
  obtain ⟨e, h1, -, rfl⟩ := h
  exact Nat.pow_le_pow_right (n := 2) (by decide) h1

theorem pos (h : IsCapacity T C) : 0 < C := h.four_le.trans_lt' (by decide)

/-- A capacity is at most a quarter of the range of the counter. -/
theorem two_mul_le (h : IsCapacity T C) : 2 * C ≤ 2 ^ (T.digits - 1) := by
  obtain ⟨e, -, h2, rfl⟩ := h
  rw [← pow_succ']
  exact Nat.pow_le_pow_right (by decide) (by omega)

/-- The masked wrapped counter is the place of the unbounded index. -/
theorem and_mask (h : IsCapacity T C) (i : ℕ) :
    (BitVec.ofNat T.digits i).toNat &&& (C - 1) = i % C := by
  obtain ⟨e, -, h2, rfl⟩ := h
  exact WrappingCounter.ofNat_and_two_pow_sub_one (by omega) i

/-- A capacity below a number that `to2pow` does not cut can be doubled. -/
theorem double (h : IsCapacity T C) {n : ℕ} (hmax : n < 2 ^ (T.digits - 2)) (hlt : C < n) :
    IsCapacity T (C * 2) := by
  obtain ⟨e, he2, -, rfl⟩ := h
  have he : e < T.digits - 2 := (Nat.pow_lt_pow_iff_right (by decide)).1 (hlt.trans hmax)
  exact ⟨e + 1, by omega, by omega, by rw [pow_succ]⟩

/-- Doubling a capacity does not overflow a `size_t`. -/
theorem mul_two_lt (h : IsCapacity T C) : C * 2 < 2 ^ 64 := by
  have h2 := h.two_mul_le
  have h64 := T.digits_le
  have hpow : 2 ^ (T.digits - 1) < 2 ^ 64 := Nat.pow_lt_pow_right (by decide) (by omega)
  omega

theorem le_max (h : IsCapacity T C) : C ≤ 2 ^ (T.digits - 2) := by
  obtain ⟨e, -, h2, rfl⟩ := h
  exact Nat.pow_le_pow_right (by decide) (by omega)

end IsCapacity

/-! ## The least power of two -/

/-- The least power of two that is at least `max n 4`. -/
def leastPow (n : ℕ) : ℕ := 2 ^ Nat.clog 2 (max n 4)

theorem leastPow_isLeast (n : ℕ) : IsLeast {p | (∃ e, p = 2 ^ e) ∧ max n 4 ≤ p} (leastPow n) := by
  refine ⟨⟨⟨_, rfl⟩, Nat.le_pow_clog (by decide) _⟩, ?_⟩
  rintro _ ⟨⟨e, rfl⟩, hle⟩
  exact Nat.pow_le_pow_right (by decide) (Nat.clog_le_of_le_pow hle)

theorem leastPow_mono {n m : ℕ} (h : n ≤ m) : leastPow n ≤ leastPow m :=
  Nat.pow_le_pow_right (by decide) (Nat.clog_mono_right 2 (by omega))

/-- A capacity is rounded to itself. -/
theorem IsCapacity.leastPow_eq {T : SeqnumCounter} {C : ℕ} (h : IsCapacity T C) :
    leastPow C = C := by
  rw [leastPow, max_eq_left h.four_le]
  obtain ⟨e, -, -, rfl⟩ := h
  rw [Nat.clog_pow 2 e (by decide)]

/-- `to2pow` returns the least power of two, cut at a quarter of the range of the counter. -/
theorem to2pow_eq (T : SeqnumCounter) (n : ℕ) :
    to2pow T n = some (min (leastPow n) (2 ^ (T.digits - 2))) := by
  obtain ⟨C, hto2pow, hC, hle, hlt⟩ := to2pow_spec T n
  rw [hto2pow, Option.some.injEq]
  apply le_antisymm
  · refine le_min ?_ hC.le_max
    obtain ⟨e, he2, -, rfl⟩ := hC
    have hhalf : 2 ^ (e - 1) < max n 4 := by
      have : 2 ^ e = 2 * 2 ^ (e - 1) := by rw [← pow_succ']; congr 1; omega
      omega
    have := (Nat.lt_clog_iff_pow_lt (by decide)).2 hhalf
    exact Nat.pow_le_pow_right (by decide) (by omega)
  · rcases hle with hle | hle
    · have h4 := hC.four_le
      obtain ⟨e, -, -, rfl⟩ := hC
      exact (min_le_left _ _).trans ((leastPow_isLeast n).2 ⟨⟨e, rfl⟩, max_le hle h4⟩)
    · exact hle ▸ min_le_right _ _

/-! ## The loop of `to2pow` -/

/-- The values of `power` at which `to2pow<T>(n)` tests the condition of its loop. -/
inductive LoopHead (T : SeqnumCounter) (n : ℕ) : ℕ → Prop
  | start (hmin : ¬ n ≤ 4) (hmax : ¬ n ≥ 2 ^ (T.digits - 2)) : LoopHead T n 4
  | double {power : ℕ} (h : LoopHead T n power) (hlt : power < n) :
    LoopHead T n (power * 2 % 2 ^ 64)

namespace LoopHead

variable {T : SeqnumCounter} {n power : ℕ}

theorem lt_max (h : LoopHead T n power) : n < 2 ^ (T.digits - 2) := by
  induction h with
  | start _ hmax => exact not_le.1 hmax
  | double _ _ ih => exact ih

/-- The loop runs through capacities. -/
theorem isCapacity (h : LoopHead T n power) : IsCapacity T power := by
  induction h with
  | start _ _ =>
    have h8 := T.eight_le_digits
    exact ⟨2, le_rfl, by omega, rfl⟩
  | double h hlt ih =>
    rw [Nat.mod_eq_of_lt ih.mul_two_lt]
    exact ih.double h.lt_max hlt

/-- The loop is left at one of its heads. -/
theorem of_doubleWhile : ∀ {fuel power C : ℕ}, LoopHead T n power →
    doubleWhile n fuel power = some C → LoopHead T n C ∧ n ≤ C
  | 0, _, _, _, hd => by cases hd
  | fuel + 1, power, C, h, hd => by
    rw [doubleWhile] at hd
    split_ifs at hd with hlt
    · exact of_doubleWhile (h.double hlt) hd
    · cases hd
      exact ⟨h, not_lt.1 hlt⟩

end LoopHead

/-- How `to2pow<T>(n)` ends, and what it returns: `C`. -/
structure Rounds (T : SeqnumCounter) (n C : ℕ) : Prop where
  returns : to2pow T n = some C
  /-- no doubling overflows -/
  doubles : ∀ power, LoopHead T n power → power < n → power * 2 < 2 ^ 64
  /-- the loop, where it is entered, is left with the result -/
  loop : ¬ n ≤ 4 → ¬ n ≥ 2 ^ (T.digits - 2) → LoopHead T n C ∧ n ≤ C
  least : ∀ P, IsLeast {p | (∃ e, p = 2 ^ e) ∧ max n 4 ≤ p} P →
    C = if P ≤ 2 ^ (T.digits - 2) then P else 2 ^ (T.digits - 2)
  mono : ∀ m D, to2pow T m = some D → (n ≤ m → C ≤ D) ∧ (m ≤ n → D ≤ C)
  idem : to2pow T C = some C

theorem to2pow_loop {T : SeqnumCounter} {n C : ℕ} (h : to2pow T n = some C) (hmin : ¬ n ≤ 4)
    (hmax : ¬ n ≥ 2 ^ (T.digits - 2)) : LoopHead T n C ∧ n ≤ C := by
  unfold to2pow at h
  simp only [if_neg hmin, if_neg hmax, Option.map_eq_some_iff] at h
  obtain ⟨power, hd, rfl⟩ := h
  obtain ⟨hhead, hle⟩ := LoopHead.of_doubleWhile (.start hmin hmax) hd
  rw [min_eq_right hhead.isCapacity.le_max]
  exact ⟨hhead, hle⟩

/-- `to2pow` returns for every counter type and every number: the least power of two that is at
least `max n 4`, cut at a quarter of the range of the counter, found without an overflow. -/
theorem to2pow_rounds (T : SeqnumCounter) (n : ℕ) : ∃ C, Rounds T n C := by
  obtain ⟨C, hto2pow, hC, -⟩ := to2pow_spec T n
  have heq : C = min (leastPow n) (2 ^ (T.digits - 2)) :=
    Option.some.inj (hto2pow.symm.trans (to2pow_eq T n))
  refine ⟨C, hto2pow, fun power h _ => h.isCapacity.mul_two_lt, to2pow_loop hto2pow,
    fun P hP => ?_, fun m D hm => ?_, ?_⟩
  · rw [hP.unique (leastPow_isLeast n), heq, min_def]
  · have hD : D = min (leastPow m) (2 ^ (T.digits - 2)) :=
      Option.some.inj (hm.symm.trans (to2pow_eq T m))
    rw [heq, hD]
    exact ⟨fun h => min_le_min_right _ (leastPow_mono h),
      fun h => min_le_min_right _ (leastPow_mono h)⟩
  · rw [to2pow_eq, hC.leastPow_eq, min_eq_left hC.le_max]

end Ihft.Channel
