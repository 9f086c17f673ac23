import Mathlib.Data.Nat.ModEq
import Mathlib.Tactic

/-!
# Wrapping counters and residues in a window

Facts about unbounded indices seen through machine words: the place `i % C` of an index, the low
bits of a wrapped counter, and the half-range mask that keeps one bit of a counter free.
A window of length `C` holds one index of every residue (`mod_injOn_window`,
`exists_mod_eq_of_window`), and two indices at most `C` apart never share a half-range mask unless
they are equal, as long as `C` is at most a quarter of the counter's range (`stamp_ne_of_lt`).
-/

namespace WrappingCounter

/-! ## Residues in a window -/

theorem mod_injOn_window {W C i j : ℕ} (hi : W ≤ i) (hi' : i < W + C) (hj : W ≤ j)
    (hj' : j < W + C) (h : i % C = j % C) : i = j := by
  have hdvd : C ∣ Int.natAbs ((i : ℤ) - j) := by
    have := (Nat.modEq_iff_dvd.1 (show j ≡ i [MOD C] from h.symm))
    exact Int.natCast_dvd.1 this
  by_contra hne
  have := Nat.le_of_dvd (by omega) hdvd
  omega

theorem exists_mod_eq_of_window {C b : ℕ} (W : ℕ) (hb : b < C) :
    ∃ k, W ≤ k ∧ k < W + C ∧ k % C = b := by
  by_cases h : W % C ≤ b
  · refine ⟨C * (W / C) + b, ?_, ?_, by rw [Nat.mul_add_mod, Nat.mod_eq_of_lt hb]⟩
    · have := Nat.div_add_mod W C; omega
    · have := Nat.div_add_mod W C; omega
  · refine ⟨C * (W / C) + C + b, ?_, ?_, ?_⟩
    · have := Nat.div_add_mod W C; have := Nat.mod_lt W (show 0 < C by omega); omega
    · have := Nat.div_add_mod W C; omega
    · rw [add_assoc, Nat.mul_add_mod, Nat.add_mod_left, Nat.mod_eq_of_lt hb]

/-- Walking the places `0, …, n - 1` enumerates the indices of a window that satisfy `p`, each once;
the place of the slot `k` then shows the index `k - C`. -/
theorem flatMap_window {β : Type*} {C W : ℕ} {p : ℕ → Prop} [DecidablePred p]
    (hp : ∀ i, p i → i < W ∧ W ≤ i + C) {f : ℕ → List β} {g : ℕ → β}
    (hf : ∀ k, W ≤ k → k < W + C → f (k % C) = if C ≤ k ∧ p (k - C) then [g (k - C)] else []) :
    ∀ n ≤ C, ∃ is : List ℕ, (List.range n).flatMap f = is.map g ∧ is.Nodup ∧
      ∀ i, i ∈ is ↔ p i ∧ i % C < n
  | 0, _ => ⟨[], rfl, List.nodup_nil, by simp⟩
  | n + 1, hn => by
    obtain ⟨is, h1, h2, h3⟩ := flatMap_window hp hf n (by omega)
    obtain ⟨k, hk, hk', hkn⟩ := exists_mod_eq_of_window W (show n < C by omega)
    have hstep := hf k hk hk'
    rw [hkn] at hstep
    have honly : ∀ i, p i → i % C = n → i = k - C ∧ C ≤ k := by
      intro i hi hin
      obtain ⟨hlt, hle⟩ := hp i hi
      have := mod_injOn_window hle (by omega) hk hk' (by rw [Nat.add_mod_right, hin, hkn])
      omega
    rw [List.range_succ, List.flatMap_append, h1, List.flatMap_singleton, hstep]
    split_ifs with hocc
    · have hmod : (k - C) % C = n := by
        rw [← hkn]
        conv_rhs => rw [← Nat.sub_add_cancel hocc.1, Nat.add_mod_right]
      refine ⟨is ++ [k - C], by simp, ?_, fun i => ?_⟩
      · refine List.nodup_append.2 ⟨h2, List.nodup_singleton _, ?_⟩
        intro x hx y hy hxy
        rw [List.mem_singleton.1 hy] at hxy
        have := ((h3 x).1 hx).2
        rw [hxy, hmod] at this
        omega
      · rw [List.mem_append, h3, List.mem_singleton]
        constructor
        · rintro (⟨hi, hlt⟩ | rfl)
          · exact ⟨hi, by omega⟩
          · exact ⟨hocc.2, by omega⟩
        · rintro ⟨hi, hlt⟩
          by_cases hin : i % C = n
          · exact .inr (honly i hi hin).1
          · exact .inl ⟨hi, by omega⟩
    · refine ⟨is, by simp, h2, fun i => ?_⟩
      rw [h3]
      constructor
      · rintro ⟨hi, hlt⟩
        exact ⟨hi, by omega⟩
      · rintro ⟨hi, hlt⟩
        refine ⟨hi, ?_⟩
        by_contra hge
        obtain ⟨rfl, hle⟩ := honly i hi (by omega)
        exact hocc ⟨hle, hi⟩

/-! ## Wrapped counters -/

variable {w : ℕ}

theorem ofNat_succ (i : ℕ) : BitVec.ofNat w i + 1 = BitVec.ofNat w (i + 1) := by
  simp [BitVec.ofNat_add]

theorem ofNat_sub_one {n : ℕ} (h : 0 < n) : BitVec.ofNat w n - 1 = BitVec.ofNat w (n - 1) := by
  obtain ⟨m, rfl⟩ := Nat.exists_eq_add_of_le h
  rw [add_comm, ← ofNat_succ, Nat.add_sub_cancel, BitVec.add_sub_cancel]

theorem ofNat_inj {n m : ℕ} (hn : n < 2 ^ w) (hm : m < 2 ^ w) :
    BitVec.ofNat w n = BitVec.ofNat w m ↔ n = m := by
  rw [← BitVec.toNat_inj, BitVec.toNat_ofNat, BitVec.toNat_ofNat, Nat.mod_eq_of_lt hn,
    Nat.mod_eq_of_lt hm]

/-- Masking a wrapped counter with `2 ^ e - 1` gives the residue of the unbounded index. -/
theorem ofNat_and_two_pow_sub_one {e : ℕ} (he : e ≤ w) (i : ℕ) :
    (BitVec.ofNat w i).toNat &&& (2 ^ e - 1) = i % 2 ^ e := by
  rw [Nat.and_two_pow_sub_one_eq_mod, BitVec.toNat_ofNat, Nat.mod_mod_of_dvd _ (pow_dvd_pow 2 he)]

/-! ## The half-range mask -/

/-- All bits of the counter but the highest. -/
def halfMask (w : ℕ) : BitVec w := BitVec.allOnes w >>> 1

theorem halfMask_toNat (hw : 0 < w) : (halfMask w).toNat = 2 ^ (w - 1) - 1 := by
  obtain ⟨v, rfl⟩ := Nat.exists_eq_add_of_le hw
  rw [halfMask, BitVec.toNat_ushiftRight, BitVec.toNat_allOnes, Nat.shiftRight_eq_div_pow,
    Nat.add_sub_cancel_left, pow_add]
  have := Nat.one_le_two_pow (n := v)
  omega

/-- The half-range mask of the wrapped index `i`. -/
def stamp (w i : ℕ) : BitVec w := BitVec.ofNat w i &&& halfMask w

theorem stamp_toNat (hw : 0 < w) (i : ℕ) : (stamp w i).toNat = i % 2 ^ (w - 1) := by
  rw [stamp, BitVec.toNat_and, halfMask_toNat hw, ofNat_and_two_pow_sub_one (by omega)]

/-- The highest bit of a masked counter is free, so it is never the largest value. -/
theorem stamp_ne_allOnes (hw : 0 < w) (i : ℕ) : stamp w i ≠ BitVec.allOnes w := by
  intro h
  have h1 := congrArg BitVec.toNat h
  rw [stamp_toNat hw, BitVec.toNat_allOnes] at h1
  have h2 := Nat.mod_lt i (Nat.two_pow_pos (w - 1))
  have h3 : 2 ^ w = 2 * 2 ^ (w - 1) := by
    rw [← pow_succ']; congr 1; omega
  omega

/-- Two masked indices less than half a range apart are different. -/
theorem stamp_ne_of_lt (hw : 0 < w) {i j : ℕ} (hij : i < j) (hj : j < i + 2 ^ (w - 1)) :
    stamp w i ≠ stamp w j := by
  intro h
  have h1 := congrArg BitVec.toNat h
  rw [stamp_toNat hw, stamp_toNat hw] at h1
  have := mod_injOn_window (W := i) le_rfl (by omega) hij.le hj h1
  omega

end WrappingCounter
