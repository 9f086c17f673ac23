import Mathlib.Data.String.Basic
import Mathlib.Tactic

/-!
# Decimal numbers as texts

Lists of digits with their values and their lexicographic order, and numbers that are filled up with
zeros to a width.
-/

namespace Decimal

section Lex

variable {α : Type*} [LinearOrder α]

/-- Behind lists of one length the order goes on with what follows them. -/
theorem append_lt_append_iff {l l' x y : List α} (h : l.length = l'.length) :
    l ++ x < l' ++ y ↔ l < l' ∨ l = l' ∧ x < y := by
  induction l generalizing l' with
  | nil =>
    rw [List.length_nil, eq_comm, List.length_eq_zero_iff] at h
    simp [h]
  | cons a l ih =>
    obtain ⟨b, l', rfl⟩ := List.exists_cons_of_length_eq_add_one h.symm
    rw [List.cons_append, List.cons_append, List.cons_lt_cons_iff, List.cons_lt_cons_iff,
      ih (by simpa using h), List.cons.injEq]
    tauto

end Lex

/-! ## Digits -/

/-- The list has digits only. -/
def Digits (l : List Char) : Prop := ∀ c ∈ l, c.isDigit

/-- The value of the digits. -/
def value (l : List Char) : ℕ := Nat.ofDigitChars 10 l 0

/-- The value of a digit. -/
def digit (c : Char) : ℕ := c.toNat - '0'.toNat

variable {l l' : List Char} {c : Char}

theorem value_cons : value (c :: l) = 10 ^ l.length * digit c + value l := by
  rw [value, Nat.ofDigitChars_cons, Nat.ofDigitChars_eq_ofDigitChars_zero]
  simp [value, digit]

theorem toNat_of_isDigit (h : c.isDigit) : 48 ≤ c.toNat ∧ c.toNat ≤ 57 := Char.isDigit_iff_toNat.1 h

theorem digit_lt (h : c.isDigit) : digit c < 10 := by
  have hbounds := toNat_of_isDigit h
  change c.toNat - 48 < 10
  omega

theorem digit_lt_digit {c' : Char} (h : c.isDigit) (h' : c'.isDigit) :
    digit c < digit c' ↔ c < c' := by
  have hbounds := toNat_of_isDigit h
  have hbounds' := toNat_of_isDigit h'
  change c.toNat - 48 < c'.toNat - 48 ↔ c.toNat < c'.toNat
  omega

theorem digit_inj {c' : Char} (h : c.isDigit) (h' : c'.isDigit) : digit c = digit c' ↔ c = c' := by
  have hlt := digit_lt_digit h h'
  have hgt := digit_lt_digit h' h
  constructor
  · intro heq
    exact le_antisymm (not_lt.1 (hgt.not.1 heq.not_gt)) (not_lt.1 (hlt.not.1 heq.not_lt))
  · exact congrArg digit

theorem value_lt (h : Digits l) : value l < 10 ^ l.length := by
  induction l with
  | nil => simp [value]
  | cons c l ih =>
    obtain ⟨hc, hl⟩ := List.forall_mem_cons.1 h
    have hdigit := digit_lt hc
    have hvalue := ih hl
    rw [value_cons, List.length_cons, pow_succ]
    nlinarith

/-- The order of digits of one length is that of the values. -/
theorem lt_iff_value_lt (h : Digits l) (h' : Digits l') (hlength : l.length = l'.length) :
    l < l' ↔ value l < value l' := by
  induction l generalizing l' with
  | nil =>
    rw [List.length_nil, eq_comm, List.length_eq_zero_iff] at hlength
    simp [hlength]
  | cons c l ih =>
    obtain ⟨c', l', rfl⟩ := List.exists_cons_of_length_eq_add_one hlength.symm
    obtain ⟨hc, hl⟩ := List.forall_mem_cons.1 h
    obtain ⟨hc', hl'⟩ := List.forall_mem_cons.1 h'
    have hlen : l.length = l'.length := by simpa using hlength
    have hvalue := value_lt hl
    have hvalue' := value_lt hl'
    rw [List.cons_lt_cons_iff, ih hl hl' hlen, ← digit_lt_digit hc hc', ← digit_inj hc hc',
      value_cons, value_cons, hlen]
    rw [hlen] at hvalue
    rcases lt_trichotomy (digit c) (digit c') with hd | hd | hd
    · have hmul := Nat.mul_le_mul_left (10 ^ l'.length) hd
      rw [Nat.mul_succ] at hmul
      exact iff_of_true (.inl hd) (by omega)
    · simp [hd]
    · have hmul := Nat.mul_le_mul_left (10 ^ l'.length) hd
      rw [Nat.mul_succ] at hmul
      exact iff_of_false (by omega) (by omega)

/-- A zero is before every number that does not begin with one. -/
theorem zero_lt_append (h : Digits l') (hlead : 10 ^ l'.length ≤ 10 * value l') (x y : List Char) :
    '0' :: x < l' ++ y := by
  cases l' with
  | nil => simp [value] at hlead
  | cons c l' =>
    obtain ⟨hc, hl'⟩ := List.forall_mem_cons.1 h
    have hvalue := value_lt hl'
    rw [value_cons, List.length_cons, pow_succ] at hlead
    refine List.cons_lt_cons_iff.2 (.inl ((digit_lt_digit (by decide) hc).1 ?_))
    rw [show digit '0' = 0 from rfl, Nat.pos_iff_ne_zero]
    intro hzero
    rw [hzero] at hlead
    omega

/-! ## Numbers of a width -/

/-- The digits of the number, filled up with zeros. -/
def pad (w n : ℕ) : List Char :=
  List.replicate (w - (Nat.toDigits 10 n).length) '0' ++ Nat.toDigits 10 n

variable {w n k : ℕ}

theorem digits_toDigits : Digits (Nat.toDigits 10 n) := fun _ hc =>
  Nat.isDigit_of_mem_toDigits (by decide) (by decide) hc

theorem digits_pad : Digits (pad w n) := by
  intro c hc
  rcases List.mem_append.1 hc with hc | hc
  · rw [List.eq_of_mem_replicate hc]
    rfl
  · exact digits_toDigits c hc

@[simp] theorem value_pad : value (pad w n) = n := by
  rw [value, pad, Nat.ofDigitChars_append, Nat.ofDigitChars_replicate_zero, Nat.mul_zero,
    Nat.ofDigitChars_ten_toDigits]

theorem length_pad_le (h : n < 10 ^ k) (hk : 0 < k) (hw : w ≤ k) : (pad w n).length ≤ k := by
  have hlen := (Nat.length_toDigits_le_iff (b := 10) (by decide) hk).2 h
  rw [pad, List.length_append, List.length_replicate]
  omega

theorem length_pad_of_lt (h : n < 10 ^ w) (hw : 0 < w) : (pad w n).length = w := by
  have hle := length_pad_le h hw le_rfl
  rw [pad, List.length_append, List.length_replicate] at hle ⊢
  omega

theorem lt_length_pad (h : 10 ^ k ≤ n) : k < (pad w n).length := by
  have hvalue := value_lt (digits_pad (w := w) (n := n))
  rw [value_pad] at hvalue
  exact (Nat.pow_lt_pow_iff_right (by decide)).1 (h.trans_lt hvalue)

theorem pad_inj {m : ℕ} : pad w m = pad w n ↔ m = n := by
  constructor
  · intro heq
    have hvalue := congrArg value heq
    rwa [value_pad, value_pad] at hvalue
  · rintro rfl
    rfl

/-- Numbers of one length are in the order of their texts. -/
theorem pad_lt_iff {m : ℕ} (h : (pad w m).length = (pad w n).length) :
    pad w m < pad w n ↔ m < n := by
  rw [lt_iff_value_lt digits_pad digits_pad h, value_pad, value_pad]

theorem pad_append_lt_iff {m : ℕ} {x y : List Char} (h : (pad w m).length = (pad w n).length) :
    pad w m ++ x < pad w n ++ y ↔ m < n ∨ m = n ∧ x < y := by
  rw [append_lt_append_iff h, pad_lt_iff h, pad_inj]

/-! ## Fractions -/

/-- The digits behind the dot, read as a fraction. -/
def fraction (l : List Char) : ℚ := value l / 10 ^ l.length

/-- With digits missing or too many only zero is read right. -/
theorem fraction_eq_iff : fraction l = value l / 10 ^ k ↔ value l = 0 ∨ l.length = k := by
  have hpow : ∀ m : ℕ, (10 : ℚ) ^ m ≠ 0 := fun m => by positivity
  rw [fraction, div_eq_div_iff (hpow _) (hpow _)]
  constructor
  · intro heq
    by_cases hzero : value l = 0
    · exact .inl hzero
    · have hcancel := mul_left_cancel₀ (Nat.cast_ne_zero.2 hzero) heq
      exact .inr (pow_right_injective₀ (by norm_num) (by norm_num) hcancel).symm
  · rintro (hzero | hlen)
    · simp [hzero]
    · rw [hlen]

end Decimal
