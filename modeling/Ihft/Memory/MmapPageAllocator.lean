import Ihft.Memory.ArenaAllocator

/-!
# Pages from the kernel

`mmap_page_allocator` asks the kernel for whole pages and writes a byte to each of them.  The number
of bytes, the number of pages and the length of the mapping are words of 64 bits.
-/

namespace Ihft.Memory

open Rounding

/-- The page sizes that the allocator can be instantiated with. -/
inductive PageSize
  | fourKb
  | twoMb
  | oneGb
  deriving DecidableEq, Repr

/-- `_4kb_`, `_2mb_` and `_1gb_`. -/
def PageSize.bytes : PageSize → ℕ
  | .fourKb => 2 ^ 12
  | .twoMb => 2 ^ 21
  | .oneGb => 2 ^ 30

namespace PageSize

variable (psize : PageSize)

theorem two_le_bytes : 2 ≤ psize.bytes := by cases psize <;> decide

theorem bytes_pos : 0 < psize.bytes := by cases psize <;> decide

theorem bytes_lt : psize.bytes < 2 ^ 64 := by cases psize <;> decide

theorem bytes_dvd_word : psize.bytes ∣ 2 ^ 64 := by cases psize <;> decide

end PageSize

/-- What the kernel answers to `mmap`: `none` stands for `MAP_FAILED`, and everything else is the
start of a fresh mapping of the length that was asked for. -/
structure Kernel where
  mmap : UInt64 → Option UInt64
  pos : ∀ length p, mmap length = some p → 0 < p
  inside : ∀ length p, mmap length = some p → p.toNat + length.toNat ≤ 2 ^ 64

/-- `MAP_FAILED`. -/
def mapFailed : UInt64 := 0 - 1

/-- What a call leaves behind: its result, the mapping that it made, by its start and length, and
the bytes that it wrote. -/
structure PageResult where
  ptr : UInt64
  mapping : Option (UInt64 × UInt64)
  touched : List UInt64
  deriving DecidableEq, Repr

namespace MmapPageAllocator

variable (kernel : Kernel) (T : ValueType) (psize : PageSize)

def calcPagesCount (n : UInt64) : UInt64 :=
  let size := n * .ofNat T.size
  size / .ofNat psize.bytes + if size % .ofNat psize.bytes > 0 then 1 else 0

/-- The loop that writes to the pages, `i` of which are left. -/
def touch (ptr : UInt64) : (i : ℕ) → List UInt64
  | 0 => []
  | i + 1 => ptr :: touch (ptr + .ofNat psize.bytes) i

def allocatePages (numberOfPages : UInt64) (touchMemory : Bool) : PageResult :=
  if numberOfPages > 0 then
    let length := numberOfPages * .ofNat psize.bytes
    let p := (kernel.mmap length).getD mapFailed
    { ptr := p
      mapping := (kernel.mmap length).map (·, length)
      touched := if touchMemory ∧ p ≠ 0 then touch psize p numberOfPages.toNat else [] }
  else
    ⟨0, none, []⟩

def allocate (n : UInt64) : PageResult :=
  allocatePages kernel psize (calcPagesCount T psize n) true

/-- The arguments of `munmap`. -/
def deallocatePages (p numberOfPages : UInt64) : UInt64 × UInt64 :=
  (p, numberOfPages * .ofNat psize.bytes)

def deallocate (ptr n : UInt64) : UInt64 × UInt64 :=
  deallocatePages psize ptr (calcPagesCount T psize n)

/-- The result is null or has room for `n` elements, every byte that is written is in the mapping,
and `deallocate` gives back the length that was mapped. -/
structure Safe (n : UInt64) : Prop where
  room : (allocate kernel T psize n).ptr = 0 ∨ ∃ length,
    (allocate kernel T psize n).mapping = some ((allocate kernel T psize n).ptr, length) ∧
      n.toNat * T.size ≤ length.toNat
  inside : ∀ a ∈ (allocate kernel T psize n).touched, ∃ p length,
    (allocate kernel T psize n).mapping = some (p, length) ∧ p.toNat ≤ a.toNat ∧
      a.toNat < p.toNat + length.toNat
  unmapped : (deallocate T psize (allocate kernel T psize n).ptr n).2 =
    match (allocate kernel T psize n).mapping with
    | none => 0
    | some (_, length) => length

/-! ## The length of a mapping -/

section Length

variable {T psize} {n : UInt64}

/-- The number of bytes as the allocator computes it. -/
def wrapped (T : ValueType) (n : UInt64) : ℕ := n.toNat * T.size % 2 ^ 64

theorem wrapped_lt : wrapped T n < 2 ^ 64 := Nat.mod_lt _ (by decide)

theorem calcPagesCount_toNat : (calcPagesCount T psize n).toNat =
    wrapped T n / psize.bytes + if wrapped T n % psize.bytes > 0 then 1 else 0 := by
  have hsize : n * .ofNat T.size = .ofNat (wrapped T n) := by
    rw [wrapped, UInt64.ofNat_mod_size, UInt64.ofNat_mul, UInt64.ofNat_toNat]
  have hdiv : UInt64.ofNat (wrapped T n) / .ofNat psize.bytes =
      .ofNat (wrapped T n / psize.bytes) := by
    rw [UInt64.ofNat_div wrapped_lt psize.bytes_lt]
  have hmod : UInt64.ofNat (wrapped T n) % .ofNat psize.bytes =
      .ofNat (wrapped T n % psize.bytes) := by
    rw [UInt64.ofNat_mod wrapped_lt psize.bytes_lt]
  have hrest : wrapped T n % psize.bytes < 2 ^ 64 :=
    (Nat.mod_lt _ psize.bytes_pos).trans psize.bytes_lt
  have hif : (if UInt64.ofNat (wrapped T n % psize.bytes) > 0 then (1 : UInt64) else 0) =
      .ofNat (if wrapped T n % psize.bytes > 0 then 1 else 0) := by
    simp only [gt_iff_lt, UInt64.lt_iff_toNat_lt, UInt64.toNat_ofNat_of_lt' hrest,
      UInt64.toNat_zero]
    split_ifs <;> rfl
  have hhalf : wrapped T n / psize.bytes ≤ wrapped T n / 2 :=
    Nat.div_le_div_left psize.two_le_bytes (by decide)
  have hlt := wrapped_lt (T := T) (n := n)
  unfold calcPagesCount
  simp only [hsize, hdiv, hmod, hif]
  rw [← UInt64.ofNat_add, UInt64.toNat_ofNat_of_lt']
  change _ < 2 ^ 64
  split_ifs <;> omega

/-- The pages hold the wrapped number of bytes, rounded up. -/
theorem calcPagesCount_mul : (calcPagesCount T psize n).toNat * psize.bytes =
    roundUp (wrapped T n) psize.bytes := by
  rw [calcPagesCount_toNat, roundUp_eq_mul _ _ psize.bytes_pos]

/-- The length that is asked for. -/
def length (T : ValueType) (psize : PageSize) (n : UInt64) : UInt64 :=
  calcPagesCount T psize n * .ofNat psize.bytes

theorem length_eq : length T psize n = .ofNat (roundUp (wrapped T n) psize.bytes) := by
  rw [length, ← calcPagesCount_mul, UInt64.ofNat_mul, UInt64.ofNat_toNat]

theorem calcPagesCount_eq_zero : calcPagesCount T psize n = 0 ↔ 2 ^ 64 ∣ n.toNat * T.size := by
  have hmul : (calcPagesCount T psize n).toNat * psize.bytes = roundUp (wrapped T n) psize.bytes :=
    calcPagesCount_mul
  have hpos := psize.bytes_pos
  rw [Nat.dvd_iff_mod_eq_zero, ← wrapped, ← UInt64.toNat_inj, UInt64.toNat_zero]
  constructor
  · intro hzero
    rw [hzero, Nat.zero_mul] at hmul
    exact Nat.le_zero.1 (le_roundUp.trans hmul.symm.le)
  · intro hzero
    rw [hzero, roundUp_of_dvd (dvd_zero _)] at hmul
    exact (Nat.mul_eq_zero.1 hmul).resolve_right hpos.ne'

/-- A number of bytes that leaves room for a page below the end of the address space is rounded up
without a wrap. -/
theorem length_toNat (h : n.toNat * T.size + psize.bytes ≤ 2 ^ 64) :
    (length T psize n).toNat = roundUp (n.toNat * T.size) psize.bytes := by
  have hpos := psize.bytes_pos
  have hwrapped : wrapped T n = n.toNat * T.size := Nat.mod_eq_of_lt (by omega)
  have hdvd : psize.bytes ∣ 2 ^ 64 - psize.bytes := Nat.dvd_sub psize.bytes_dvd_word dvd_rfl
  have hle : roundUp (n.toNat * T.size) psize.bytes ≤ 2 ^ 64 - psize.bytes :=
    roundUp_le hpos (by omega) hdvd
  rw [length_eq, hwrapped, UInt64.toNat_ofNat_of_lt']
  change _ < 2 ^ 64
  omega

/-- Every other mapping is too small. -/
theorem length_lt (hzero : ¬ 2 ^ 64 ∣ n.toNat * T.size)
    (h : 2 ^ 64 < n.toNat * T.size + psize.bytes) :
    (length T psize n).toNat < n.toNat * T.size := by
  rcases Nat.lt_or_ge (n.toNat * T.size) (2 ^ 64) with hlt | hge
  · have hwrapped : wrapped T n = n.toNat * T.size := Nat.mod_eq_of_lt hlt
    have hround : roundUp (n.toNat * T.size) psize.bytes = 2 ^ 64 := by
      apply Nat.le_antisymm (roundUp_le psize.bytes_pos hlt.le psize.bytes_dvd_word)
      by_contra hlarge
      have hle := Nat.le_of_lt_add_of_dvd (show 2 ^ 64 <
        roundUp (n.toNat * T.size) psize.bytes + psize.bytes from
          h.trans_le (Nat.add_le_add_right le_roundUp _)) psize.bytes_dvd_word
          (dvd_roundUp psize.bytes_pos)
      exact hlarge hle
    rw [length_eq, hwrapped, hround]
    exact Nat.pos_of_ne_zero fun h0 => hzero (by rw [h0]; exact dvd_zero _)
  · exact (UInt64.toNat_lt _).trans_le hge

end Length

/-! ## One call -/

section Call

variable {kernel T psize} {n : UInt64}

theorem mem_touch {a ptr : UInt64} {i : ℕ} (h : a ∈ touch psize ptr i) :
    ∃ j < i, a = ptr + .ofNat (j * psize.bytes) := by
  induction i generalizing ptr with
  | zero => exact absurd h List.not_mem_nil
  | succ i ih =>
    rcases List.mem_cons.1 h with rfl | hrest
    · exact ⟨0, Nat.zero_lt_succ i, by rw [Nat.zero_mul]; exact (UInt64.add_zero a).symm⟩
    · obtain ⟨j, hj, rfl⟩ := ih hrest
      refine ⟨j + 1, Nat.succ_lt_succ hj, ?_⟩
      rw [UInt64.add_assoc, ← UInt64.ofNat_add, Nat.add_mul, Nat.one_mul, Nat.add_comm]

theorem allocate_of_zero (h : calcPagesCount T psize n = 0) :
    allocate kernel T psize n = ⟨0, none, []⟩ := by
  rw [allocate, h]
  rfl

theorem allocate_of_failed (h : calcPagesCount T psize n ≠ 0)
    (hmmap : kernel.mmap (length T psize n) = none) :
    allocate kernel T psize n =
      ⟨mapFailed, none, touch psize mapFailed (calcPagesCount T psize n).toNat⟩ := by
  rw [allocate, allocatePages, if_pos (UInt64.pos_iff_ne_zero.2 h)]
  rw [length] at hmmap
  simp only [hmmap]
  rfl

theorem allocate_of_mapped {p : UInt64} (h : calcPagesCount T psize n ≠ 0)
    (hmmap : kernel.mmap (length T psize n) = some p) :
    allocate kernel T psize n =
      ⟨p, some (p, length T psize n), touch psize p (calcPagesCount T psize n).toNat⟩ := by
  have hp : p ≠ 0 := UInt64.pos_iff_ne_zero.1 (kernel.pos _ _ hmmap)
  rw [allocate, allocatePages, if_pos (UInt64.pos_iff_ne_zero.2 h)]
  rw [length] at hmmap ⊢
  simp [hmmap, hp]

/-- The byte at the start of each page is in the mapping. -/
theorem touch_inside {a p : UInt64} (hmmap : kernel.mmap (length T psize n) = some p)
    (hlength : (length T psize n).toNat = (calcPagesCount T psize n).toNat * psize.bytes)
    (ha : a ∈ touch psize p (calcPagesCount T psize n).toNat) :
    p.toNat ≤ a.toNat ∧ a.toNat < p.toNat + (length T psize n).toNat := by
  obtain ⟨j, hj, rfl⟩ := mem_touch ha
  have hinside := kernel.inside _ _ hmmap
  have hlt : j * psize.bytes < (calcPagesCount T psize n).toNat * psize.bytes :=
    Nat.mul_lt_mul_of_pos_right hj psize.bytes_pos
  have hsum : (p + .ofNat (j * psize.bytes)).toNat = p.toNat + j * psize.bytes := by
    rw [UInt64.toNat_add, UInt64.toNat_ofNat_of_lt' (show j * psize.bytes < 2 ^ 64 by omega),
      Nat.mod_eq_of_lt (by omega)]
  omega

/-- The kernel has a mapping for the bytes rounded up, and they end a page below the end of the
address space. -/
def Served (kernel : Kernel) (T : ValueType) (psize : PageSize) (n : UInt64) : Prop :=
  (kernel.mmap (.ofNat (roundUp (n.toNat * T.size) psize.bytes))).isSome ∧
    n.toNat * T.size + psize.bytes ≤ 2 ^ 64

theorem Served.safe (h : Served kernel T psize n) (hzero : ¬ 2 ^ 64 ∣ n.toNat * T.size) :
    Safe kernel T psize n := by
  obtain ⟨hmmap, hle⟩ := h
  have hpages : calcPagesCount T psize n ≠ 0 := calcPagesCount_eq_zero.not.2 hzero
  have hlength := length_toNat hle
  have hwrapped : wrapped T n = n.toNat * T.size :=
    Nat.mod_eq_of_lt (by have := psize.bytes_pos; omega)
  rw [← hwrapped, ← length_eq] at hmmap
  obtain ⟨p, hmmap⟩ := Option.isSome_iff_exists.1 hmmap
  have heq := allocate_of_mapped hpages hmmap
  refine ⟨.inr ⟨_, by rw [heq], ?_⟩, fun a ha => ?_, ?_⟩
  · rw [hlength]
    exact le_roundUp
  · rw [heq] at ha ⊢
    refine ⟨p, _, rfl, touch_inside hmmap ?_ ha⟩
    rw [hlength, calcPagesCount_mul, hwrapped]
  · rw [heq]
    rfl

theorem safe_of_zero (hzero : 2 ^ 64 ∣ n.toNat * T.size) : Safe kernel T psize n := by
  have hpages : calcPagesCount T psize n = 0 := calcPagesCount_eq_zero.2 hzero
  have heq : allocate kernel T psize n = ⟨0, none, []⟩ := allocate_of_zero hpages
  refine ⟨.inl (by rw [heq]), fun a ha => ?_, ?_⟩
  · rw [heq] at ha
    exact absurd ha List.not_mem_nil
  · rw [heq, deallocate, hpages]
    exact UInt64.zero_mul

theorem Safe.served (h : Safe kernel T psize n) (hzero : ¬ 2 ^ 64 ∣ n.toNat * T.size) :
    Served kernel T psize n := by
  have hpages : calcPagesCount T psize n ≠ 0 := calcPagesCount_eq_zero.not.2 hzero
  have hroom := h.room
  cases hmmap : kernel.mmap (length T psize n) with
  | none =>
    rw [allocate_of_failed hpages hmmap] at hroom
    have hne : mapFailed ≠ 0 := by decide
    obtain ⟨length', heq, -⟩ := hroom.resolve_left hne
    cases heq
  | some p =>
    have hp : p ≠ 0 := UInt64.pos_iff_ne_zero.1 (kernel.pos _ _ hmmap)
    rw [allocate_of_mapped hpages hmmap] at hroom
    obtain ⟨length', heq, hle⟩ := hroom.resolve_left hp
    cases heq
    have hsmall : n.toNat * T.size + psize.bytes ≤ 2 ^ 64 := by
      by_contra hlarge
      exact absurd hle (not_le.2 (length_lt hzero (not_le.1 hlarge)))
    have hwrapped : wrapped T n = n.toNat * T.size :=
      Nat.mod_eq_of_lt (by have := psize.bytes_pos; omega)
    refine ⟨?_, hsmall⟩
    rw [← hwrapped, ← length_eq, hmmap]
    rfl

variable (kernel T psize n) in
/-- A request is safe if its bytes wrap to none, or if it is served; no other request is. -/
theorem allocate_safe_iff : Safe kernel T psize n ↔
    2 ^ 64 ∣ n.toNat * T.size ∨ Served kernel T psize n := by
  by_cases hzero : 2 ^ 64 ∣ n.toNat * T.size
  · exact ⟨fun _ => .inl hzero, fun _ => safe_of_zero hzero⟩
  · exact ⟨fun h => .inr (h.served hzero), fun h => (h.resolve_left hzero).safe hzero⟩

end Call

/-- A kernel that maps up to 64 GB, one GB above the start of the address space. -/
def serving : Kernel where
  mmap length := if 0 < length ∧ length ≤ 0x1000000000 then some 0x40000000 else none
  pos length p h := by
    obtain ⟨-, hp⟩ := Option.ite_none_right_eq_some.1 h
    obtain rfl := Option.some.inj hp
    decide
  inside length p h := by
    obtain ⟨⟨-, hle⟩, hp⟩ := Option.ite_none_right_eq_some.1 h
    obtain rfl := Option.some.inj hp
    have hlength : length.toNat ≤ 2 ^ 36 := UInt64.le_iff_toNat_le.1 hle
    have hstart : (0x40000000 : UInt64).toNat = 2 ^ 30 := rfl
    omega

/-- A million numbers are served with four pages of 2 MB, and each page is written to. -/
theorem allocate_safe_iff_serving : Safe serving .uint64 .twoMb 1000000 ∧
    allocate serving .uint64 .twoMb 1000000 = ⟨0x40000000, some (0x40000000, 0x800000),
      [0x40000000, 0x40200000, 0x40400000, 0x40600000]⟩ := by
  have hserved : Served serving .uint64 .twoMb 1000000 := ⟨by decide, by decide⟩
  exact ⟨(allocate_safe_iff serving .uint64 .twoMb 1000000).2 (.inr hserved), by decide⟩

/-- A kernel without memory. -/
def exhausted : Kernel := ⟨fun _ => none, by simp, by simp⟩

/-- The answer of a kernel without memory is taken for a page. -/
theorem allocate_touches : allocate exhausted .char .fourKb 1 = ⟨mapFailed, none, [mapFailed]⟩ ∧
    ¬ Safe exhausted .char .fourKb 1 := by
  refine ⟨by decide, fun h => ?_⟩
  obtain ⟨p, length, hmapping, -⟩ := h.inside mapFailed (by decide)
  exact absurd hmapping (by simp [show (allocate exhausted .char .fourKb 1).mapping = none from rfl])

end MmapPageAllocator

end Ihft.Memory
