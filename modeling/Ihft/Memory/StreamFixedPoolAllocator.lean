import Ihft.Lib.Counter

/-!
# The stream pool of slabs

`stream_fixed_pool_allocator` hands its slabs out in a circle and never looks whether a slab is
still in use.  A slab is known by its index in `m_data`.
-/

namespace Ihft.Memory

/-- The position and the number of slabs of a `stream_fixed_pool_allocator`. -/
structure StreamFixedPoolAllocator where
  next : ℕ
  size : ℕ
  deriving DecidableEq, Repr

namespace StreamFixedPoolAllocator

/-- The constructor; the number of slabs is a `size_t`. -/
def new (queueCapacity extra : ℕ) : StreamFixedPoolAllocator :=
  ⟨0, (queueCapacity + extra) % 2 ^ 64⟩

/-- The constructor that takes the queue capacity alone. -/
def ofCapacity (queueCapacity : ℕ) : StreamFixedPoolAllocator := new queueCapacity 1

def activeSlab (a : StreamFixedPoolAllocator) : ℕ := a.next

def seekToNextSlab (a : StreamFixedPoolAllocator) : StreamFixedPoolAllocator :=
  let next := a.next + 1
  if next ≥ a.size then { a with next := 0 } else { a with next := next }

/-- `allocate(n)`, which yields `nullptr` unless `n` is 1. -/
def allocate (a : StreamFixedPoolAllocator) (n : ℕ) : StreamFixedPoolAllocator × Option ℕ :=
  if n = 1 then (a.seekToNextSlab, some a.activeSlab) else (a, none)

def position (a : StreamFixedPoolAllocator) : ℕ := a.next

def capacity (a : StreamFixedPoolAllocator) : ℕ := a.size

@[simp] theorem seekToNextSlab_size (a : StreamFixedPoolAllocator) :
    a.seekToNextSlab.size = a.size := by
  unfold seekToNextSlab
  dsimp only
  split <;> rfl

/-- The slab that is active after `k` seeks in a pool of `size` slabs. -/
def slabOf (size k : ℕ) : ℕ := if size = 0 then 0 else k % size

theorem slabOf_zero (size : ℕ) : slabOf size 0 = 0 := by
  unfold slabOf
  split
  · rfl
  · exact Nat.zero_mod size

theorem activeSlab_seekToNextSlab {a : StreamFixedPoolAllocator} {k : ℕ}
    (h : a.activeSlab = slabOf a.size k) :
    a.seekToNextSlab.activeSlab = slabOf a.size (k + 1) := by
  unfold activeSlab at h
  unfold seekToNextSlab activeSlab
  rw [h]
  by_cases hsize : a.size = 0
  · simp [slabOf, hsize]
  · have hlt : k % a.size < a.size := Nat.mod_lt k (Nat.pos_of_ne_zero hsize)
    have hmod : (k + 1) % a.size = (k % a.size + 1) % a.size := (Nat.mod_add_mod k a.size 1).symm
    simp only [slabOf, if_neg hsize, hmod]
    split_ifs with hge
    · have heq : k % a.size + 1 = a.size := by omega
      rw [heq, Nat.mod_self]
    · rw [Nat.mod_eq_of_lt (show k % a.size + 1 < a.size by omega)]

/-- Fewer than `size` seeks apart the active slabs are different. -/
theorem slabOf_ne {size j k : ℕ} (hjk : j < k) (hk : k < j + size) :
    slabOf size j ≠ slabOf size k := by
  have hsize : size ≠ 0 := by omega
  simp only [slabOf, if_neg hsize]
  intro heq
  have := WrappingCounter.mod_injOn_window (W := j) le_rfl (by omega) hjk.le hk heq
  omega

/-- After `size` seeks the first slab is active again. -/
theorem slabOf_self (size : ℕ) : slabOf size size = 0 := by
  unfold slabOf
  split
  · rfl
  · exact Nat.mod_self size

end StreamFixedPoolAllocator

end Ihft.Memory
