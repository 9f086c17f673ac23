import Ihft.Lib.Bytes
import Ihft.Lib.Machine
import Ihft.Lib.Rounding

/-!
# The arena

An arena hands out stretches of its region one behind the other.  All typed allocators share its
cursor, which `allocate` pads for the type before it looks whether the request fits.  Pointers and
sizes are words of 64 bits, and all of them wrap; the null pointer is 0.
-/

namespace Ihft.Memory

open Observe Rounding Bytes

/-- `sizeof(T)` and `alignof(T)`. -/
structure ValueType where
  size : ℕ
  align : ℕ
  size_lt : size < 2 ^ 64
  size_pos : 0 < size
  align_pow : ∃ k, align = 2 ^ k
  align_dvd : align ∣ size

namespace ValueType

variable (T : ValueType)

theorem align_pos : 0 < T.align := by
  obtain ⟨k, hk⟩ := T.align_pow
  rw [hk]
  exact Nat.two_pow_pos k

theorem align_lt : T.align < 2 ^ 64 := (Nat.le_of_dvd T.size_pos T.align_dvd).trans_lt T.size_lt

theorem align_dvd_word : T.align ∣ 2 ^ 64 := by
  have hlt := T.align_lt
  obtain ⟨k, hk⟩ := T.align_pow
  rw [hk] at hlt ⊢
  exact Nat.pow_dvd_pow 2 ((Nat.pow_lt_pow_iff_right (by decide)).1 hlt).le

/-- `char`. -/
def char : ValueType := ⟨1, 1, by decide, by decide, ⟨0, rfl⟩, by decide⟩

/-- `uint64_t`. -/
def uint64 : ValueType := ⟨8, 8, by decide, by decide, ⟨3, rfl⟩, by decide⟩

end ValueType

/-- The start of the region, the cursor and the size of the region. -/
@[ext] structure ArenaAllocator where
  origin : UInt64
  current : UInt64
  size : UInt64
  deriving DecidableEq, Repr

namespace ArenaAllocator

/-- The constructor. -/
def new (arenaStartPtr arenaSize : UInt64) : ArenaAllocator :=
  ⟨arenaStartPtr, arenaStartPtr, arenaSize⟩

/-- The padding of the cursor in `allocate`. -/
def pad (s : ArenaAllocator) (T : ValueType) : ArenaAllocator :=
  if T.align > 1 then
    let ost := s.current % .ofNat T.align
    if ost > 0 then { s with current := s.current + (.ofNat T.align - ost) } else s
  else
    s

/-- `typed_arena_allocator<T>::allocate`. -/
def allocate (s : ArenaAllocator) (T : ValueType) (n : UInt64) : ArenaAllocator × UInt64 :=
  let s := s.pad T
  let test := s.current + n * .ofNat T.size
  if test ≤ s.origin + s.size then ({ s with current := test }, s.current) else (s, 0)

def reset (s : ArenaAllocator) : ArenaAllocator := { s with current := s.origin }

def used (s : ArenaAllocator) : UInt64 := s.current - s.origin

end ArenaAllocator

/-- `T` is the value type of the allocator that is called. -/
inductive ArenaInput
  | allocate (T : ValueType) (n : UInt64)
  | reset

inductive ArenaObs
  | allocated (T : ValueType) (n result : UInt64)
  | reset

/-- An arena as a machine. -/
def arenaMachine : Machine ArenaAllocator ArenaInput ArenaObs where
  step s
    | .allocate T n => some ((s.allocate T n).1, [.allocated T n (s.allocate T n).2])
    | .reset => some (s.reset, [.reset])

/-! ## One request -/

namespace ArenaAllocator

variable (s : ArenaAllocator) (T : ValueType) (n : UInt64)

/-- The cursor rounded up, over unbounded integers. -/
def padded : ℕ := roundUp s.current.toNat T.align

/-- The end of the request, over unbounded integers. -/
def wanted : ℕ := s.padded T + n.toNat * T.size

/-- The end of the arena, over unbounded integers. -/
def limit : ℕ := s.origin.toNat + s.size.toNat

theorem pad_eq : s.pad T = { s with current := .ofNat (s.padded T) } := by
  have host : s.current % .ofNat T.align = .ofNat (s.current.toNat % T.align) := by
    rw [UInt64.ofNat_mod s.current.toNat_lt T.align_lt, UInt64.ofNat_toNat]
  have hlt := Nat.mod_lt s.current.toNat T.align_pos
  unfold pad padded roundUp
  simp only [host]
  by_cases hzero : s.current.toNat % T.align = 0
  · simp [hzero]
  · have hone : T.align > 1 := by
      by_contra hle
      exact hzero (by rw [show T.align = 1 by have := T.align_pos; omega, Nat.mod_one])
    have hpos : UInt64.ofNat (s.current.toNat % T.align) > 0 := by
      rw [gt_iff_lt, UInt64.lt_iff_toNat_lt, UInt64.toNat_ofNat_of_lt' (hlt.trans T.align_lt)]
      exact Nat.pos_of_ne_zero hzero
    rw [if_pos hone, if_pos hpos, if_neg hzero, UInt64.ofNat_add, UInt64.ofNat_toNat,
      UInt64.ofNat_sub hlt.le]

/-- What a call does, in terms of unbounded integers. -/
theorem allocate_eq : s.allocate T n =
    if s.wanted T n % 2 ^ 64 ≤ s.limit % 2 ^ 64 then
      ({ s with current := .ofNat (s.wanted T n) }, .ofNat (s.padded T))
    else ({ s with current := .ofNat (s.padded T) }, 0) := by
  have htest : UInt64.ofNat (s.padded T) + n * .ofNat T.size = .ofNat (s.wanted T n) := by
    rw [wanted, UInt64.ofNat_add, UInt64.ofNat_mul, UInt64.ofNat_toNat]
  have hend : s.origin + s.size = .ofNat s.limit := by
    rw [limit, UInt64.ofNat_add, UInt64.ofNat_toNat, UInt64.ofNat_toNat]
  simp only [allocate, pad_eq, htest, hend, UInt64.le_iff_toNat_le, UInt64.toNat_ofNat']

variable {s T n}

theorem le_padded : s.current.toNat ≤ s.padded T := le_roundUp

theorem align_dvd_padded : T.align ∣ s.padded T := dvd_roundUp T.align_pos

theorem padded_le_wanted : s.padded T ≤ s.wanted T n := Nat.le_add_right _ _

@[simp] theorem allocate_origin : (s.allocate T n).1.origin = s.origin := by
  rw [allocate_eq]
  split <;> rfl

@[simp] theorem allocate_size : (s.allocate T n).1.size = s.size := by
  rw [allocate_eq]
  split <;> rfl

/-- A call whose request ends inside the address space. -/
theorem allocate_cases (h : s.wanted T n < 2 ^ 64) :
    ((s.allocate T n).1.current.toNat = s.wanted T n ∧ (s.allocate T n).2.toNat = s.padded T ∧
      s.wanted T n ≤ s.limit) ∨
    ((s.allocate T n).1.current.toNat = s.padded T ∧ (s.allocate T n).2 = 0) := by
  have hpadded : s.padded T < 2 ^ 64 := padded_le_wanted.trans_lt h
  rw [allocate_eq, Nat.mod_eq_of_lt h]
  split_ifs with hle
  · exact .inl ⟨UInt64.toNat_ofNat_of_lt' h, UInt64.toNat_ofNat_of_lt' hpadded,
      hle.trans (Nat.mod_le _ _)⟩
  · exact .inr ⟨UInt64.toNat_ofNat_of_lt' hpadded, rfl⟩

end ArenaAllocator

open ArenaAllocator

variable {start size : UInt64} {s s' : ArenaAllocator} {log : List ArenaObs} {T : ValueType}
  {n : UInt64}

/-! ## The regions of an arena -/

/-- The request ends inside the address space. -/
def Bounded (s : ArenaAllocator) : ArenaInput → Prop
  | .allocate T n => s.wanted T n ≤ 2 ^ 64 - 1
  | .reset => True

instance (s : ArenaAllocator) (i : ArenaInput) : Decidable (Bounded s i) := by
  unfold Bounded
  cases i <;> infer_instance

/-- The regions that are handed out, by their starts and lengths, after one more observation. -/
def addRegion (regions : List (ℕ × ℕ)) : ArenaObs → List (ℕ × ℕ)
  | .allocated T n result =>
    if result = 0 then regions else regions ++ [(result.toNat, n.toNat * T.size)]
  | .reset => []

/-- The regions that were returned since the last reset. -/
def regions (log : List ArenaObs) : List (ℕ × ℕ) := log.foldl addRegion []

@[simp] theorem regions_append_singleton (o : ArenaObs) :
    regions (log ++ [o]) = addRegion (regions log) o := by
  simp [regions]

/-- What holds of the results of an arena with the given region. -/
structure Geometry (start size : UInt64) (log : List ArenaObs) : Prop where
  aligned : ∀ T n result, .allocated T n result ∈ log → result ≠ 0 → T.align ∣ result.toNat
  inside : ∀ T n result, .allocated T n result ∈ log → result ≠ 0 →
    start.toNat ≤ result.toNat ∧ result.toNat + n.toNat * T.size ≤ start.toNat + size.toNat
  apart : (regions log).Pairwise fun r r' => Apart r.1 r.2 r'.1 r'.2

/-- The cursor is behind everything that was returned since the last reset. -/
structure ArenaOk (start size : UInt64) (s : ArenaAllocator) (log : List ArenaObs) : Prop
    extends Geometry start size log where
  origin : s.origin = start
  size_eq : s.size = size
  start_le : start.toNat ≤ s.current.toNat
  behind : ∀ r ∈ regions log, r.1 + r.2 ≤ s.current.toNat

theorem Geometry.append_null (h : Geometry start size log) :
    Geometry start size (log ++ [.allocated T n 0]) where
  aligned T n result hmem hne := by
    simp only [List.mem_append, List.mem_singleton, ArenaObs.allocated.injEq] at hmem
    exact h.aligned T n result (hmem.resolve_right fun heq => hne heq.2.2) hne
  inside T n result hmem hne := by
    simp only [List.mem_append, List.mem_singleton, ArenaObs.allocated.injEq] at hmem
    exact h.inside T n result (hmem.resolve_right fun heq => hne heq.2.2) hne
  apart := by
    rw [regions_append_singleton, addRegion, if_pos rfl]
    exact h.apart

theorem Geometry.append_result {result : UInt64} (h : Geometry start size log)
    (haligned : T.align ∣ result.toNat) (hstart : start.toNat ≤ result.toNat)
    (hend : result.toNat + n.toNat * T.size ≤ start.toNat + size.toNat)
    (hbehind : ∀ r ∈ regions log, r.1 + r.2 ≤ result.toNat) :
    Geometry start size (log ++ [.allocated T n result]) where
  aligned T' n' result' hmem hne := by
    simp only [List.mem_append, List.mem_singleton, ArenaObs.allocated.injEq] at hmem
    rcases hmem with hmem | ⟨rfl, rfl, rfl⟩
    · exact h.aligned T' n' result' hmem hne
    · exact haligned
  inside T' n' result' hmem hne := by
    simp only [List.mem_append, List.mem_singleton, ArenaObs.allocated.injEq] at hmem
    rcases hmem with hmem | ⟨rfl, rfl, rfl⟩
    · exact h.inside T' n' result' hmem hne
    · exact ⟨hstart, hend⟩
  apart := by
    rw [regions_append_singleton, addRegion]
    split_ifs
    · exact h.apart
    · rw [List.pairwise_append]
      refine ⟨h.apart, List.pairwise_singleton .., fun r hr r' hr' => ?_⟩
      rw [List.mem_singleton.1 hr']
      exact .inl (hbehind r hr)

theorem Geometry.append_reset (h : Geometry start size log) :
    Geometry start size (log ++ [.reset]) where
  aligned T n result hmem hne := by
    simp only [List.mem_append, List.mem_singleton, reduceCtorEq, or_false] at hmem
    exact h.aligned T n result hmem hne
  inside T n result hmem hne := by
    simp only [List.mem_append, List.mem_singleton, reduceCtorEq, or_false] at hmem
    exact h.inside T n result hmem hne
  apart := by
    rw [regions_append_singleton]
    exact List.Pairwise.nil

theorem ArenaOk.allocate (h : ArenaOk start size s log) (hbounded : s.wanted T n < 2 ^ 64) :
    ArenaOk start size (s.allocate T n).1 (log ++ [.allocated T n (s.allocate T n).2]) := by
  have hlimit : s.limit = start.toNat + size.toNat := by rw [limit, h.origin, h.size_eq]
  have hpadded : s.current.toNat ≤ s.padded T := le_padded
  have hwanted : s.padded T ≤ s.wanted T n := padded_le_wanted
  have hstart : start.toNat ≤ s.padded T := h.start_le.trans hpadded
  rcases allocate_cases hbounded with ⟨hcurrent, hresult, hle⟩ | ⟨hcurrent, hresult⟩
  · refine ⟨h.append_result ?_ ?_ ?_ ?_, ?_, ?_, ?_, ?_⟩
    · rw [hresult]
      exact align_dvd_padded
    · rw [hresult]
      exact hstart
    · rw [hresult, ← hlimit]
      exact hle
    · intro r hr
      rw [hresult]
      exact (h.behind r hr).trans hpadded
    · rw [allocate_origin, h.origin]
    · rw [allocate_size, h.size_eq]
    · rw [hcurrent]
      exact hstart.trans hwanted
    · intro r hr
      rw [hcurrent]
      rw [regions_append_singleton, addRegion] at hr
      split_ifs at hr
      · exact (h.behind r hr).trans (hpadded.trans hwanted)
      · rcases List.mem_append.1 hr with hr | hr
        · exact (h.behind r hr).trans (hpadded.trans hwanted)
        · rw [List.mem_singleton.1 hr, hresult]
          exact le_rfl
  · rw [hresult]
    refine ⟨h.append_null, ?_, ?_, ?_, ?_⟩
    · rw [allocate_origin, h.origin]
    · rw [allocate_size, h.size_eq]
    · rw [hcurrent]
      exact hstart
    · intro r hr
      rw [regions_append_singleton, addRegion, if_pos rfl] at hr
      rw [hcurrent]
      exact (h.behind r hr).trans hpadded

theorem ArenaOk.reset (h : ArenaOk start size s log) :
    ArenaOk start size s.reset (log ++ [.reset]) where
  toGeometry := h.append_reset
  origin := h.origin
  size_eq := h.size_eq
  start_le := by
    rw [ArenaAllocator.reset, h.origin]
  behind r hr := by
    rw [regions_append_singleton] at hr
    exact absurd hr List.not_mem_nil

theorem arenaOk_of_reachesWhile (h : arenaMachine.ReachesWhile Bounded (.new start size) s log) :
    ArenaOk start size s log := by
  apply h.invariant
  · exact ⟨⟨by simp, by simp, List.Pairwise.nil⟩, rfl, rfl, le_rfl, by simp [regions]⟩
  · intro s log i s' os _ hok hbounded hstep
    cases i with
    | allocate T n =>
      cases hstep
      exact hok.allocate (Nat.lt_of_le_pred (by decide) hbounded)
    | reset =>
      cases hstep
      exact hok.reset

/-- Every result is aligned and inside the region, and apart from the other results. -/
theorem allocate_geometry (h : arenaMachine.ReachesWhile Bounded (.new start size) s log) :
    Geometry start size log :=
  (arenaOk_of_reachesWhile h).toGeometry

/-- A number behind a padding, three characters, and a number that does not fit any more. -/
def packing : List ArenaInput :=
  [.allocate .uint64 1, .allocate .char 3, .allocate .uint64 1, .reset, .allocate .char 23]

theorem allocate_geometry_packing : Geometry 4097 23
    [.allocated .uint64 1 4104, .allocated .char 3 4112, .allocated .uint64 1 0, .reset,
      .allocated .char 23 4097] :=
  allocate_geometry (.of_run (show arenaMachine.run (.new 4097 23) packing = some (_, _) from rfl)
    (by decide))

/-! ## The check of the capacity -/

namespace ArenaAllocator

theorem allocate_ne_null : (s.allocate T n).2 ≠ 0 ↔
    s.wanted T n % 2 ^ 64 ≤ s.limit % 2 ^ 64 ∧ ¬ 2 ^ 64 ∣ s.padded T := by
  rw [allocate_eq]
  split_ifs with hle
  · have hnull : UInt64.ofNat (s.padded T) ≠ 0 ↔ ¬ 2 ^ 64 ∣ s.padded T := by
      rw [ne_eq, ← UInt64.toNat_inj, UInt64.toNat_ofNat', UInt64.toNat_zero,
        Nat.dvd_iff_mod_eq_zero]
    exact hnull.trans (and_iff_right hle).symm
  · exact ⟨fun hne => absurd rfl hne, fun hand => absurd hand.1 hle⟩

/-- The pointer is non-null if and only if the request fits. -/
def ExactAt (s : ArenaAllocator) (T : ValueType) (n : UInt64) : Prop :=
  (s.allocate T n).2 ≠ 0 ↔ s.wanted T n ≤ s.limit

/-- The requests that are answered wrongly. -/
inductive Misjudged (s : ArenaAllocator) (T : ValueType) (n : UInt64) : Prop
  /-- The end of a request that is too large wraps to an address inside the arena or below. -/
  | granted (hlarge : s.limit < s.wanted T n) (hwrap : s.wanted T n % 2 ^ 64 ≤ s.limit % 2 ^ 64)
    (hnull : ¬ 2 ^ 64 ∣ s.padded T)
  /-- The end of the arena itself wraps to an address below that of the request. -/
  | refused (hfits : s.wanted T n ≤ s.limit) (hwrap : s.limit % 2 ^ 64 < s.wanted T n % 2 ^ 64)
  /-- The request is granted at the null pointer. -/
  | null (hfits : s.wanted T n ≤ s.limit) (hnull : 2 ^ 64 ∣ s.padded T)

theorem exactAt_iff : s.ExactAt T n ↔ ¬ s.Misjudged T n := by
  unfold ExactAt
  rw [allocate_ne_null]
  constructor
  · rintro h (⟨hlarge, hwrap, hnull⟩ | ⟨hfits, hwrap⟩ | ⟨hfits, hnull⟩)
    · exact absurd (h.1 ⟨hwrap, hnull⟩) (not_le.2 hlarge)
    · exact absurd (h.2 hfits).1 (not_le.2 hwrap)
    · exact absurd hnull (h.2 hfits).2
  · intro h
    constructor
    · rintro ⟨hwrap, hnull⟩
      by_contra hlarge
      exact h (.granted (not_le.1 hlarge) hwrap hnull)
    · intro hfits
      constructor
      · by_contra hwrap
        exact h (.refused hfits (not_le.1 hwrap))
      · intro hnull
        exact h (.null hfits hnull)

/-- Without a wrap only the null pointer is in the way. -/
theorem not_misjudged (hpos : 0 < s.current.toNat) (hlimit : s.limit < 2 ^ 64)
    (hbounded : s.wanted T n < 2 ^ 64) : ¬ s.Misjudged T n := by
  have hpadded : s.current.toNat ≤ s.padded T := le_padded
  have hwanted : s.padded T ≤ s.wanted T n := padded_le_wanted
  rintro (⟨hlarge, hwrap, -⟩ | ⟨hfits, hwrap⟩ | ⟨-, hnull⟩)
  · rw [Nat.mod_eq_of_lt hlimit, Nat.mod_eq_of_lt hbounded] at hwrap
    omega
  · rw [Nat.mod_eq_of_lt hlimit, Nat.mod_eq_of_lt hbounded] at hwrap
    omega
  · have hle := Nat.le_of_dvd (hpos.trans_le hpadded) hnull
    omega

end ArenaAllocator

/-- The check is exact where nothing wraps, and wrong for the requests of three kinds only. -/
theorem allocate_exact_iff (s : ArenaAllocator) (T : ValueType) (n : UInt64) :
    (ExactAt s T n ↔ ¬ Misjudged s T n) ∧
    ∀ start size log, arenaMachine.ReachesWhile Bounded (.new start size) s log → 0 < start →
      start.toNat + size.toNat < 2 ^ 64 → s.wanted T n < 2 ^ 64 → ExactAt s T n := by
  refine ⟨exactAt_iff, fun start size log h hpos hregion hbounded => ?_⟩
  have hok := arenaOk_of_reachesWhile h
  rw [exactAt_iff]
  apply not_misjudged
  · exact (UInt64.lt_iff_toNat_lt.1 hpos).trans_le hok.start_le
  · rw [limit, hok.origin, hok.size_eq]
    exact hregion
  · exact hbounded

/-- Behind some characters and a padded number there is room for 48 characters, and no more. -/
theorem allocate_exact_iff_char : ∃ s, arenaMachine.ReachesWhile Bounded (.new 4096 64) s
    [.allocated .char 5 4096, .allocated .uint64 1 4104] ∧
    ExactAt s .char 48 ∧ (s.allocate .char 48).2 = 4112 ∧
    ExactAt s .char 49 ∧ (s.allocate .char 49).2 = 0 := by
  have hreach := Machine.ReachesWhile.of_run (show arenaMachine.run (.new 4096 64)
    [.allocate .char 5, .allocate .uint64 1] = some (_, _) from rfl)
    (show arenaMachine.meets Bounded _ _ = true by decide)
  have hexact (n : UInt64) (hn : n = 48 ∨ n = 49) := (allocate_exact_iff _ .char n).2 4096 64 _
    hreach (by decide) (by decide) (by rcases hn with rfl | rfl <;> decide)
  exact ⟨_, hreach, hexact 48 (.inl rfl), by decide, hexact 49 (.inr rfl), by decide⟩

/-- The 2^61 numbers of 8 bytes are taken for none. -/
theorem allocate_wraps : arenaMachine.Reaches (.new 4096 64) (.new 4096 64) [] ∧
    ((ArenaAllocator.new 4096 64).allocate .uint64 (.ofNat (2 ^ 61))).2 = 4096 ∧
    ¬ ExactAt (.new 4096 64) .uint64 (.ofNat (2 ^ 61)) := by
  refine ⟨.start, by decide, ?_⟩
  unfold ExactAt
  decide

/-! ## Failed requests -/

namespace ArenaAllocator

/-- The call changes nothing, so what would have fitted before it still fits. -/
structure Unchanged (s : ArenaAllocator) (T : ValueType) (n : UInt64) : Prop where
  current : (s.allocate T n).1.current = s.current
  used : (s.allocate T n).1.used = s.used
  fits : ∀ T' n', s.wanted T' n' ≤ s.limit →
    (s.allocate T n).1.wanted T' n' ≤ (s.allocate T n).1.limit

/-- The cursor needs no padding, and is not the null pointer that the request is granted at. -/
def Unpadded (s : ArenaAllocator) (T : ValueType) (n : UInt64) : Prop :=
  T.align ∣ s.current.toNat ∧
    (s.current = 0 → s.limit % 2 ^ 64 < s.wanted T n % 2 ^ 64 ∨ s.wanted T n % 2 ^ 64 = 0)

theorem unchanged_of_current (h : (s.allocate T n).1.current = s.current) : s.Unchanged T n := by
  have heq : (s.allocate T n).1 = s := ArenaAllocator.ext allocate_origin h allocate_size
  refine ⟨h, ?_, ?_⟩
  · rw [heq]
  · intro T' n' hfits
    rw [heq]
    exact hfits

/-- A request that is not granted leaves the cursor padded. -/
theorem current_of_null (h : (s.allocate T n).2 = 0) :
    (s.limit % 2 ^ 64 < s.wanted T n % 2 ^ 64 ∧
      (s.allocate T n).1.current = .ofNat (s.padded T)) ∨
    (s.wanted T n % 2 ^ 64 ≤ s.limit % 2 ^ 64 ∧ 2 ^ 64 ∣ s.padded T ∧
      (s.allocate T n).1.current = .ofNat (s.wanted T n)) := by
  have hnull := allocate_ne_null.not.1 (not_not.2 h)
  rw [not_and, not_not] at hnull
  rw [allocate_eq]
  split_ifs with hle
  · exact .inr ⟨hle, hnull hle, rfl⟩
  · exact .inl ⟨not_le.1 hle, rfl⟩

theorem padded_eq_of_dvd (h : T.align ∣ s.current.toNat) : s.padded T = s.current.toNat :=
  roundUp_of_dvd h

/-- A cursor that does not move needed no padding, even if the padding would have wrapped. -/
theorem dvd_of_padded (h : .ofNat (s.padded T) = s.current) : T.align ∣ s.current.toNat := by
  have hmod : s.padded T % 2 ^ 64 = s.current.toNat := by rw [← h, UInt64.toNat_ofNat']
  rw [← hmod]
  exact (Nat.dvd_mod_iff T.align_dvd_word).2 align_dvd_padded

theorem dvd_of_wanted (h : .ofNat (s.wanted T n) = s.current) : T.align ∣ s.current.toNat := by
  have hmod : s.wanted T n % 2 ^ 64 = s.current.toNat := by rw [← h, UInt64.toNat_ofNat']
  rw [← hmod]
  exact (Nat.dvd_mod_iff T.align_dvd_word).2
    (Nat.dvd_add align_dvd_padded (T.align_dvd.mul_left n.toNat))

/-- The request was granted at the null pointer, and the cursor is there. -/
theorem current_eq_zero (hdvd : T.align ∣ s.current.toNat) (hnull : 2 ^ 64 ∣ s.padded T) :
    s.current = 0 := by
  rw [padded_eq_of_dvd hdvd] at hnull
  exact UInt64.toNat_inj.1 (Nat.eq_zero_of_dvd_of_lt hnull s.current.toNat_lt)

theorem unchanged_iff (h : (s.allocate T n).2 = 0) : s.Unchanged T n ↔ s.Unpadded T n := by
  rcases current_of_null h with ⟨hlt, hcurrent⟩ | ⟨hle, hnull, hcurrent⟩
  · constructor
    · intro hunchanged
      exact ⟨dvd_of_padded (hcurrent.symm.trans hunchanged.current), fun _ => .inl hlt⟩
    · rintro ⟨hdvd, -⟩
      apply unchanged_of_current
      rw [hcurrent, padded_eq_of_dvd hdvd, UInt64.ofNat_toNat]
  · constructor
    · intro hunchanged
      have hwanted := hcurrent.symm.trans hunchanged.current
      have hdvd := dvd_of_wanted hwanted
      refine ⟨hdvd, fun hzero => .inr ?_⟩
      rw [← UInt64.toNat_ofNat', hwanted, hzero, UInt64.toNat_zero]
    · rintro ⟨hdvd, hzero⟩
      have hcurrent₀ := current_eq_zero hdvd hnull
      apply unchanged_of_current
      rcases hzero hcurrent₀ with hlt | hwanted
      · exact absurd hle (not_le.2 hlt)
      · rw [hcurrent, hcurrent₀, ← UInt64.ofNat_mod_size, hwanted]
        rfl

end ArenaAllocator

/-- No request is padded in vain, and none wraps. -/
def Settled (s : ArenaAllocator) : ArenaInput → Prop
  | .allocate T n => s.wanted T n < 2 ^ 64 ∧ (T.align ∣ s.current.toNat ∨ s.wanted T n ≤ s.limit)
  | .reset => True

instance (s : ArenaAllocator) (i : ArenaInput) : Decidable (Settled s i) := by
  unfold Settled
  cases i <;> infer_instance

/-- The cursor has not left the region. -/
structure InRegion (start size : UInt64) (s : ArenaAllocator) : Prop where
  origin : s.origin = start
  size_eq : s.size = size
  start_le : start.toNat ≤ s.current.toNat
  le_limit : s.current.toNat ≤ start.toNat + size.toNat

theorem InRegion.used_le (h : InRegion start size s) : s.used ≤ size := by
  have horigin : s.origin ≤ s.current := by
    rw [UInt64.le_iff_toNat_le, h.origin]
    exact h.start_le
  rw [UInt64.le_iff_toNat_le, used, UInt64.toNat_sub_of_le _ _ horigin, h.origin]
  exact Nat.sub_le_of_le_add (by rw [Nat.add_comm]; exact h.le_limit)

theorem InRegion.allocate (h : InRegion start size s) (hok : Settled s (.allocate T n)) :
    InRegion start size (s.allocate T n).1 := by
  obtain ⟨hbounded, hsettled⟩ := hok
  have hlimit : s.limit = start.toNat + size.toNat := by rw [limit, h.origin, h.size_eq]
  have hpadded : s.current.toNat ≤ s.padded T := le_padded
  have hwanted : s.padded T ≤ s.wanted T n := padded_le_wanted
  have hstart := h.start_le
  have hend := h.le_limit
  refine ⟨by rw [allocate_origin, h.origin], by rw [allocate_size, h.size_eq], ?_, ?_⟩
  · rcases allocate_cases hbounded with ⟨hcurrent, -, -⟩ | ⟨hcurrent, -⟩ <;> omega
  · rcases allocate_cases hbounded with ⟨hcurrent, -, hle⟩ | ⟨hcurrent, -⟩
    · omega
    · rcases hsettled with hdvd | hle
      · rw [hcurrent, padded_eq_of_dvd hdvd]
        exact hend
      · omega

theorem inRegion_of_reachesWhile (h : arenaMachine.ReachesWhile Settled (.new start size) s log) :
    InRegion start size s := by
  apply h.invariant (I := fun s _ => InRegion start size s)
  · exact ⟨rfl, rfl, le_rfl, Nat.le_add_right _ _⟩
  · intro s log i s' os _ hin hok hstep
    cases i with
    | allocate T n =>
      cases hstep
      exact hin.allocate hok
    | reset =>
      cases hstep
      exact ⟨hin.origin, hin.size_eq, by rw [ArenaAllocator.reset, hin.origin],
        by rw [ArenaAllocator.reset, hin.origin]; exact Nat.le_add_right _ _⟩

/-- A request that is answered with `nullptr` changes nothing exactly if the cursor needed no
padding; where this is so for all failed requests, `used` stays within the region. -/
theorem allocate_unchanged_iff (s : ArenaAllocator) (T : ValueType) (n : UInt64) :
    ((s.allocate T n).2 = 0 → (Unchanged s T n ↔ Unpadded s T n)) ∧
    ∀ start size log, arenaMachine.ReachesWhile Settled (.new start size) s log → s.used ≤ size :=
  ⟨unchanged_iff, fun _ _ _ h => (inRegion_of_reachesWhile h).used_le⟩

/-- A second number is refused behind the first, and so is a third. -/
theorem allocate_unchanged_iff_uint64 : ∃ s, arenaMachine.ReachesWhile Settled (.new 4096 12) s
    [.allocated .uint64 1 4096, .allocated .uint64 1 0] ∧
    (s.allocate .uint64 1).2 = 0 ∧ Unchanged s .uint64 1 ∧ s.used ≤ 12 := by
  have hreach := Machine.ReachesWhile.of_run (show arenaMachine.run (.new 4096 12)
    [.allocate .uint64 1, .allocate .uint64 1] = some (_, _) from rfl)
    (show arenaMachine.meets Settled _ _ = true by decide)
  obtain ⟨hunchanged, hused⟩ := allocate_unchanged_iff ⟨4096, 4104, 12⟩ .uint64 1
  exact ⟨_, hreach, by decide,
    (hunchanged (by decide)).2 ⟨by decide, fun h => absurd h (by decide)⟩, hused 4096 12 _ hreach⟩

/-- A number that does not fit behind a character uses up the arena, and more. -/
theorem allocate_pads : ∃ s, arenaMachine.Reaches (.new 4096 4) s [.allocated .char 1 4096] ∧
    (s.allocate .uint64 1).2 = 0 ∧ ¬ Unchanged s .uint64 1 ∧ s.used = 1 ∧
    (s.allocate .uint64 1).1.used = 8 := by
  refine ⟨_, .one (i := .allocate .char 1) rfl, by decide, fun h => ?_, by decide, by decide⟩
  exact absurd h.used (by decide)

end Ihft.Memory
