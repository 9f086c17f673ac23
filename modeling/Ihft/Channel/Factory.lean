import Ihft.Channel.StreamQueue

/-!
# The channel factory

`channel_factory::make` builds the producer and draws one consumer after the other from it, giving
up as soon as `create_reader` fails.  The two families of queues differ only in the identifier
that is never handed out.
-/

namespace Ihft.Channel

variable {T : SeqnumCounter}

/-- `producer_and_consumers`. -/
structure ProducerAndConsumers (T : SeqnumCounter) where
  producer : QueueImpl T
  consumers : List (StreamReader T)
  deriving DecidableEq, Repr

/-- The loop of `make`: `m` more consumers, and the producer after them. -/
def makeConsumers (dummyReaderId : T.Val) :
    ℕ → QueueImpl T → Option (ProducerAndConsumers T)
  | 0, producer => some ⟨producer, []⟩
  | m + 1, producer =>
    match producer.createReader dummyReaderId with
    | (_, none) => none
    | (producer, some reader) =>
      (makeConsumers dummyReaderId m producer).map fun pair =>
        { pair with consumers := reader :: pair.consumers }

/-- `channel_factory::make`, for the family that reserves `dummyReaderId`. -/
def channelFactoryMake (dummyReaderId : T.Val) (queueCapacity readersCount : ℕ) :
    Option (ProducerAndConsumers T) :=
  if readersCount = 0 then
    none
  else
    match to2pow T queueCapacity with
    | none => none
    | some capacity => makeConsumers dummyReaderId readersCount (.new T capacity)

/-- The producer after `m` consumers were drawn. -/
def producerAfter (T : SeqnumCounter) (C m : ℕ) : QueueImpl T :=
  { QueueImpl.new T C with nextReaderId := BitVec.ofNat T.digits m }

/-- The consumers `j, …, j + m - 1`. -/
def consumersFrom (T : SeqnumCounter) (C j m : ℕ) : List (StreamReader T) :=
  (List.range' j m).map fun i => .new (C - 1) (BitVec.ofNat T.digits i)

theorem createReader_producerAfter {D : ℕ} (hD : D < 2 ^ T.digits) (C : ℕ) {m : ℕ} (hm : m ≤ D) :
    (producerAfter T C m).createReader (BitVec.ofNat T.digits D) =
      if m = D then (producerAfter T C m, none)
      else (producerAfter T C (m + 1), some (.new (C - 1) (BitVec.ofNat T.digits m))) := by
  have hinj : BitVec.ofNat T.digits m = BitVec.ofNat T.digits D ↔ m = D :=
    WrappingCounter.ofNat_inj (by omega) hD
  have hback : BitVec.ofNat T.digits (m + 1) - 1 = BitVec.ofNat T.digits m :=
    WrappingCounter.ofNat_sub_one (Nat.succ_pos m)
  unfold QueueImpl.createReader producerAfter
  simp only [ne_eq, hinj, ite_not, WrappingCounter.ofNat_succ, hback]
  rfl

theorem makeConsumers_producerAfter {D : ℕ} (hD : D < 2 ^ T.digits) (C : ℕ) :
    ∀ (m j : ℕ), j ≤ D → makeConsumers (BitVec.ofNat T.digits D) m (producerAfter T C j) =
      if j + m ≤ D then some ⟨producerAfter T C (j + m), consumersFrom T C j m⟩ else none
  | 0, j, hj => by simp [makeConsumers, consumersFrom, hj]
  | m + 1, j, hj => by
    rw [makeConsumers, createReader_producerAfter hD C hj]
    by_cases h : j = D
    · rw [if_pos h, if_neg (by omega)]
    · rw [if_neg h]
      simp only [makeConsumers_producerAfter hD C m (j + 1) (by omega)]
      by_cases hle : j + (m + 1) ≤ D
      · rw [if_pos hle, if_pos (by omega), Option.map_some,
          show j + 1 + m = j + (m + 1) by omega]
        rfl
      · rw [if_neg hle, if_neg (by omega), Option.map_none]

/-- `make` succeeds exactly for `1` to `D` readers, `D` being the reserved identifier; it hands out
the consumers `0, …, R - 1` over a ring of the rounded capacity. -/
theorem channelFactoryMake_eq {D : ℕ} (hD : D < 2 ^ T.digits) {n C : ℕ}
    (hC : to2pow T n = some C) (R : ℕ) :
    channelFactoryMake (BitVec.ofNat T.digits D) n R =
      if 1 ≤ R ∧ R ≤ D then some ⟨producerAfter T C R, consumersFrom T C 0 R⟩ else none := by
  unfold channelFactoryMake
  by_cases hR : R = 0
  · simp [hR]
  · rw [if_neg hR, hC]
    have := makeConsumers_producerAfter hD C R 0 (Nat.zero_le _)
    simp only [Nat.zero_add] at this
    change makeConsumers (BitVec.ofNat T.digits D) R (producerAfter T C 0) = _
    simp only [this, show (1 ≤ R ∧ R ≤ D) ↔ R ≤ D by omega]

theorem channelFactoryMake_eq_some {D : ℕ} (hD : D < 2 ^ T.digits) {n R : ℕ}
    {ch : ProducerAndConsumers T}
    (h : channelFactoryMake (BitVec.ofNat T.digits D) n R = some ch) :
    ∃ C, to2pow T n = some C ∧ IsCapacity T C ∧ 1 ≤ R ∧ R ≤ D ∧
      ch = ⟨producerAfter T C R, consumersFrom T C 0 R⟩ := by
  obtain ⟨C, hC, hcap, -⟩ := to2pow_spec T n
  rw [channelFactoryMake_eq hD hC] at h
  split_ifs at h with hR
  exact ⟨C, hC, hcap, hR.1, hR.2, (Option.some.inj h).symm⟩

/-! ## A `make` that fails -/

/-- How `make` with a content allocator ends: it returns a channel, or it gives up before anything
was built, or it gives up with the channel as far as it was built. -/
inductive MakeResult (T : SeqnumCounter)
  | made (channel : ProducerAndConsumers T)
  | unbuilt
  | abandoned (channel : ProducerAndConsumers T)
  deriving DecidableEq, Repr

/-- The loop of `make` with the channel it has built when it stops, and whether it came through. -/
def drawConsumers (dummyReaderId : T.Val) : ℕ → QueueImpl T → ProducerAndConsumers T × Bool
  | 0, producer => (⟨producer, []⟩, true)
  | m + 1, producer =>
    match producer.createReader dummyReaderId with
    | (producer, none) => (⟨producer, []⟩, false)
    | (producer, some reader) =>
      let drawn := drawConsumers dummyReaderId m producer
      ({ drawn.1 with consumers := reader :: drawn.1.consumers }, drawn.2)

/-- The overload of `make` that takes a content allocator. -/
def channelFactoryMakeWithAllocator (dummyReaderId : T.Val) (queueCapacity readersCount : ℕ) :
    Option (MakeResult T) :=
  if readersCount = 0 then
    some .unbuilt
  else
    match to2pow T queueCapacity with
    | none => none
    | some capacity =>
      match drawConsumers dummyReaderId readersCount (.new T capacity) with
      | (channel, true) => some (.made channel)
      | (channel, false) => some (.abandoned channel)

/-- The loop stops with all the readers asked for, or with all that there can be. -/
theorem drawConsumers_producerAfter {D : ℕ} (hD : D < 2 ^ T.digits) (C : ℕ) :
    ∀ (m j : ℕ), j ≤ D → drawConsumers (BitVec.ofNat T.digits D) m (producerAfter T C j) =
      if j + m ≤ D then (⟨producerAfter T C (j + m), consumersFrom T C j m⟩, true)
      else (⟨producerAfter T C D, consumersFrom T C j (D - j)⟩, false)
  | 0, j, hj => by simp [drawConsumers, consumersFrom, hj]
  | m + 1, j, hj => by
    rw [drawConsumers, createReader_producerAfter hD C hj]
    by_cases h : j = D
    · rw [if_pos h, if_neg (by omega), h, Nat.sub_self]
      rfl
    · rw [if_neg h]
      simp only [drawConsumers_producerAfter hD C m (j + 1) (by omega)]
      by_cases hle : j + (m + 1) ≤ D
      · rw [if_pos hle, if_pos (by omega), show j + 1 + m = j + (m + 1) by omega]
        rfl
      · rw [if_neg hle, if_neg (by omega), show D - j = D - (j + 1) + 1 by omega]
        rfl

/-- Beside the channels of `make` there are those of too many readers, which are given up with the
largest number of readers that `make` accepts. -/
theorem channelFactoryMakeWithAllocator_eq {D : ℕ} (hD : D < 2 ^ T.digits) {n C : ℕ}
    (hC : to2pow T n = some C) (R : ℕ) :
    channelFactoryMakeWithAllocator (BitVec.ofNat T.digits D) n R =
      if R = 0 then some .unbuilt
      else if R ≤ D then some (.made ⟨producerAfter T C R, consumersFrom T C 0 R⟩)
      else some (.abandoned ⟨producerAfter T C D, consumersFrom T C 0 D⟩) := by
  unfold channelFactoryMakeWithAllocator
  by_cases hR : R = 0
  · rw [if_pos hR, if_pos hR]
  · rw [if_neg hR, if_neg hR, hC]
    change (match drawConsumers (BitVec.ofNat T.digits D) R (producerAfter T C 0) with
      | (channel, true) => some (MakeResult.made channel)
      | (channel, false) => some (.abandoned channel)) = _
    rw [drawConsumers_producerAfter hD C R 0 (Nat.zero_le D), Nat.zero_add, Nat.sub_zero]
    by_cases hle : R ≤ D
    · rw [if_pos hle, if_pos hle]
    · rw [if_neg hle, if_neg hle]

@[simp] theorem consumersFrom_length (C j m : ℕ) : (consumersFrom T C j m).length = m := by
  simp [consumersFrom]

theorem consumersFrom_getElem (C m i : ℕ) (hi : i < (consumersFrom T C 0 m).length) :
    (consumersFrom T C 0 m)[i] = .new (C - 1) (BitVec.ofNat T.digits i) := by
  simp [consumersFrom]

theorem producerAfter_capacity {C : ℕ} (hC : IsCapacity T C) (m : ℕ) :
    (producerAfter T C m).capacity = C := by
  have := hC.pos
  simp only [QueueImpl.capacity, producerAfter, QueueImpl.new]
  omega

theorem one_lt_two_pow_digits (T : SeqnumCounter) : 1 < 2 ^ T.digits := by
  have := T.two_pow_eight_le
  omega

end Ihft.Channel
