import Ihft.Channel.One2One.QueueImpl
import Ihft.Channel.One2Each.QueueImpl

/-!
# What `make` hands out

The two families of queues draw their readers in one way and differ in the identifier that they
reserve for moved-from guards, and so in the number of readers.  Up to 63 readers
`readers_mask` has one bit for each of them; from 64 on it shifts a word by its width or more,
which leaves the mask undefined (`constructs_iff`).
-/

namespace Ihft.Channel

variable {T : SeqnumCounter}

/-- The two families of queues. -/
inductive Family
  | one2one
  | one2each
  deriving DecidableEq, Repr

namespace Family

/-- The identifier that is never handed out. -/
def dummyReaderId (T : SeqnumCounter) : Family → T.Val
  | one2one => One2One.dummyReaderId T
  | one2each => One2Each.dummyReaderId T

/-- `channel_factory::make` for the queues of the family. -/
def make (T : SeqnumCounter) : Family → ℕ → ℕ → Option (ProducerAndConsumers T)
  | one2one => One2One.make T
  | one2each => One2Each.make T

/-- The largest number of readers. -/
def limit : Family → ℕ
  | one2one => 1
  | one2each => 255

variable (family : Family)

theorem limit_lt (T : SeqnumCounter) : family.limit < 2 ^ T.digits := by
  cases family
  · exact one_lt_two_pow_digits T
  · exact One2Each.max_reader_lt T

theorem dummyReaderId_eq (T : SeqnumCounter) :
    family.dummyReaderId T = BitVec.ofNat T.digits family.limit := by
  cases family <;> rfl

theorem make_eq (n R : ℕ) :
    family.make T n R = channelFactoryMake (BitVec.ofNat T.digits family.limit) n R := by
  cases family <;> rfl

end Family

/-! ## The mask of the readers -/

theorem producerAfter_readersCount {C m : ℕ} (hm : m < 2 ^ T.digits) :
    (producerAfter T C m).readersCount = m := by
  rw [QueueImpl.readersCount, producerAfter, BitVec.toNat_ofNat, Nat.mod_eq_of_lt hm]

/-- There is a mask exactly while the shift is narrower than the word. -/
theorem readersMask_isSome (q : QueueImpl T) : q.readersMask.isSome ↔ q.readersCount < 64 := by
  rw [QueueImpl.readersMask, QueueImpl.readersCount]
  split_ifs with h <;> simp [h]

/-- The mask has one bit for each reader. -/
theorem getLsbD_readersMask {q : QueueImpl T} {mask : BitVec 64} (h : q.readersMask = some mask)
    {i : ℕ} (hi : i < 64) : mask.getLsbD i = decide (i < q.readersCount) := by
  unfold QueueImpl.readersMask at h
  split_ifs at h with hlt
  cases h
  simp only [BitVec.getLsbD_not, BitVec.getLsbD_shiftLeft, BitVec.getLsbD_zero, hi,
    QueueImpl.readersCount, Bool.not_false, Bool.and_true, decide_true, Bool.true_and]
  by_cases hlow : i < q.nextReaderId.toNat
  · simp only [hlow, decide_true, Bool.not_true, Bool.false_and, Bool.not_false]
  · have hi' : i - q.nextReaderId.toNat < 64 := by omega
    simp only [hlow, hi', decide_true, decide_false, Bool.not_false, Bool.and_true, Bool.not_true]

/-! ## What is made -/

theorem consumersFrom_ids {C m : ℕ} (hm : m ≤ 2 ^ T.digits) :
    (consumersFrom T C 0 m).map (fun r => r.id.toNat) = List.range m := by
  rw [consumersFrom, List.map_map, List.range_eq_range']
  refine (List.map_congr_left fun i hi => ?_).trans (List.map_id _)
  have hlt : i < 2 ^ T.digits := by
    have := (List.mem_range'_1.1 hi).2
    omega
  simp only [Function.comp_apply, StreamReader.new, BitVec.toNat_ofNat, Nat.mod_eq_of_lt hlt, id]

/-- What `make` does for the requested capacity `n` and `R` readers, in both of its overloads. -/
structure Constructs (family : Family) (T : SeqnumCounter) (n R : ℕ) : Prop where
  made_iff : (family.make T n R).isSome ↔ 1 ≤ R ∧ R ≤ family.limit
  overloads : ∀ ch, family.make T n R = some ch ↔
    channelFactoryMakeWithAllocator (family.dummyReaderId T) n R = some (.made ch)
  ids : ∀ ch, family.make T n R = some ch → ch.consumers.map (fun r => r.id.toNat) = List.range R
  not_dummy : ∀ ch, family.make T n R = some ch →
    ∀ r ∈ ch.consumers, r.id ≠ family.dummyReaderId T
  count : ∀ ch, family.make T n R = some ch → ch.producer.readersCount = R
  mask : ∀ ch, family.make T n R = some ch → ∃ mask, ch.producer.readersMask = some mask ∧
    ∀ i < 64, mask.getLsbD i = decide (i < min R 64)

theorem Family.make_eq_some {family : Family} {n R : ℕ} {ch : ProducerAndConsumers T}
    (h : family.make T n R = some ch) :
    ∃ C, 1 ≤ R ∧ R ≤ family.limit ∧ ch = ⟨producerAfter T C R, consumersFrom T C 0 R⟩ := by
  rw [family.make_eq] at h
  obtain ⟨C, -, -, hpos, hle, rfl⟩ := channelFactoryMake_eq_some (family.limit_lt T) h
  exact ⟨C, hpos, hle, rfl⟩

theorem Family.make_isSome_iff (family : Family) (T : SeqnumCounter) (n R : ℕ) :
    (family.make T n R).isSome ↔ 1 ≤ R ∧ R ≤ family.limit := by
  obtain ⟨C, hC, -⟩ := to2pow_spec T n
  rw [family.make_eq, channelFactoryMake_eq (family.limit_lt T) hC]
  split_ifs with h <;> simp [h]

/-- Both overloads make the same channels. -/
theorem Family.overloads_agree (family : Family) (n R : ℕ) (ch : ProducerAndConsumers T) :
    family.make T n R = some ch ↔
      channelFactoryMakeWithAllocator (family.dummyReaderId T) n R = some (.made ch) := by
  obtain ⟨C, hC, -⟩ := to2pow_spec T n
  rw [family.make_eq, family.dummyReaderId_eq, channelFactoryMake_eq (family.limit_lt T) hC,
    channelFactoryMakeWithAllocator_eq (family.limit_lt T) hC]
  by_cases hR : R = 0
  · simp [hR]
  · by_cases hle : R ≤ family.limit
    · simp [hR, hle, Nat.one_le_iff_ne_zero]
    · simp [hR, hle]

theorem Family.ids_ne_dummy {family : Family} {n R : ℕ} {ch : ProducerAndConsumers T}
    (h : family.make T n R = some ch) : ∀ r ∈ ch.consumers, r.id ≠ family.dummyReaderId T := by
  obtain ⟨C, -, hle, rfl⟩ := Family.make_eq_some h
  have hlt := family.limit_lt T
  intro r hr
  obtain ⟨i, hi, rfl⟩ := List.mem_map.1 hr
  have hi := (List.mem_range'_1.1 hi).2
  rw [family.dummyReaderId_eq]
  intro heq
  have := (WrappingCounter.ofNat_inj (by omega) hlt).1 heq
  omega

/-- A mask with a bit for every reader of a channel leaves a bit of the word free. -/
theorem Constructs.lt {family : Family} {n R : ℕ} (h : Constructs family T n R) (hpos : 1 ≤ R)
    (hle : R ≤ family.limit) : R < 64 := by
  obtain ⟨ch, hch⟩ := Option.isSome_iff_exists.1 (h.made_iff.2 ⟨hpos, hle⟩)
  obtain ⟨mask, hmask, -⟩ := h.mask ch hch
  rw [← h.count ch hch]
  exact (readersMask_isSome _).1 (Option.isSome_of_eq_some hmask)

/-- `make` does all this exactly where it refuses, or where the shift of the mask is narrower than
the word. -/
theorem constructs_iff (family : Family) (T : SeqnumCounter) (n R : ℕ) :
    Constructs family T n R ↔ ¬ (64 ≤ R ∧ R ≤ family.limit) := by
  have hlt := family.limit_lt T
  constructor
  · rintro h ⟨h64, hle⟩
    have := h.lt (by omega) hle
    omega
  · intro hfit
    refine ⟨family.make_isSome_iff T n R, family.overloads_agree n R, fun ch hch => ?_,
      fun ch hch => Family.ids_ne_dummy hch, fun ch hch => ?_, fun ch hch => ?_⟩
    all_goals obtain ⟨C, -, hle, rfl⟩ := Family.make_eq_some hch
    · exact consumersFrom_ids (by omega)
    · exact producerAfter_readersCount (by omega)
    · have hcount : (producerAfter T C R).readersCount = R := producerAfter_readersCount (by omega)
      obtain ⟨mask, hmask⟩ := Option.isSome_iff_exists.1
        ((readersMask_isSome (producerAfter T C R)).2 (by omega))
      refine ⟨mask, hmask, fun i hi => ?_⟩
      rw [getLsbD_readersMask hmask hi, hcount]
      simp only [decide_eq_decide]
      omega

/-- With 64 readers, which a one-to-each queue serves, the shift is as wide as the word. -/
theorem not_constructs_sixty_four : ¬ Constructs .one2each .uint64 4 64 := by
  intro h
  have := h.lt (by decide) (by decide)
  omega

end Ihft.Channel
