import Ihft.Channel.One2Each.Object

/-!
# How many readers an object queue can serve

`make` hands out up to 255 readers, while a write starts the counter of its bucket from the number
of readers plus one.  Where that sum is representable no event is overwritten before its last
reader is done with it.  Where it is not, with 255 readers and an 8-bit counter, the sum wraps to
the empty mark and the writer takes every bucket for a free one (`object_safe_iff`).
-/

namespace Ihft.Channel.One2Each

open Observe GuardedBroadcast

variable {T : SeqnumCounter} {R : ℕ} {α : Type*}

/-- No event is lost, overwritten or changed under a reader: the writer constructs only into a
bucket whose event was dropped by everybody and given back, the reads are in order, and a live
guard refers to the event that was read. -/
structure Safe (capacity : ℕ) (s : ObjectState T R α) (log : List (Obs (Fin R) α)) : Prop where
  construct : ∀ event counter, s.writer.pc = .construct event counter →
    ∀ i, i + capacity = (writes log).length → .freed i ∈ log ∧ ∀ r, .dropped r i ∈ log
  reads : ∀ r, reads r log <+: (numbered (writes log)).map some
  guard : ∀ r, ∀ g ∈ (s.readers r).guards, g.owner ≠ dummyReaderId T → g.pc = .alive →
    (GuardedBroadcast.reads r log)[g.number]? = some (s.ring g.bucket).storage ∧
      (s.ring g.bucket).storage = (numbered (writes log))[g.number]?

/-! ## Enough room in the counter -/

section Room

variable {C : ℕ} {s : ObjectState T R α}

theorem ObjectRel.safe (hR : R + 1 < 2 ^ T.digits) {log : List (Obs (Fin R) α)}
    (hlegal : (spec (Fin R) α C).Legal GuardedBroadcast.start log)
    (h : ObjectRel C s ((spec (Fin R) α C).after GuardedBroadcast.start log)) : Safe C s log := by
  have track := tracks_of_legal hlegal
  rcases h with ⟨phase, h⟩ | h
  · refine ⟨fun e c hpc i hi => ?_, reads_isPrefix hlegal, fun r g hg howner hpc => ?_⟩
    · have hfreed := h.freed_of_writing hR (by rw [hpc]; simp) (track.written ▸ hi)
      exact ⟨(track.freed i).1 hfreed,
        fun r => (track.dropped r i).1 (h.core.coherent.released_of_freed i hfreed r)⟩
    · obtain ⟨j, hj⟩ := List.getElem?_of_mem hg
      obtain ⟨hlt, hst⟩ := h.guard_storage hj howner hpc
      rw [track.cursor] at hlt
      rw [State.item_eq_numbered, track.written] at hst
      exact ⟨hst ▸ reads_getElem hlegal r hlt, hst⟩
  · refine ⟨fun e c hpc => ?_, reads_isPrefix hlegal, fun r g hg howner => ?_⟩
    · rw [h.idle] at hpc
      cases hpc
    · exact absurd (h.spent.moved r g hg).1 howner

end Room

/-! ## No room in the counter -/

/-- A writer that takes every bucket for a free one: it starts from the empty mark. -/
structure Runaway (s : ObjectState T R α) (log : List (Obs (Fin R) α)) : Prop where
  producer : s.producer = true
  idle : s.writer.pc = .idle
  mark : BitVec.ofNat T.digits s.writer.impl.readersCount + constructedDataMark T = emptyDataMark T
  counters : ∀ b, (s.ring b).counter = emptyDataMark T
  undropped : ∀ r i, .dropped r i ∉ log

section Runaway

variable {s : ObjectState T R α} {log : List (Obs (Fin R) α)}

/-- Its next load goes through. -/
theorem Runaway.tryWrite (h : Runaway s log) (e : α) :
    (objectMachine T R α).step s (.tryWrite e) =
      some ({ s with writer := ⟨s.writer.impl, .construct ⟨s.written, e⟩ (emptyDataMark T)⟩ },
        [.offered e]) := by
  simp only [objectMachine, ObjectState.tryWrite, h.producer, if_true, Writer.tryWrite, h.idle,
    h.counters, h.mark]
  rfl

/-- So does its next write. -/
theorem Runaway.write (h : Runaway s log) (e : α) : ∃ s',
    (objectMachine T R α).Reaches s s' [.offered e, .wrote e] ∧
      Runaway s' (log ++ [.offered e, .wrote e]) := by
  let x : Stored α := ⟨s.written, e⟩
  let b := s.writer.impl.nextBucket
  let s' : ObjectState T R α := { s with
    ring := setSeqn (setCounter (setStorage s.ring b (some x)) b (emptyDataMark T)) b
      s.writer.impl.seqn
    writer := ⟨s.writer.impl.advance, .idle⟩
    written := s.written + 1 }
  have hrun : (objectMachine T R α).run s [.tryWrite e, .writer, .writer, .writer] =
      some (s', [.offered e, .wrote e]) := by
    simp only [Machine.run, h.tryWrite]
    rfl
  refine ⟨s', Machine.Reaches.of_run hrun, h.producer, rfl, h.mark, fun c => ?_, fun r i => ?_⟩
  · simp only [s', setSeqn_counter]
    by_cases hc : c = b
    · rw [hc, setCounter_self]
    · rw [setCounter_of_ne _ hc, setStorage_counter, h.counters]
  · simpa using h.undropped r i

theorem Runaway.writes (h : Runaway s log) (e : α) : ∀ m, ∃ s' log',
    (objectMachine T R α).Reaches s s' log' ∧ Runaway s' (log ++ log') ∧
      (GuardedBroadcast.writes log').length = m
  | 0 => ⟨s, [], .start, by simpa using h, rfl⟩
  | m + 1 => by
    obtain ⟨s', log', hreach, hrun, hlen⟩ := Runaway.writes h e m
    obtain ⟨s'', hreach', hrun'⟩ := hrun.write e
    refine ⟨s'', log' ++ [.offered e, .wrote e], hreach.trans hreach', ?_, ?_⟩
    · rw [← List.append_assoc]
      exact hrun'
    · simp only [GuardedBroadcast.writes, List.filterMap_append, List.length_append] at hlen ⊢
      rw [hlen]
      rfl

/-- After a whole round it constructs into the first bucket, which nobody has released. -/
theorem Runaway.not_safe (h : Runaway s []) (hpos : 0 < R) (e : α) (C : ℕ) :
    ∃ s' log, (objectMachine T R α).Reaches s s' log ∧ ¬ Safe C s' log := by
  obtain ⟨s', log, hreach, hrun, hlen⟩ := Runaway.writes h e C
  refine ⟨_, _, .step (.tryWrite e) hreach (hrun.tryWrite e), fun hsafe => ?_⟩
  have hzero : 0 + C = (GuardedBroadcast.writes (log ++ [Obs.offered (ρ := Fin R) e])).length := by
    rw [zero_add, GuardedBroadcast.writes, List.filterMap_append, List.length_append]
    exact hlen.symm
  have hdropped := (hsafe.construct _ _ rfl 0 hzero).2 ⟨0, hpos⟩
  rcases List.mem_append.1 hdropped with hmem | hmem
  · exact hrun.undropped ⟨0, hpos⟩ 0 hmem
  · simp at hmem

end Runaway

theorem runaway_start {C : ℕ} (hR : R + 1 = 2 ^ T.digits) (contentAllocator : Bool) :
    Runaway (.start α ⟨producerAfter T C R, consumersFrom T C 0 R⟩ contentAllocator) [] where
  producer := rfl
  idle := rfl
  mark := by
    have hsum : BitVec.ofNat T.digits R + constructedDataMark T = 0 := by
      rw [ofNat_add_mark, hR]
      apply BitVec.eq_of_toNat_eq
      rw [BitVec.toNat_ofNat, Nat.mod_self]
      rfl
    change BitVec.ofNat T.digits (BitVec.ofNat T.digits R).toNat + constructedDataMark T = 0
    rw [BitVec.ofNat_toNat, BitVec.setWidth_eq]
    exact hsum
  counters _ := rfl
  undropped _ _ := List.not_mem_nil

/-- The queue is safe in all its runs exactly when its counter can hold the number of readers plus
one. -/
theorem object_safe_iff [Inhabited α] {n : ℕ} {ch : ProducerAndConsumers T}
    (contentAllocator : Bool) (hmake : make T n R = some ch) :
    (∀ s log, (objectMachine T _ α).Reaches (.start α ch contentAllocator) s log →
      Safe ch.producer.capacity s log) ↔ R + 1 < 2 ^ T.digits := by
  obtain ⟨C, -, hC, hpos, hmax, rfl⟩ := make_eq_some hmake
  rw [producerAfter_capacity hC]
  have hlen := consumersFrom_length (T := T) C 0 R
  constructor
  · intro hall
    by_contra hno
    have hwrap : R + 1 = 2 ^ T.digits := by
      have := T.two_pow_eight_le
      omega
    obtain ⟨s, log, hreach, hunsafe⟩ := (runaway_start hwrap contentAllocator).not_safe
      (by rw [hlen]; omega) (default : α) C
    exact hunsafe (hall s log hreach)
  · intro hR s log hreach
    obtain ⟨legal, rel⟩ := (object_simulates hC (by rw [hlen]; exact hR)
      (by rw [hlen]; omega)).reaches (objectRel_start hC hmax contentAllocator) hreach
    exact rel.safe (by rw [hlen]; exact hR) legal

/-- Two readers and a 16-bit counter leave room. -/
theorem object_safe_iff_uint16 : ∃ ch, make .uint16 6 2 = some ch ∧
    ∀ s log, (objectMachine .uint16 _ ℕ).Reaches (.start ℕ ch true) s log →
      Safe ch.producer.capacity s log := by
  obtain ⟨C, -, -, hmake⟩ := make_isSome .uint16 6 (show 1 ≤ 2 by decide) (by decide)
  exact ⟨_, hmake, (object_safe_iff true hmake).2 (by decide)⟩

/-- With an 8-bit counter and 255 readers, which `make` accepts, events are overwritten. -/
theorem object_overwrites : ∃ ch, make .uint8 4 255 = some ch ∧
    ¬ ∀ s log, (objectMachine .uint8 _ ℕ).Reaches (.start ℕ ch false) s log →
      Safe ch.producer.capacity s log := by
  obtain ⟨C, -, -, hmake⟩ := make_isSome .uint8 4 (show 1 ≤ 255 by decide) le_rfl
  refine ⟨_, hmake, fun hall => ?_⟩
  obtain ⟨s, log, hreach, hunsafe⟩ :=
    (runaway_start (T := .uint8) (R := 255) (α := ℕ) (C := C) rfl false).not_safe
      (by rw [consumersFrom_length]; decide) 0 _
  exact hunsafe (hall s log hreach)

end Ihft.Channel.One2Each
