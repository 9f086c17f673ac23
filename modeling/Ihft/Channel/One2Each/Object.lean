import Ihft.Channel.ObjectInvariant
import Ihft.Channel.One2Each.QueueImpl

/-!
# The one-to-each object queue

The counter of a bucket starts from the number of readers plus one and is decremented by the
destructor of each guard.  The guard that finds the mark next to `CONSTRUCTED_DATA_MARK` is the
last one: it destroys the event and stores the empty mark.  The sum that a write starts from is
taken modulo the range of the counter type.
-/

namespace Ihft.Channel.One2Each

open Observe GuardedBroadcast Counting

variable {T : SeqnumCounter} {R : ℕ} {α : Type*}

/-- The destructor of a bucket, and the event it destroys. -/
def Bucket.destructor {β : Type*} (b : Bucket T β) : Bucket T β × List (Option β) :=
  if b.counter ≠ emptyDataMark T then
    (⟨dummyEventSeqNum T, emptyDataMark T, none⟩, [b.storage])
  else
    (b, [])

/-- `std::destroy_n`, one bucket after the other. -/
def destroyN {β : Type*} (size : ℕ) (ring : RingBuffer T β) :
    RingBuffer T β × List (Option β) :=
  (fun b => if b < size then (ring b).destructor.1 else ring b,
    (List.range size).flatMap fun b => (ring b).destructor.2)

/-- A `one2each_seqnum_stream_object_queue` with its readers and guards. -/
structure ObjectState (T : SeqnumCounter) (R : ℕ) (α : Type*) extends ObjectCore T R where
  ring : RingBuffer T (Stored α)
  writer : Writer T (Stored α)

namespace ObjectState

/-- The channel handed out by `make`. -/
def start (α : Type*) (ch : ProducerAndConsumers T) (contentAllocator : Bool) :
    ObjectState T ch.consumers.length α where
  toObjectCore := .start ch contentAllocator
  ring _ := .new
  writer := ⟨ch.producer, .idle⟩

/-- `one2each_seqnum_stream_object_queue::try_write` up to its load. -/
def tryWrite (s : ObjectState T R α) (event : α) :
    Option (ObjectState T R α × List (Obs (Fin R) α)) :=
  if s.producer = true then
    let counter := BitVec.ofNat T.digits s.writer.impl.readersCount + constructedDataMark T
    match s.writer.tryWrite s.ring ⟨s.written, event⟩ counter with
    | none => none
    | some (writer, evs) => some ({ s with writer := writer }, evs.map WriterEvent.objectObs)
  else
    none

/-- The rest of `try_write`. -/
def resumeWriter (s : ObjectState T R α) : Option (ObjectState T R α × List (Obs (Fin R) α)) :=
  match s.writer.resume s.ring with
  | none => none
  | some (ring, writer, evs) =>
    some ({ s with ring := ring, writer := writer, written := s.written + evs.length },
      evs.map WriterEvent.objectObs)

/-- `one2each_seqnum_stream_object_reader::try_read`. -/
def tryRead (s : ObjectState T R α) (r : Fin R) :
    Option (ObjectState T R α × List (Obs (Fin R) α)) :=
  let x := s.readers r
  if x.alive = true then
    let bucket := s.ring x.reader.nextBucket
    if bucket.seqn = x.reader.next then
      some ({ s with toObjectCore := s.takeGuard r }, [.read r bucket.storage])
    else
      some (s, [.empty r])
  else
    none

/-- The move constructor of a guard. -/
def moveGuard (s : ObjectState T R α) (r : Fin R) (j : ℕ) :
    Option (ObjectState T R α × List (Obs (Fin R) α)) :=
  (s.toObjectCore.moveGuard (dummyReaderId T) r j).map fun core =>
    ({ s with toObjectCore := core }, [])

/-- The destructor of a guard, up to its `fetch_sub`. -/
def destroyGuard (s : ObjectState T R α) (r : Fin R) (j : ℕ) :
    Option (ObjectState T R α × List (Obs (Fin R) α)) :=
  let guards := (s.readers r).guards
  match guards[j]? with
  | some ⟨bucket, owner, number, .alive⟩ =>
    if owner ≠ dummyReaderId T then
      let releaseEtalon := constructedDataMark T + 1
      let before := (s.ring bucket).counter
      let guards := if before = releaseEtalon then
        guards.set j ⟨bucket, owner, number, .destroy⟩ else guards.eraseIdx j
      some ({ s with
          toObjectCore := s.setGuards r guards, ring := setCounter s.ring bucket (before - 1) },
        [.dropped r number])
    else
      some ({ s with toObjectCore := s.setGuards r (guards.eraseIdx j) }, [])
  | _ => none

/-- The rest of the destructor: the destruction of the event, then the store of the empty mark. -/
def resumeGuard (s : ObjectState T R α) (r : Fin R) (j : ℕ) :
    Option (ObjectState T R α × List (Obs (Fin R) α)) :=
  let guards := (s.readers r).guards
  match guards[j]? with
  | some ⟨bucket, owner, number, .destroy⟩ =>
    let guards := guards.set j ⟨bucket, owner, number, .store⟩
    some ({ s with toObjectCore := s.setGuards r guards, ring := setStorage s.ring bucket none },
      [.destroyed (some r) (s.ring bucket).storage])
  | some ⟨bucket, _, number, .store⟩ =>
    some ({ s with
        toObjectCore := s.setGuards r (guards.eraseIdx j)
        ring := setCounter s.ring bucket (emptyDataMark T) },
      [.freed number])
  | _ => none

/-- The deleter of the shared ring, run when the last owner is gone; the guards are destroyed
before that. -/
def release (s : ObjectState T R α) : Option (ObjectState T R α × List (Obs (Fin R) α)) :=
  if s.Owned then
    some (s, [])
  else if s.Quiet (dummyReaderId T) then
    let destroyed := destroyN s.size s.ring
    some ({ s with ring := destroyed.1 },
      destroyed.2.map (.destroyed none) ++
        .closed :: if s.contentAllocator then [.disposed] else [])
  else
    none

/-- The destructor of the queue. -/
def dropProducer (s : ObjectState T R α) : Option (ObjectState T R α × List (Obs (Fin R) α)) :=
  match s.producer, s.writer.pc with
  | true, .idle => { s with producer := false }.release
  | _, _ => none

/-- The destructor of a reader. -/
def dropReader (s : ObjectState T R α) (r : Fin R) :
    Option (ObjectState T R α × List (Obs (Fin R) α)) :=
  if (s.readers r).alive = true then
    { s with toObjectCore := s.setReader r { s.readers r with alive := false } }.release
  else
    none

end ObjectState

/-- The object queue as a machine. -/
def objectMachine (T : SeqnumCounter) (R : ℕ) (α : Type*) :
    Machine (ObjectState T R α) (ObjectInput R α) (Obs (Fin R) α) where
  step s
    | .tryWrite event => s.tryWrite event
    | .writer => s.resumeWriter
    | .tryRead r => s.tryRead r
    | .moveGuard r j => s.moveGuard r j
    | .destroyGuard r j => s.destroyGuard r j
    | .guard r j => s.resumeGuard r j
    | .dropProducer => s.dropProducer
    | .dropReader r => s.dropReader r

/-! ## The reference counts -/

/-- How many readers still have to drop the event `i`. -/
def pendingReaders (a : State (Fin R) α) (i : ℕ) : ℕ := count fun r => i ∉ a.dropped r

/-- The counter of the slot `k`: the readers that still have to drop its event, plus one until the
bucket is given back. -/
def countOf (T : SeqnumCounter) (C : ℕ) (a : State (Fin R) α) (k : ℕ) : T.Val :=
  if Occupied C a k then
    BitVec.ofNat T.digits (pendingReaders a (k - C)) + constructedDataMark T
  else
    emptyDataMark T

section Counts

variable {C : ℕ} {a : State (Fin R) α} {r : Fin R} {i k : ℕ}

theorem pendingReaders_le (a : State (Fin R) α) (i : ℕ) : pendingReaders a i ≤ R := by
  simpa [pendingReaders] using count_le (p := fun r => i ∉ a.dropped r)

theorem pendingReaders_eq_zero_iff : pendingReaders a i = 0 ↔ a.Released i := by
  simp [pendingReaders, count_eq_zero_iff, State.Released]

/-- The destructor of the guard of `r` takes it off the count of its event. -/
theorem pendingReaders_dropped (C : ℕ) (h : i ∉ a.dropped r) :
    pendingReaders a i = pendingReaders ((spec (Fin R) α C).next a (.dropped r i)) i + 1 := by
  refine count_eq_succ (r := r) h ?_ ?_
  · rw [mem_dropped_next, not_not]
    exact .inl ⟨rfl, rfl⟩
  · intro r' hne
    rw [mem_dropped_next]
    simp [hne]

theorem pendingReaders_dropped_of_ne (C : ℕ) {i' : ℕ} (h : i' ≠ i) :
    pendingReaders ((spec (Fin R) α C).next a (.dropped r i)) i' = pendingReaders a i' := by
  refine count_congr fun r' => ?_
  rw [mem_dropped_next]
  simp [h]

/-- A mark is a small number. -/
theorem ofNat_add_mark (n : ℕ) :
    BitVec.ofNat T.digits n + constructedDataMark T = BitVec.ofNat T.digits (n + 1) :=
  WrappingCounter.ofNat_succ n

theorem countOf_ne_empty (hR : R + 1 < 2 ^ T.digits) (hk : Occupied C a k) :
    countOf T C a k ≠ emptyDataMark T := by
  have := pendingReaders_le a (k - C)
  rw [countOf, if_pos hk, ofNat_add_mark]
  exact (WrappingCounter.ofNat_inj (by omega) (Nat.two_pow_pos _)).not.2 (Nat.succ_ne_zero _)

theorem countOf_eq_empty_iff (hR : R + 1 < 2 ^ T.digits) :
    countOf T C a k = emptyDataMark T ↔ ¬ Occupied C a k :=
  ⟨fun h hk => countOf_ne_empty hR hk h, fun h => if_neg h⟩

/-- The guard that finds the release mark is the last of its event. -/
theorem countOf_eq_etalon_iff (hR : R + 1 < 2 ^ T.digits) (hk : Occupied C a k) :
    countOf T C a k = constructedDataMark T + 1 ↔ pendingReaders a (k - C) = 1 := by
  have hle := pendingReaders_le a (k - C)
  have h2 : constructedDataMark T + 1 = BitVec.ofNat T.digits 2 := WrappingCounter.ofNat_succ 1
  have h8 := T.two_pow_eight_le
  rw [countOf, if_pos hk, ofNat_add_mark, h2, WrappingCounter.ofNat_inj (by omega) (by omega)]
  omega

end Counts

/-! ## The invariant -/

/-- The queue while it is in use. -/
structure OpenRel (C : ℕ) (phase : Fin R → ℕ → Option GuardPc) (s : ObjectState T R α)
    (a : State (Fin R) α) : Prop where
  core : CoreOk (dummyReaderId T) C phase a s.toObjectCore s.writer.pc.event
  readersCount : s.writer.impl.nextReaderId = BitVec.ofNat T.digits R
  ring : RingOk C a.written.length (BitVec.ofNat T.digits R + constructedDataMark T)
    (countOf T C a) (Alive C a) a.item s.ring s.writer

/-- The queue after its teardown. -/
structure ClosedRel (s : ObjectState T R α) (a : State (Fin R) α) : Prop where
  gone : a.stage = .closed ∨ a.stage = .disposed
  spent : CoreSpent (dummyReaderId T) s.toObjectCore
  idle : s.writer.pc = .idle

def ObjectRel (C : ℕ) (s : ObjectState T R α) (a : State (Fin R) α) : Prop :=
  (∃ phase, OpenRel C phase s a) ∨ ClosedRel s a

variable {C : ℕ} {phase : Fin R → ℕ → Option GuardPc} {s s' : ObjectState T R α}
  {a : State (Fin R) α} {os : List (Obs (Fin R) α)} {e : α} {r : Fin R} {j : ℕ}

theorem writerPc_event_eq_none {pc : WriterPc T (Stored α)} : pc.event = none ↔ pc = .idle := by
  cases pc <;> simp [WriterPc.event, WriterPc.args]

theorem OpenRel.occupied_of_alive (h : OpenRel C phase s a) {k : ℕ} (hk : Alive C a k) :
    Occupied C a k :=
  ⟨hk.1, fun hf => hk.2 (h.core.coherent.dead_of_freed _ hf)⟩

/-- The load of the writer finds its counter running exactly when the event written `C` writes
earlier was not given back. -/
theorem OpenRel.tryWrite (hC : IsCapacity T C) (hR : R + 1 < 2 ^ T.digits)
    (h : OpenRel C phase s a) (hs : s.tryWrite e = some (s', os)) :
    ((spec (Fin R) α C).Legal a os ∧ OpenRel C phase s' ((spec (Fin R) α C).after a os)) ∧
      ((os = [.offered e] ∧ ¬ Occupied C a a.written.length) ∨
        (os = [.offered e, .refused e] ∧ s' = s ∧ Occupied C a a.written.length)) := by
  have hmark : BitVec.ofNat T.digits s.writer.impl.readersCount = BitVec.ofNat T.digits R := by
    rw [QueueImpl.readersCount, BitVec.ofNat_toNat, h.readersCount, BitVec.setWidth_eq]
  unfold ObjectState.tryWrite at hs
  split_ifs at hs with hp
  simp only [hmark] at hs
  split at hs
  · cases hs
  · rename_i w evs hw
    simp only [Option.some.injEq, Prod.mk.injEq] at hs
    obtain ⟨rfl, rfl⟩ := hs
    obtain ⟨hring, hpc, hload⟩ := h.ring.tryWrite hC
      (fun ha => countOf_ne_empty hR (h.occupied_of_alive ha)) hw
    have hcore := h.core
    rw [hpc] at hcore
    rcases hload with ⟨hfree, rfl, rfl⟩ | ⟨hocc, rfl, rfl⟩
    · obtain ⟨hallowed, hcore⟩ := hcore.offered hp e
      exact ⟨⟨⟨hallowed, trivial⟩, hcore, h.readersCount, hring⟩,
        .inl ⟨rfl, (countOf_eq_empty_iff hR).1 hfree⟩⟩
    · have hocc := not_not.1 (mt (countOf_eq_empty_iff hR).2 hocc)
      obtain ⟨i, hi, hfreed⟩ := occupied_iff.1 hocc
      obtain ⟨hlegal, hafter⟩ := hcore.refused (e := e) hi hfreed
      refine ⟨⟨hlegal, ?_⟩, .inr ⟨rfl, rfl, hocc⟩⟩
      change OpenRel C phase s ((spec (Fin R) α C).after a [.offered e, .refused e])
      rw [hafter]
      exact h

/-- Inside `try_write` the event written `C` writes earlier is given back. -/
theorem OpenRel.freed_of_writing (hR : R + 1 < 2 ^ T.digits) (h : OpenRel C phase s a)
    (hpc : s.writer.pc ≠ .idle) {i : ℕ} (hi : i + C = a.written.length) : i ∈ a.freed := by
  by_contra hfreed
  exact (countOf_eq_empty_iff hR).1 (h.ring.free hpc).1 (occupied_iff.2 ⟨i, hi, hfreed⟩)

theorem OpenRel.resumeWriter (hC : IsCapacity T C) (hR : R + 1 < 2 ^ T.digits) (hpos : 0 < R)
    (h : OpenRel C phase s a) (hs : s.resumeWriter = some (s', os)) :
    (spec (Fin R) α C).Legal a os ∧ OpenRel C phase s' ((spec (Fin R) α C).after a os) := by
  unfold ObjectState.resumeWriter Writer.resume at hs
  have hcore := h.core
  cases hpc : s.writer.pc with
  | idle => simp [hpc] at hs
  | construct x c =>
    simp only [hpc, Option.some.injEq, Prod.mk.injEq] at hs
    obtain ⟨rfl, rfl⟩ := hs
    rw [hpc] at hcore
    exact ⟨trivial, hcore, h.readersCount, h.ring.construct hC hpc⟩
  | storeCounter x c =>
    simp only [hpc, Option.some.injEq, Prod.mk.injEq] at hs
    obtain ⟨rfl, rfl⟩ := hs
    rw [hpc] at hcore
    exact ⟨trivial, hcore, h.readersCount, h.ring.storeCounter hC hpc⟩
  | publish x c =>
    simp only [hpc, Option.some.injEq, Prod.mk.injEq] at hs
    obtain ⟨rfl, rfl⟩ := hs
    rw [hpc] at hcore
    obtain ⟨hnum, hallowed, hcore⟩ := hcore.wrote hpos
      fun i hi => h.freed_of_writing hR (by rw [hpc]; simp) hi
    refine ⟨⟨hallowed, trivial⟩, hcore, h.readersCount, ?_⟩
    change RingOk C ((spec (Fin R) α C).next a (.wrote x.value)).written.length _ _ _ _ _ _
    simp only [spec, State.next, List.length_append, List.length_singleton]
    have hnew : a.written.length ∉ a.freed := fun hf =>
      absurd (h.core.coherent.lt_of_dead _ (h.core.coherent.dead_of_freed _ hf)) (lt_irrefl _)
    have hall : pendingReaders a a.written.length = R := by
      unfold pendingReaders
      rw [count_all, Fintype.card_fin]
      intro r hd
      exact absurd ((h.core.coherent.lt_of_dropped r _ hd).trans_le
        (h.core.coherent.cursor_le r)) (lt_irrefl _)
    refine h.ring.publish hC hpc (fun _ _ => rfl) ?_ (fun _ _ hk => hk) ?_ ?_
    · change countOf T C a (a.written.length + C) = _
      rw [countOf, if_pos (occupied_iff.2 ⟨_, rfl, hnew⟩), Nat.add_sub_cancel, hall]
    · rw [State.item_eq_some_iff]
      refine ⟨hnum, ?_⟩
      change (a.written ++ [x.value])[a.written.length]? = _
      simp
    · intro i hi
      exact State.item_append hi _ rfl

/-- The load of a reader finds the next event exactly when it is published. -/
theorem OpenRel.tryRead (hC : IsCapacity T C) (h : OpenRel C phase s a)
    (hs : s.tryRead r = some (s', os)) :
    ((spec (Fin R) α C).Legal a os ∧ ∃ phase', OpenRel C phase' s' ((spec (Fin R) α C).after a os)) ∧
      ((os = [.read r (a.item (a.cursor r))] ∧ a.cursor r < a.written.length) ∨
        (os = [.empty r] ∧ s' = s ∧ a.cursor r = a.written.length)) := by
  unfold ObjectState.tryRead at hs
  have hidx := h.core.reader r
  have hle := h.core.coherent.cursor_le r
  have hW := h.core.coherent.length_le (h.core.coherent.cursor_not_freed r)
  have hload := h.ring.load_iff hC hle hW
  simp only [hidx.next_eq, hidx.nextBucket, hload] at hs
  split_ifs at hs with halive hlt
  · simp only [Option.some.injEq, Prod.mk.injEq] at hs
    obtain ⟨rfl, rfl⟩ := hs
    have hst := h.ring.storage (a.cursor r + C) hW (by omega) ⟨Nat.le_add_left C _, ?_⟩
    · rw [Nat.add_mod_right, Nat.add_sub_cancel] at hst
      rw [hst]
      obtain ⟨hallowed, hcore⟩ := h.core.read hC hlt
      exact ⟨⟨⟨hallowed, trivial⟩, _, hcore, h.readersCount, h.ring⟩, .inl ⟨rfl, hlt⟩⟩
    · rw [Nat.add_sub_cancel]
      intro hd
      exact h.core.coherent.cursor_not_dropped r
        (h.core.coherent.released_of_dead h.core.running _ hd r)
  · simp only [Option.some.injEq, Prod.mk.injEq] at hs
    obtain ⟨rfl, rfl⟩ := hs
    have heq : a.cursor r = a.written.length := by omega
    exact ⟨⟨⟨⟨h.core.running, heq⟩, trivial⟩, phase, h⟩, .inr ⟨rfl, rfl, heq⟩⟩

theorem OpenRel.moveGuard (h : OpenRel C phase s a) (hs : s.moveGuard r j = some (s', os)) :
    (spec (Fin R) α C).Legal a os ∧ OpenRel C phase s' ((spec (Fin R) α C).after a os) := by
  unfold ObjectState.moveGuard at hs
  obtain ⟨core, hcore, heq⟩ := Option.map_eq_some_iff.1 hs
  simp only [Prod.mk.injEq] at heq
  obtain ⟨rfl, rfl⟩ := heq
  exact ⟨trivial, h.core.moveGuard hcore, h.readersCount, h.ring⟩

/-- The slot of an event that is not given back lies in the window. -/
theorem OpenRel.window (h : OpenRel C phase s a) {k : ℕ} (hk : k < a.written.length)
    (hfreed : k ∉ a.freed) :
    a.written.length ≤ k + C ∧ k + C < a.written.length + C ∧ (k + C) % C = k % C :=
  ⟨h.core.coherent.length_le hfreed, by omega, Nat.add_mod_right k C⟩

/-- The counter of an event that is not given back, as the readers find it. -/
theorem OpenRel.counter_eq (hR : R + 1 < 2 ^ T.digits) (h : OpenRel C phase s a) {k : ℕ}
    (hk : k < a.written.length) (hfreed : k ∉ a.freed) :
    (s.ring (k % C)).counter = countOf T C a (k + C) := by
  obtain ⟨hw, hw', hmod⟩ := h.window hk hfreed
  have hocc : Occupied C a (k + C) := occupied_iff.2 ⟨k, rfl, hfreed⟩
  rw [← hmod]
  exact h.ring.counter (k + C) hw hw' fun heq e c hpc =>
    h.ring.ne_of_count_ne (countOf_ne_empty hR hocc) (by rw [hpc]; simp) heq

theorem OpenRel.fetchSub (hR : R + 1 < 2 ^ T.digits) (h : OpenRel C phase s a) {k : ℕ}
    (hheld : a.Held r k) :
    RingOk C a.written.length (BitVec.ofNat T.digits R + constructedDataMark T)
      (countOf T C ((spec (Fin R) α C).next a (.dropped r k))) (Alive C a) a.item
      (setCounter s.ring (k % C) ((s.ring (k % C)).counter - 1)) s.writer := by
  have hlt := hheld.1.trans_le (h.core.coherent.cursor_le r)
  have hfreed := h.core.coherent.not_freed_of_held hheld
  obtain ⟨hw, hw', hmod⟩ := h.window hlt hfreed
  have hocc : Occupied C a (k + C) := occupied_iff.2 ⟨k, rfl, hfreed⟩
  have hocc' : Occupied C ((spec (Fin R) α C).next a (.dropped r k)) (k + C) := hocc
  have hdown : (s.ring (k % C)).counter - 1 =
      countOf T C ((spec (Fin R) α C).next a (.dropped r k)) (k + C) := by
    rw [h.counter_eq hR hlt hfreed, countOf, countOf, if_pos hocc, if_pos hocc',
      Nat.add_sub_cancel, pendingReaders_dropped C hheld.2, ofNat_add_mark, ofNat_add_mark,
      WrappingCounter.ofNat_sub_one (Nat.succ_pos _), Nat.succ_sub_one]
  rw [hdown, ← hmod]
  refine h.ring.setCounter hw hw' (countOf_ne_empty hR hocc) ?_ fun _ ha => ha
  intro k' hk'
  unfold countOf
  by_cases hocc'' : Occupied C a k'
  · have hne : k' - C ≠ k := fun heq => hk' (by have := hocc''.1; omega)
    rw [if_pos hocc'', if_pos (show Occupied C ((spec (Fin R) α C).next a (.dropped r k)) k' from
      hocc''), pendingReaders_dropped_of_ne C hne]
  · rw [if_neg hocc'', if_neg (show ¬ Occupied C ((spec (Fin R) α C).next a (.dropped r k)) k' from
      hocc'')]

/-- A guard that finds the release mark is the last of its event. -/
theorem OpenRel.etalon_iff (hR : R + 1 < 2 ^ T.digits) (h : OpenRel C phase s a) {k : ℕ}
    (hheld : a.Held r k) : (s.ring (k % C)).counter = constructedDataMark T + 1 ↔
      ((spec (Fin R) α C).next a (.dropped r k)).Released k := by
  have hlt := hheld.1.trans_le (h.core.coherent.cursor_le r)
  have hfreed := h.core.coherent.not_freed_of_held hheld
  rw [h.counter_eq hR hlt hfreed, countOf_eq_etalon_iff hR (occupied_iff.2 ⟨k, rfl, hfreed⟩),
    Nat.add_sub_cancel, pendingReaders_dropped C hheld.2, ← pendingReaders_eq_zero_iff]
  omega

/-- The `fetch_sub` of a guard; the last guard of its event goes on. -/
theorem OpenRel.destroyGuard (hR : R + 1 < 2 ^ T.digits) (h : OpenRel C phase s a)
    (hs : s.destroyGuard r j = some (s', os)) :
    (spec (Fin R) α C).Legal a os ∧ ∃ phase', OpenRel C phase' s' ((spec (Fin R) α C).after a os) := by
  simp only [ObjectState.destroyGuard] at hs
  split at hs
  · rename_i bucket owner k hj
    by_cases howner : owner = dummyReaderId T
    · rw [if_neg (not_not.2 howner)] at hs
      simp only [Option.some.injEq, Prod.mk.injEq] at hs
      obtain ⟨rfl, rfl⟩ := hs
      exact ⟨trivial, phase, h.core.eraseMoved hj howner, h.readersCount, h.ring⟩
    · rw [if_pos howner] at hs
      simp only [Option.some.injEq, Prod.mk.injEq] at hs
      obtain ⟨rfl, rfl⟩ := hs
      obtain ⟨hheld, hbucket⟩ := h.core.held_of_guard hj howner rfl
      simp only at hheld hbucket
      have hetalon := h.etalon_iff hR hheld
      have hring := h.fetchSub hR hheld
      rw [← hbucket] at hetalon hring
      by_cases hlast : (s.ring bucket).counter = constructedDataMark T + 1
      · obtain ⟨hallowed, hcore⟩ := h.core.dropped hheld
          (by rw [setPhase_row]; exact (h.core.guards r).setPc hj howner .destroy)
          (.inl ⟨rfl, hetalon.1 hlast⟩)
        rw [if_pos hlast]
        exact ⟨⟨hallowed, trivial⟩, _, hcore, h.readersCount, hring⟩
      · obtain ⟨hallowed, hcore⟩ := h.core.dropped hheld
          (by rw [setPhase_row]; exact (h.core.guards r).erase hj howner)
          (.inr ⟨rfl, mt hetalon.2 hlast⟩)
        rw [if_neg hlast]
        exact ⟨⟨hallowed, trivial⟩, _, hcore, h.readersCount, hring⟩
  · cases hs

/-- The last guard destroys the event, then it gives the bucket back. -/
theorem OpenRel.resumeGuard (hR : R + 1 < 2 ^ T.digits) (h : OpenRel C phase s a)
    (hs : s.resumeGuard r j = some (s', os)) :
    (spec (Fin R) α C).Legal a os ∧ ∃ phase', OpenRel C phase' s' ((spec (Fin R) α C).after a os) := by
  have howner_of : ∀ {g}, (s.readers r).guards[j]? = some g → g.pc ≠ .alive →
      g.owner ≠ dummyReaderId T := fun hj hpc heq =>
    hpc ((h.core.guards r).moved _ (List.mem_of_getElem? hj) heq)
  simp only [ObjectState.resumeGuard] at hs
  split at hs
  · rename_i bucket owner k hj
    simp only [Option.some.injEq, Prod.mk.injEq] at hs
    obtain ⟨rfl, rfl⟩ := hs
    have howner := howner_of hj (by simp)
    obtain ⟨hphase, hbucket⟩ := (h.core.guards r).live hj howner
    simp only at hphase hbucket
    obtain ⟨hlt, hdead, -⟩ := h.core.destroy r k hphase
    have hfreed : k ∉ a.freed := fun hf => hdead (h.core.coherent.dead_of_freed k hf)
    obtain ⟨hw, hw', hmod⟩ := h.window hlt hfreed
    have hst := h.ring.storage (k + C) hw hw' ⟨Nat.le_add_left C k, by rwa [Nat.add_sub_cancel]⟩
    rw [hmod, Nat.add_sub_cancel, ← hbucket] at hst
    obtain ⟨hallowed, hcore⟩ := h.core.destroyed hj howner rfl
    rw [hst]
    refine ⟨⟨hallowed, trivial⟩, _, hcore, h.readersCount, ?_⟩
    rw [hbucket, ← hmod]
    refine h.ring.destroy hw hw' (countOf_ne_empty hR (occupied_iff.2 ⟨k, rfl, hfreed⟩)) ?_
    rintro k' ⟨hle, hk'⟩
    have hk' := not_or.1 (mt (mem_dead_next hlt (some r)).2 hk')
    exact ⟨⟨hle, hk'.2⟩, by omega⟩
  · rename_i bucket owner k hj
    simp only [Option.some.injEq, Prod.mk.injEq] at hs
    obtain ⟨rfl, rfl⟩ := hs
    have howner := howner_of hj (by simp)
    obtain ⟨hphase, hbucket⟩ := (h.core.guards r).live hj howner
    simp only at hphase hbucket
    obtain ⟨hdead, hfreed, -⟩ := h.core.store r k hphase
    obtain ⟨hw, hw', hmod⟩ := h.window (h.core.coherent.lt_of_dead k hdead) hfreed
    obtain ⟨hallowed, hcore⟩ := h.core.freed hj howner rfl
    refine ⟨⟨hallowed, trivial⟩, _, hcore, h.readersCount, ?_⟩
    have hempty : countOf T C ((spec (Fin R) α C).next a (.freed k)) (k + C) = emptyDataMark T := by
      refine if_neg fun hocc => hocc.2 ?_
      rw [Nat.add_sub_cancel]
      exact Finset.mem_insert_self k a.freed
    have hcount : ∀ k', k' ≠ k + C →
        countOf T C ((spec (Fin R) α C).next a (.freed k)) k' = countOf T C a k' := by
      intro k' hk'
      unfold countOf
      refine if_congr ?_ rfl rfl
      change C ≤ k' ∧ k' - C ∉ insert k a.freed ↔ C ≤ k' ∧ k' - C ∉ a.freed
      rw [Finset.mem_insert, not_or]
      constructor
      · rintro ⟨h1, -, h3⟩
        exact ⟨h1, h3⟩
      · rintro ⟨h1, h3⟩
        exact ⟨h1, by omega, h3⟩
    have hring := h.ring.setCounter hw hw' (countOf_ne_empty hR (occupied_iff.2 ⟨k, rfl, hfreed⟩))
      hcount fun _ (ha : Alive C a _) => ha
    rw [hempty, hmod, ← hbucket] at hring
    exact hring
  · cases hs

/-- What the bucket destructors destroy, as long as no destructor of a guard is at work. -/
theorem OpenRel.destructor (hR : R + 1 < 2 ^ T.digits) (h : OpenRel C phase s a)
    (hpc : s.writer.pc = .idle) (hq : s.Settled (dummyReaderId T)) {k : ℕ}
    (hk : a.written.length ≤ k) (hk' : k < a.written.length + C) :
    (s.ring (k % C)).destructor.2 = if Occupied C a k then [a.item (k - C)] else [] := by
  have hcounter := h.ring.counter k hk hk' (by simp [hpc])
  unfold Bucket.destructor
  rw [hcounter]
  by_cases hocc : Occupied C a k
  · rw [if_pos (countOf_ne_empty hR hocc), if_pos hocc]
    have hdead := (h.core.unreleased_of_settled hq (show k - C < a.written.length by
      have := hocc.1; omega) hocc.2).1
    rw [h.ring.storage k hk hk' ⟨hocc.1, hdead⟩]
  · rw [if_neg (not_not.2 ((countOf_eq_empty_iff hR).2 hocc)), if_neg hocc]

theorem OpenRel.release (hR : R + 1 < 2 ^ T.digits) (h : OpenRel C phase s a)
    (hs : s.release = some (s', os)) :
    (spec (Fin R) α C).Legal a os ∧ ObjectRel C s' ((spec (Fin R) α C).after a os) := by
  unfold ObjectState.release at hs
  by_cases howned : s.Owned
  · rw [if_pos howned] at hs
    simp only [Option.some.injEq, Prod.mk.injEq] at hs
    obtain ⟨rfl, rfl⟩ := hs
    exact ⟨trivial, .inl ⟨phase, h⟩⟩
  · rw [if_neg howned] at hs
    by_cases hq : s.Quiet (dummyReaderId T)
    · rw [if_pos hq] at hs
      simp only [Option.some.injEq, Prod.mk.injEq] at hs
      obtain ⟨rfl, rfl⟩ := hs
      have hevent := h.core.idle (Bool.eq_false_iff.2 fun hp => howned (.inl hp))
      have hpc := writerPc_event_eq_none.1 hevent
      have hcore := h.core
      rw [hevent] at hcore
      obtain ⟨hlegal, hgone⟩ := hcore.teardown hq (f := fun b => (s.ring b).destructor.2)
        (fun k hk hk' => h.destructor hR hpc hq.settled hk hk') s.contentAllocator
      simp only [destroyN, h.core.size]
      refine ⟨hlegal, .inr ⟨hgone, ⟨howned, fun r g hg => ?_⟩, hpc⟩⟩
      exact ⟨hq r g hg, (h.core.guards r).moved g hg (hq r g hg)⟩
    · rw [if_neg hq] at hs
      cases hs

theorem OpenRel.dropProducer (hR : R + 1 < 2 ^ T.digits) (h : OpenRel C phase s a)
    (hs : s.dropProducer = some (s', os)) :
    (spec (Fin R) α C).Legal a os ∧ ObjectRel C s' ((spec (Fin R) α C).after a os) := by
  unfold ObjectState.dropProducer at hs
  split at hs
  · rename_i hp hpc
    have hopen : OpenRel C phase { s with producer := false } a :=
      ⟨h.core.leave (fun _ => writerPc_event_eq_none.2 hpc) fun _ => rfl, h.readersCount, h.ring⟩
    exact hopen.release hR hs
  · cases hs

theorem OpenRel.dropReader (hR : R + 1 < 2 ^ T.digits) (h : OpenRel C phase s a)
    (hs : s.dropReader r = some (s', os)) :
    (spec (Fin R) α C).Legal a os ∧ ObjectRel C s' ((spec (Fin R) α C).after a os) := by
  unfold ObjectState.dropReader at hs
  split_ifs at hs with halive
  have hsame : ∀ r', { Function.update s.readers r { s.readers r with alive := false } r' with
      alive := (s.readers r').alive } = s.readers r' := by
    intro r'
    rcases eq_or_ne r' r with rfl | hne
    · rw [Function.update_self]
    · rw [Function.update_of_ne hne]
  have hopen : OpenRel C phase { s with
      toObjectCore := s.setReader r { s.readers r with alive := false } } a :=
    ⟨h.core.leave h.core.idle hsame, h.readersCount, h.ring⟩
  exact hopen.release hR hs

/-- After the teardown only guards that were moved from can move or go. -/
theorem ClosedRel.step {i : ObjectInput R α} (h : ClosedRel s a)
    (hs : (objectMachine T R α).step s i = some (s', os)) : os = [] ∧ ClosedRel s' a := by
  obtain ⟨hgone, hspent, hidle⟩ := h
  simp only [objectMachine] at hs
  cases i with
  | tryWrite e => simp [ObjectState.tryWrite, hspent.producer] at hs
  | writer => simp [ObjectState.resumeWriter, Writer.resume, hidle] at hs
  | tryRead r => simp [ObjectState.tryRead, hspent.alive] at hs
  | dropProducer => simp [ObjectState.dropProducer, hspent.producer] at hs
  | dropReader r => simp [ObjectState.dropReader, hspent.alive] at hs
  | moveGuard r j =>
    unfold ObjectState.moveGuard at hs
    obtain ⟨core, hcore, heq⟩ := Option.map_eq_some_iff.1 hs
    simp only [Prod.mk.injEq] at heq
    obtain ⟨rfl, rfl⟩ := heq
    exact ⟨rfl, hgone, hspent.moveGuard hcore, hidle⟩
  | destroyGuard r j =>
    simp only [ObjectState.destroyGuard] at hs
    split at hs
    · rename_i bucket owner k hj
      rw [if_neg (not_not.2 (hspent.moved r _ (List.mem_of_getElem? hj)).1)] at hs
      simp only [Option.some.injEq, Prod.mk.injEq] at hs
      obtain ⟨rfl, rfl⟩ := hs
      exact ⟨rfl, hgone, hspent.eraseGuard r j, hidle⟩
    · cases hs
  | guard r j =>
    simp only [ObjectState.resumeGuard] at hs
    split at hs
    · rename_i bucket owner k hj
      cases (hspent.moved r _ (List.mem_of_getElem? hj)).2
    · rename_i bucket owner k hj
      cases (hspent.moved r _ (List.mem_of_getElem? hj)).2
    · cases hs

/-- The queue simulates the broadcast of objects to `R` readers with `C` places, as long as the
counter can hold the number of readers plus one. -/
theorem object_simulates (hC : IsCapacity T C) (hR : R + 1 < 2 ^ T.digits) (hpos : 0 < R) :
    Simulates (objectMachine T R α) (spec (Fin R) α C) (ObjectRel C) where
  step {s a i s' os} h hs := by
    rcases h with ⟨phase, h⟩ | h
    · cases i with
      | tryWrite e =>
        obtain ⟨hlegal, hrel⟩ := (h.tryWrite hC hR hs).1
        exact ⟨hlegal, .inl ⟨_, hrel⟩⟩
      | writer =>
        obtain ⟨hlegal, hrel⟩ := h.resumeWriter hC hR hpos hs
        exact ⟨hlegal, .inl ⟨_, hrel⟩⟩
      | tryRead r =>
        obtain ⟨hlegal, hrel⟩ := (h.tryRead hC hs).1
        exact ⟨hlegal, .inl hrel⟩
      | moveGuard r j =>
        obtain ⟨hlegal, hrel⟩ := h.moveGuard hs
        exact ⟨hlegal, .inl ⟨_, hrel⟩⟩
      | destroyGuard r j =>
        obtain ⟨hlegal, hrel⟩ := h.destroyGuard hR hs
        exact ⟨hlegal, .inl hrel⟩
      | guard r j =>
        obtain ⟨hlegal, hrel⟩ := h.resumeGuard hR hs
        exact ⟨hlegal, .inl hrel⟩
      | dropProducer => exact h.dropProducer hR hs
      | dropReader r => exact h.dropReader hR hs
    · obtain ⟨rfl, hclosed⟩ := h.step hs
      exact ⟨trivial, .inr hclosed⟩

theorem objectRel_start {C : ℕ} (hC : IsCapacity T C) (hR : R ≤ 255) (contentAllocator : Bool) :
    ObjectRel C (.start α ⟨producerAfter T C R, consumersFrom T C 0 R⟩ contentAllocator)
      GuardedBroadcast.start := by
  refine .inl ⟨fun _ _ => none, coreOk_start ⟨producerAfter T C R, consumersFrom T C 0 R⟩
    (producerAfter_capacity hC R) (fun r => ⟨_, consumersFrom_getElem C R r r.isLt, ?_⟩)
    contentAllocator, ?_, ?_⟩
  · have hr : r.val < R := by simpa using r.isLt
    exact (WrappingCounter.ofNat_inj (by have := max_reader_lt T; omega) (max_reader_lt T)).not.2
      (by omega)
  · exact congrArg (BitVec.ofNat T.digits) (consumersFrom_length C 0 R).symm
  · exact ringOk_new _ (fun k hk => if_neg fun hocc => absurd hocc.1 (by omega)) fun k hk => hk.1

/-- What a live guard refers to is the event that was read, and written, under its number. -/
theorem OpenRel.guard_storage (h : OpenRel C phase s a) {g : Guard T}
    (hj : (s.readers r).guards[j]? = some g) (howner : g.owner ≠ dummyReaderId T)
    (hpc : g.pc = .alive) :
    g.number < a.cursor r ∧ (s.ring g.bucket).storage = a.item g.number := by
  obtain ⟨hheld, hbucket⟩ := h.core.held_of_guard hj howner hpc
  have hlt := hheld.1.trans_le (h.core.coherent.cursor_le r)
  obtain ⟨hw, hw', hmod⟩ := h.window hlt (h.core.coherent.not_freed_of_held hheld)
  have hst := h.ring.storage _ hw hw' ⟨Nat.le_add_left C _, ?_⟩
  · rw [hmod, Nat.add_sub_cancel, ← hbucket] at hst
    exact ⟨hheld.1, hst⟩
  · rw [Nat.add_sub_cancel]
    exact fun hd => h.core.coherent.dead_unheld hd r hheld

end Ihft.Channel.One2Each
