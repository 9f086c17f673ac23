import Ihft.Lib.Counting
import Ihft.Channel.One2Each.QueueImpl

/-!
# The one-to-each POD queue

One writer and `R` readers interleave at the granularity of one atomic operation on `m_seqn` or
`m_counter`, one construction or one copy of an event.  The counter of a bucket is the number of
readers that have not yet released its last event, so the queue simulates the lossless broadcast
with `capacity()` places (`pod_broadcast`).
-/

namespace Ihft.Channel.One2Each

open Observe Broadcast Counting

variable {T : SeqnumCounter} {R : ℕ} {α : Type*}

/-- A consumer and where it stands inside `try_read`. -/
structure PodReader (T : SeqnumCounter) (α : Type*) where
  reader : StreamReader T
  pc : PodReaderPc α

/-- The ring, the producer and the consumers of a `one2each_seqnum_stream_pod_queue`. -/
structure PodState (T : SeqnumCounter) (R : ℕ) (α : Type*) where
  ring : RingBuffer T α
  writer : Writer T α
  readers : Fin R → PodReader T α

namespace PodState

/-- The channel handed out by `make`. -/
def start (α : Type*) (ch : ProducerAndConsumers T) : PodState T ch.consumers.length α where
  ring _ := .new
  writer := ⟨ch.producer, .idle⟩
  readers r := ⟨ch.consumers[r], .idle⟩

/-- `one2each_seqnum_stream_pod_queue::try_write` up to its load. -/
def tryWrite (s : PodState T R α) (event : α) : Option (PodState T R α × List (Obs (Fin R) α)) :=
  let counter : T.Val := BitVec.ofNat T.digits s.writer.impl.readersCount
  match s.writer.tryWrite s.ring event counter with
  | none => none
  | some (writer, evs) => some ({ s with writer := writer }, evs.flatMap WriterEvent.podObs)

/-- The rest of `try_write`. -/
def resumeWriter (s : PodState T R α) : Option (PodState T R α × List (Obs (Fin R) α)) :=
  match s.writer.resume s.ring with
  | none => none
  | some (ring, writer, evs) =>
    some ({ s with ring := ring, writer := writer }, evs.flatMap WriterEvent.podObs)

def setReader (s : PodState T R α) (r : Fin R) (reader : PodReader T α) : PodState T R α :=
  { s with readers := Function.update s.readers r reader }

/-- `one2each_seqnum_stream_pod_reader::try_read` up to its load. -/
def tryRead (s : PodState T R α) (r : Fin R) :
    Option (PodState T R α × List (Obs (Fin R) α)) :=
  match (s.readers r).pc with
  | .idle =>
    let reader := (s.readers r).reader
    let b := reader.nextBucket
    if (s.ring b).seqn = reader.next then
      some (s.setReader r ⟨reader.advance, .copy b⟩, [])
    else
      some (s, [.empty r])
  | _ => none

/-- The rest of `try_read`: the copy of the event, then the `fetch_sub` on the counter. -/
def resumeReader (s : PodState T R α) (r : Fin R) :
    Option (PodState T R α × List (Obs (Fin R) α)) :=
  let reader := (s.readers r).reader
  match (s.readers r).pc with
  | .idle => none
  | .copy b => some (s.setReader r ⟨reader, .release b (s.ring b).storage⟩, [])
  | .release b opt =>
    let ring := setCounter s.ring b ((s.ring b).counter - 1)
    some ({ s with ring := ring }.setReader r ⟨reader, .idle⟩, [.read r opt])

end PodState

/-- The POD queue as a machine. -/
def podMachine (T : SeqnumCounter) (R : ℕ) (α : Type*) :
    Machine (PodState T R α) (PodInput R α) (Obs (Fin R) α) where
  step s
    | .tryWrite event => s.tryWrite event
    | .writer => s.resumeWriter
    | .tryRead r => s.tryRead r
    | .reader r => s.resumeReader r

/-! ## The invariant -/

/-- How many readers have not yet taken the event `k - C`, which lies in the slot `k`. -/
def pending (C : ℕ) (a : State (Fin R) α) (k : ℕ) : ℕ := count fun r => a.taken r + C ≤ k

/-- The queue against the abstract broadcast. -/
structure PodRel (C : ℕ) (s : PodState T R α) (a : State (Fin R) α) : Prop where
  window : Window C a
  readersCount : s.writer.impl.nextReaderId = BitVec.ofNat T.digits R
  ring : RingOk C a.written.length (BitVec.ofNat T.digits R)
    (fun k => BitVec.ofNat T.digits (pending C a k)) (fun k => ∃ r, a.taken r + C ≤ k)
    (fun i => a.written[i]?) s.ring s.writer
  readers : ∀ r, PodReaderOk C a.written (a.taken r) (s.readers r).reader (s.readers r).pc

variable {C : ℕ} {s s' : PodState T R α} {a : State (Fin R) α} {os : List (Obs (Fin R) α)} {e : α}

theorem pending_le (C : ℕ) (a : State (Fin R) α) (k : ℕ) : pending C a k ≤ R := by
  simpa [pending] using count_le (p := fun r => a.taken r + C ≤ k)

/-- The counter of a slot is empty exactly when nobody needs its event any more. -/
theorem ofNat_pending_eq_empty (hR : R < 2 ^ T.digits) (k : ℕ) :
    BitVec.ofNat T.digits (pending C a k) = emptyDataMark T ↔ ∀ r, k < a.taken r + C := by
  have hlt := (pending_le C a k).trans_lt hR
  change _ = BitVec.ofNat T.digits 0 ↔ _
  rw [WrappingCounter.ofNat_inj hlt (by omega), pending, count_eq_zero_iff]
  simp only [not_le]

theorem ofNat_pending_ne_empty (hR : R < 2 ^ T.digits) {k : ℕ} (h : ∃ r, a.taken r + C ≤ k) :
    BitVec.ofNat T.digits (pending C a k) ≠ emptyDataMark T := by
  rw [Ne, ofNat_pending_eq_empty hR]
  rintro hall
  obtain ⟨r, hr⟩ := h
  exact absurd (hall r) (by omega)

/-- A load of the writer either starts a write or finds a reader that needs the old event. -/
theorem PodRel.tryWrite (hC : IsCapacity T C) (hR : R < 2 ^ T.digits) (h : PodRel C s a)
    (hs : s.tryWrite e = some (s', os)) :
    PodRel C s' a ∧
      (os = [] ∨ (os = [.refused e] ∧ s' = s ∧ ∃ r, a.taken r + C ≤ a.written.length)) := by
  have hmark : BitVec.ofNat T.digits s.writer.impl.readersCount = BitVec.ofNat T.digits R := by
    rw [QueueImpl.readersCount, BitVec.ofNat_toNat, h.readersCount, BitVec.setWidth_eq]
  simp only [PodState.tryWrite, hmark] at hs
  split at hs
  · cases hs
  · rename_i w evs hw
    simp only [Option.some.injEq, Prod.mk.injEq] at hs
    obtain ⟨rfl, rfl⟩ := hs
    obtain ⟨hring, -, ⟨-, rfl, rfl⟩ | ⟨hfull, rfl, rfl⟩⟩ :=
      h.ring.tryWrite hC (ofNat_pending_ne_empty hR) hw
    · exact ⟨⟨h.window, h.readersCount, hring, h.readers⟩, .inl rfl⟩
    · refine ⟨⟨h.window, h.readersCount, hring, h.readers⟩, .inr ⟨rfl, rfl, ?_⟩⟩
      by_contra hno
      simp only [not_exists, not_le] at hno
      exact hfull ((ofNat_pending_eq_empty hR _).2 hno)

theorem pending_write (h : Window C a) (e : α) :
    pending C (a.write e) (a.written.length + C) = R := by
  unfold pending
  rw [count_all, Fintype.card_fin]
  intro r
  exact Nat.add_le_add_right (h.taken_le r) C

theorem PodRel.resumeWriter (hC : IsCapacity T C) (hR : R < 2 ^ T.digits) (h : PodRel C s a)
    (hs : s.resumeWriter = some (s', os)) :
    (spec (Fin R) α C).Legal a os ∧ PodRel C s' ((spec (Fin R) α C).after a os) := by
  unfold PodState.resumeWriter Writer.resume at hs
  cases hpc : s.writer.pc with
  | idle => simp [hpc] at hs
  | construct e c =>
    simp only [hpc, Option.some.injEq, Prod.mk.injEq] at hs
    obtain ⟨rfl, rfl⟩ := hs
    exact ⟨trivial, h.window, h.readersCount, h.ring.construct hC hpc, h.readers⟩
  | storeCounter e c =>
    simp only [hpc, Option.some.injEq, Prod.mk.injEq] at hs
    obtain ⟨rfl, rfl⟩ := hs
    exact ⟨trivial, h.window, h.readersCount, h.ring.storeCounter hC hpc, h.readers⟩
  | publish e c =>
    simp only [hpc, Option.some.injEq, Prod.mk.injEq] at hs
    obtain ⟨rfl, rfl⟩ := hs
    have hroom := (ofNat_pending_eq_empty hR _).1 (h.ring.free (by rw [hpc]; simp)).1
    have hallowed : (spec (Fin R) α C).allowed a (.wrote e) := hroom
    refine ⟨⟨hallowed, trivial⟩, h.window.next hallowed, h.readersCount, ?_,
      fun r => (h.readers r).append [e]⟩
    change RingOk C (a.write e).written.length _ _ _ _ _ _
    rw [State.write_written, List.length_append, List.length_singleton]
    refine h.ring.publish hC hpc (fun _ _ => rfl) ?_ (fun _ _ hk => hk) ?_ ?_
    · exact congrArg _ (pending_write h.window e)
    · change (a.written ++ [e])[a.written.length]? = some e
      simp
    · intro i hi
      change (a.written ++ [e])[i]? = a.written[i]?
      exact List.getElem?_append_left hi

/-- A load of a reader either finds the event it waits for or nothing unread. -/
theorem PodRel.tryRead (hC : IsCapacity T C) (h : PodRel C s a) {r : Fin R}
    (hs : s.tryRead r = some (s', os)) :
    PodRel C s' a ∧
      (os = [] ∨ (os = [.empty r] ∧ s' = s ∧ a.taken r = a.written.length)) := by
  unfold PodState.tryRead at hs
  have hr := h.readers r
  cases hpc : (s.readers r).pc with
  | idle =>
    rw [hpc] at hr
    have hr : (s.readers r).reader.AtIndex C (a.taken r) := hr
    have hle := h.window.taken_le r
    have hload := h.ring.load_iff hC hle (h.window.le_taken r)
    simp only [hpc, hr.next_eq, hr.nextBucket, hload] at hs
    split_ifs at hs with hlt
    · simp only [Option.some.injEq, Prod.mk.injEq] at hs
      obtain ⟨rfl, rfl⟩ := hs
      refine ⟨⟨h.window, h.readersCount, h.ring, fun r' => ?_⟩, .inl rfl⟩
      unfold PodState.setReader
      rcases eq_or_ne r' r with rfl | hne
      · simp only [Function.update_self]
        exact ⟨hr.advance hC, hlt, rfl⟩
      · simp only [Function.update_of_ne hne]
        exact h.readers r'
    · simp only [Option.some.injEq, Prod.mk.injEq] at hs
      obtain ⟨rfl, rfl⟩ := hs
      exact ⟨h, .inr ⟨rfl, rfl, by omega⟩⟩
  | copy b => simp [hpc] at hs
  | release b opt => simp [hpc] at hs

/-- The `fetch_sub` of the reader `r` takes it off the count of its event only. -/
theorem pending_take_self (C : ℕ) (a : State (Fin R) α) (r : Fin R) :
    pending C a (a.taken r + C) = pending C (a.take r) (a.taken r + C) + 1 := by
  refine count_eq_succ (r := r) le_rfl ?_ ?_
  · simp only [State.take_taken, Function.update_self]
    omega
  · intro i hi
    simp only [State.take_taken, Function.update_of_ne hi]

theorem pending_take_of_ne (C : ℕ) (a : State (Fin R) α) (r : Fin R) {k : ℕ}
    (hk : k ≠ a.taken r + C) : pending C (a.take r) k = pending C a k := by
  refine count_congr fun i => ?_
  rcases eq_or_ne i r with rfl | hi
  · simp only [State.take_taken, Function.update_self]
    omega
  · simp only [State.take_taken, Function.update_of_ne hi]

theorem PodRel.resumeReader (hR : R < 2 ^ T.digits) (h : PodRel C s a) {r : Fin R}
    (hs : s.resumeReader r = some (s', os)) :
    (spec (Fin R) α C).Legal a os ∧ PodRel C s' ((spec (Fin R) α C).after a os) := by
  have hr := h.readers r
  have hle := h.window.le_taken r
  unfold PodState.resumeReader at hs
  cases hpc : (s.readers r).pc with
  | idle => simp [hpc] at hs
  | copy b =>
    simp only [hpc, Option.some.injEq, Prod.mk.injEq] at hs
    obtain ⟨rfl, rfl⟩ := hs
    rw [hpc] at hr
    obtain ⟨hidx, hlt, rfl⟩ := hr
    have hst := h.ring.storage (a.taken r + C) hle (by omega) ⟨r, le_rfl⟩
    rw [Nat.add_mod_right, Nat.add_sub_cancel] at hst
    refine ⟨trivial, h.window, h.readersCount, h.ring, fun r' => ?_⟩
    unfold PodState.setReader
    rcases eq_or_ne r' r with rfl | hne
    · simp only [Function.update_self]
      exact ⟨hidx, hlt, rfl, hst⟩
    · simp only [Function.update_of_ne hne]
      exact h.readers r'
  | release b opt =>
    simp only [hpc, Option.some.injEq, Prod.mk.injEq] at hs
    obtain ⟨rfl, rfl⟩ := hs
    rw [hpc] at hr
    obtain ⟨hidx, hlt, rfl, rfl⟩ := hr
    have hallowed : (spec (Fin R) α C).allowed a (.read r a.written[a.taken r]?) := ⟨hlt, rfl⟩
    refine ⟨⟨hallowed, trivial⟩, h.window.next hallowed, h.readersCount, ?_, fun r' => ?_⟩
    · have hne := ofNat_pending_ne_empty hR (a := a) ⟨r, le_refl (a.taken r + C)⟩
      have hcounter := h.ring.counter (a.taken r + C) hle (by omega) (fun heq e c hpub =>
        h.ring.ne_of_count_ne hne (by rw [hpub]; simp) heq)
      have hdown : RingOk C a.written.length (BitVec.ofNat T.digits R)
          (fun k => BitVec.ofNat T.digits (pending C (a.take r) k))
          (fun k => ∃ i, (a.take r).taken i + C ≤ k) (fun i => a.written[i]?)
          (setCounter s.ring ((a.taken r + C) % C)
            (BitVec.ofNat T.digits (pending C (a.take r) (a.taken r + C)))) s.writer := by
        refine h.ring.setCounter hle (by omega) hne
          (fun k hk => congrArg _ (pending_take_of_ne C a r hk)) ?_
        rintro k ⟨i, hi⟩
        refine ⟨i, le_trans (Nat.add_le_add_right ?_ C) hi⟩
        rcases eq_or_ne i r with rfl | hi'
        · simp
        · simp [hi']
      rw [Nat.add_mod_right] at hcounter hdown
      rw [hcounter, pending_take_self, WrappingCounter.ofNat_sub_one (by omega),
        Nat.add_sub_cancel]
      exact hdown
    · unfold PodState.setReader
      change PodReaderOk C a.written (Function.update a.taken r (a.taken r + 1) r') _ _
      rcases eq_or_ne r' r with rfl | hne
      · simp only [Function.update_self]
        exact hidx
      · simp only [Function.update_of_ne hne]
        exact h.readers r'

/-- The queue simulates the broadcast to `R` readers with `C` places. -/
theorem pod_simulates (hC : IsCapacity T C) (hR : R < 2 ^ T.digits) :
    Simulates (podMachine T R α) (spec (Fin R) α C) (PodRel C) where
  step {s a i s' os} h hs := by
    cases i with
    | tryWrite e =>
      obtain ⟨hrel, rfl | ⟨rfl, -, hfull⟩⟩ := h.tryWrite hC hR hs
      · exact ⟨trivial, hrel⟩
      · exact ⟨⟨hfull, trivial⟩, hrel⟩
    | writer => exact h.resumeWriter hC hR hs
    | tryRead r =>
      obtain ⟨hrel, rfl | ⟨rfl, -, hempty⟩⟩ := h.tryRead hC hs
      · exact ⟨trivial, hrel⟩
      · exact ⟨⟨hempty, trivial⟩, hrel⟩
    | reader r => exact h.resumeReader hR hs

theorem podRel_start (C R : ℕ) :
    PodRel C (PodState.start α ⟨producerAfter T C R, consumersFrom T C 0 R⟩) Broadcast.start where
  window := window_start C
  readersCount := congrArg (BitVec.ofNat T.digits) (consumersFrom_length C 0 R).symm
  ring := by
    refine ringOk_new _ (fun k hk => ?_) ?_
    · rw [pending, count_eq_zero_iff.2]
      · rfl
      · intro r
        simpa [Broadcast.start] using hk
    · rintro k ⟨r, hr⟩
      simpa [Broadcast.start] using hr
  readers r := by
    simp only [PodState.start, Fin.getElem_fin, consumersFrom_getElem]
    exact StreamReader.atIndex_new _

/-- A reader that has passed its load copies the very event it is waiting for. -/
theorem PodRel.copy_storage (h : PodRel C s a) {r : Fin R} {b : ℕ}
    (hr : (s.readers r).pc = .copy b) :
    a.taken r < a.written.length ∧ (s.ring b).storage = a.written[a.taken r]? := by
  have hreader := h.readers r
  rw [hr] at hreader
  obtain ⟨-, hlt, rfl⟩ := hreader
  have hst := h.ring.storage (a.taken r + C) (h.window.le_taken r) (by omega) ⟨r, le_rfl⟩
  rw [Nat.add_mod_right, Nat.add_sub_cancel] at hst
  exact ⟨hlt, hst⟩

/-- Under every interleaving the queue is a lossless broadcast with `capacity()` places. -/
theorem pod_broadcast {n R : ℕ} {ch : ProducerAndConsumers T}
    {s : PodState T ch.consumers.length α} {log : List (Obs (Fin ch.consumers.length) α)}
    (hmake : make T n R = some ch) (h : (podMachine T _ α).Reaches (.start α ch) s log) :
    ch.consumers.length = R ∧
      (spec (Fin ch.consumers.length) α ch.producer.capacity).Legal start log ∧
      (∀ r, reads r log <+: (writes log).map some) ∧
      (∀ r, (writes log).length ≤ (reads r log).length + ch.producer.capacity) ∧
      (s.writer.pc ≠ .idle →
        ∀ r, (writes log).length < (reads r log).length + ch.producer.capacity) ∧
      (∀ e s', s.tryWrite e = some (s', [.refused e]) →
        s' = s ∧ ∃ r, (writes log).length = (reads r log).length + ch.producer.capacity) ∧
      (∀ r b, (s.readers r).pc = .copy b → (reads r log).length < (writes log).length ∧
        (s.ring b).storage = (writes log)[(reads r log).length]?) ∧
      (∀ r s', s.tryRead r = some (s', [.empty r]) →
        s' = s ∧ (reads r log).length = (writes log).length) := by
  obtain ⟨C, -, hC, -, hR, rfl⟩ := make_eq_some hmake
  have hlen : (consumersFrom T C 0 R).length < 2 ^ T.digits := by
    rw [consumersFrom_length]
    exact hR.trans_lt (max_reader_lt T)
  simp only [producerAfter_capacity hC]
  obtain ⟨legal, rel⟩ := (pod_simulates hC hlen).reaches (podRel_start C R) h
  rw [after_start] at rel
  refine ⟨consumersFrom_length C 0 R, legal, reads_isPrefix legal, rel.window.le_taken,
    fun hw => ?_, fun e s' hs => ?_, fun r b hr => rel.copy_storage hr, fun r s' hs => ?_⟩
  · exact (ofNat_pending_eq_empty hlen _).1 (rel.ring.free hw).1
  · obtain ⟨-, hos | ⟨-, rfl, r, hfull⟩⟩ := rel.tryWrite hC hlen hs
    · cases hos
    · exact ⟨rfl, r, le_antisymm (rel.window.le_taken r) hfull⟩
  · obtain ⟨-, hos | ⟨-, rfl, hempty⟩⟩ := rel.tryRead hC hs
    · cases hos
    · exact ⟨rfl, hempty⟩

/-- Two readers take the first of two events while the second is being written. -/
theorem pod_broadcast_uint8 : ∃ ch, make .uint8 4 2 = some ch ∧
    ∀ r : Fin 2, reads r [Obs.wrote 7, .read 1 (some 7), .read 0 (some 7), .wrote 8] <+:
      [some 7, some 8] := by
  have hmake : make .uint8 4 2 = some ⟨producerAfter .uint8 4 2, consumersFrom .uint8 4 0 2⟩ := by
    decide
  have hrun := Machine.Reaches.of_run (show (podMachine .uint8 2 ℕ).run
    (.start ℕ ⟨producerAfter .uint8 4 2, consumersFrom .uint8 4 0 2⟩)
    [.tryWrite 7, .writer, .writer, .writer, .tryRead 0, .tryWrite 8, .tryRead 1, .reader 0,
      .reader 1, .writer, .reader 1, .writer, .reader 0, .writer] = some (_, _) from rfl)
  exact ⟨_, hmake, (pod_broadcast hmake hrun).2.2.1⟩

end Ihft.Channel.One2Each
