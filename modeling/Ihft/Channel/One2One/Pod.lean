import Ihft.Channel.One2One.QueueImpl

/-!
# The one-to-one POD queue

The writer and the reader interleave at the granularity of one load or store of `m_seqn`, one
construction or one copy of an event.  A completed operation is observed at its last atomic
operation, so the log of a run is a linearization of the operations: it is a legal history of a
bounded FIFO queue with `capacity()` places (`pod_boundedQueue`).
-/

namespace Ihft.Channel.One2One

open Observe Broadcast

variable {T : SeqnumCounter} {α : Type*}

/-- The ring, the producer and the consumer of a `one2one_seqnum_stream_pod_queue`. -/
structure PodState (T : SeqnumCounter) (α : Type*) where
  ring : RingBuffer T α
  writer : Writer T α
  reader : StreamReader T
  readerPc : PodReaderPc α

namespace PodState

/-- The channel handed out by `make`. -/
def start (producer : QueueImpl T) (reader : StreamReader T) : PodState T α where
  ring _ := .new
  writer := ⟨producer, .idle⟩
  reader := reader
  readerPc := .idle

/-- `one2one_seqnum_stream_pod_queue::try_write` up to its load. -/
def tryWrite (s : PodState T α) (event : α) : Option (PodState T α × List (Obs (Fin 1) α)) :=
  match s.writer.tryWrite s.ring event with
  | none => none
  | some (writer, evs) => some ({ s with writer := writer }, evs.flatMap WriterEvent.podObs)

/-- The rest of `try_write`. -/
def resumeWriter (s : PodState T α) : Option (PodState T α × List (Obs (Fin 1) α)) :=
  match s.writer.resume s.ring with
  | none => none
  | some (ring, writer, evs) =>
    some ({ s with ring := ring, writer := writer }, evs.flatMap WriterEvent.podObs)

/-- `one2one_seqnum_stream_pod_reader::try_read` up to its load. -/
def tryRead (s : PodState T α) : Option (PodState T α × List (Obs (Fin 1) α)) :=
  match s.readerPc with
  | .idle =>
    let b := s.reader.nextBucket
    if (s.ring b).seqn = s.reader.next then
      some ({ s with reader := s.reader.advance, readerPc := .copy b }, [])
    else
      some (s, [.empty 0])
  | _ => none

/-- The rest of `try_read`: the copy of the event, then the store that empties the bucket. -/
def resumeReader (s : PodState T α) : Option (PodState T α × List (Obs (Fin 1) α)) :=
  match s.readerPc with
  | .idle => none
  | .copy b => some ({ s with readerPc := .release b (s.ring b).storage }, [])
  | .release b opt =>
    some ({ s with ring := setSeqn s.ring b (dummyEventSeqNum T), readerPc := .idle },
      [.read 0 opt])

end PodState

/-- The POD queue as a machine. -/
def podMachine (T : SeqnumCounter) (α : Type*) :
    Machine (PodState T α) (PodInput 1 α) (Obs (Fin 1) α) where
  step s
    | .tryWrite event => s.tryWrite event
    | .writer => s.resumeWriter
    | .tryRead _ => s.tryRead
    | .reader _ => s.resumeReader

/-! ## The invariant -/

/-- The queue against the abstract broadcast: the slot `k` is occupied as long as the reader has
not taken the event `k - C`. -/
structure PodRel (C : ℕ) (s : PodState T α) (a : State (Fin 1) α) : Prop where
  window : Window C a
  ring : RingOk C a.written.length (fun k => a.taken 0 + C ≤ k) (fun k => a.taken 0 + C ≤ k)
    (fun i => a.written[i]?) s.ring s.writer
  reader : PodReaderOk C a.written (a.taken 0) s.reader s.readerPc

variable {C : ℕ} {s s' : PodState T α} {a : State (Fin 1) α} {os : List (Obs (Fin 1) α)} {e : α}

/-- A load of the writer either starts a write or finds all places taken. -/
theorem PodRel.tryWrite (hC : IsCapacity T C) (h : PodRel C s a)
    (hs : s.tryWrite e = some (s', os)) :
    PodRel C s' a ∧ (os = [] ∨ (os = [.refused e] ∧ s' = s ∧ a.taken 0 + C ≤ a.written.length)) := by
  unfold PodState.tryWrite at hs
  split at hs
  · cases hs
  · rename_i w evs hw
    simp only [Option.some.injEq, Prod.mk.injEq] at hs
    obtain ⟨rfl, rfl⟩ := hs
    obtain ⟨hring, -, ⟨-, -, rfl⟩ | ⟨hfull, rfl, rfl⟩⟩ := h.ring.tryWrite hC hw
    · exact ⟨⟨h.window, hring, h.reader⟩, .inl rfl⟩
    · exact ⟨⟨h.window, hring, h.reader⟩, .inr ⟨rfl, rfl, hfull⟩⟩

theorem PodRel.resumeWriter (hC : IsCapacity T C) (h : PodRel C s a)
    (hs : s.resumeWriter = some (s', os)) :
    (spec (Fin 1) α C).Legal a os ∧ PodRel C s' ((spec (Fin 1) α C).after a os) := by
  unfold PodState.resumeWriter Writer.resume at hs
  cases hpc : s.writer.pc with
  | idle => simp [hpc] at hs
  | construct e =>
    simp only [hpc, Option.some.injEq, Prod.mk.injEq] at hs
    obtain ⟨rfl, rfl⟩ := hs
    exact ⟨trivial, h.window, h.ring.construct hC hpc, h.reader⟩
  | publish e =>
    simp only [hpc, Option.some.injEq, Prod.mk.injEq] at hs
    obtain ⟨rfl, rfl⟩ := hs
    have hroom : a.written.length < a.taken 0 + C := by
      have := h.ring.free (by rw [hpc]; simp)
      omega
    have hle := h.window.taken_le 0
    have hallowed : (spec (Fin 1) α C).allowed a (.wrote e) := by
      intro r
      rw [Subsingleton.elim r 0]
      exact hroom
    refine ⟨⟨hallowed, trivial⟩, h.window.next hallowed, ?_, h.reader.append [e]⟩
    change RingOk C (a.write e).written.length _ _ _ _ _
    rw [State.write_written, List.length_append, List.length_singleton]
    refine h.ring.publish hC hpc (fun _ _ => Iff.rfl) (fun _ _ hk => hk) ?_ ?_ ?_
    · exact Nat.add_le_add_right hle C
    · change (a.written ++ [e])[a.written.length]? = some e
      simp
    · intro i hi
      change (a.written ++ [e])[i]? = a.written[i]?
      exact List.getElem?_append_left hi

/-- A load of the reader either finds the event it waits for or an empty queue. -/
theorem PodRel.tryRead (hC : IsCapacity T C) (h : PodRel C s a)
    (hs : s.tryRead = some (s', os)) :
    PodRel C s' a ∧
      (os = [] ∨ (os = [.empty 0] ∧ s' = s ∧ a.taken 0 = a.written.length)) := by
  unfold PodState.tryRead at hs
  cases hpc : s.readerPc with
  | idle =>
    have hr := h.reader
    rw [hpc] at hr
    have hr : s.reader.AtIndex C (a.taken 0) := hr
    have hle := h.window.taken_le 0
    have hload := h.ring.load_iff hC hle (h.window.le_taken 0) (fun _ => le_rfl)
    simp only [hpc, hr.next_eq, hr.nextBucket, hload] at hs
    split_ifs at hs with hlt
    · simp only [Option.some.injEq, Prod.mk.injEq] at hs
      obtain ⟨rfl, rfl⟩ := hs
      exact ⟨⟨h.window, h.ring, hr.advance hC, hlt, rfl⟩, .inl rfl⟩
    · simp only [Option.some.injEq, Prod.mk.injEq] at hs
      obtain ⟨rfl, rfl⟩ := hs
      exact ⟨h, .inr ⟨rfl, rfl, by omega⟩⟩
  | copy b => simp [hpc] at hs
  | release b opt => simp [hpc] at hs

theorem PodRel.resumeReader (h : PodRel C s a) (hs : s.resumeReader = some (s', os)) :
    (spec (Fin 1) α C).Legal a os ∧ PodRel C s' ((spec (Fin 1) α C).after a os) := by
  have hr := h.reader
  have hle := h.window.le_taken 0
  unfold PodState.resumeReader at hs
  cases hpc : s.readerPc with
  | idle => simp [hpc] at hs
  | copy b =>
    simp only [hpc, Option.some.injEq, Prod.mk.injEq] at hs
    obtain ⟨rfl, rfl⟩ := hs
    rw [hpc] at hr
    obtain ⟨hidx, hlt, rfl⟩ := hr
    have hst := h.ring.storage (a.taken 0 + C) hle (by omega) le_rfl
    rw [Nat.add_mod_right, Nat.add_sub_cancel] at hst
    exact ⟨trivial, h.window, h.ring, hidx, hlt, rfl, hst⟩
  | release b opt =>
    simp only [hpc, Option.some.injEq, Prod.mk.injEq] at hs
    obtain ⟨rfl, rfl⟩ := hs
    rw [hpc] at hr
    obtain ⟨hidx, hlt, rfl, rfl⟩ := hr
    have hallowed : (spec (Fin 1) α C).allowed a (.read 0 a.written[a.taken 0]?) := ⟨hlt, rfl⟩
    refine ⟨⟨hallowed, trivial⟩, h.window.next hallowed, ?_, ?_⟩
    · have := h.ring.release (j := a.taken 0 + C) hle (by omega)
        (fun k => show a.taken 0 + 1 + C ≤ k ↔ _ by omega)
        (fun k (hk : a.taken 0 + 1 + C ≤ k) => by omega)
      rw [Nat.add_mod_right] at this
      exact this
    · exact hidx

/-- The queue simulates the broadcast to one reader with `C` places. -/
theorem pod_simulates (hC : IsCapacity T C) :
    Simulates (podMachine T α) (spec (Fin 1) α C) (PodRel C) where
  step {s a i s' os} h hs := by
    cases i with
    | tryWrite e =>
      obtain ⟨hrel, rfl | ⟨rfl, -, hfull⟩⟩ := h.tryWrite hC hs
      · exact ⟨trivial, hrel⟩
      · exact ⟨⟨⟨0, hfull⟩, trivial⟩, hrel⟩
    | writer => exact h.resumeWriter hC hs
    | tryRead r =>
      obtain ⟨hrel, rfl | ⟨rfl, -, hempty⟩⟩ := h.tryRead hC hs
      · exact ⟨trivial, hrel⟩
      · exact ⟨⟨hempty, trivial⟩, hrel⟩
    | reader r => exact h.resumeReader hs

theorem podRel_start (C : ℕ) :
    PodRel C (PodState.start (α := α) (producerAfter T C 1) (.new (C - 1) 0)) Broadcast.start where
  window := window_start C
  ring := ringOk_new _ (fun k hk => by simpa [Broadcast.start] using hk) (fun _ hk => hk)
  reader := StreamReader.atIndex_new 0

/-- The bucket being copied is never the one the writer constructs into. -/
theorem PodRel.copy_ne_construct (h : PodRel C s a) {b : ℕ} (hr : s.readerPc = .copy b)
    (hw : s.writer.pc ≠ .idle) : s.writer.impl.nextBucket ≠ b := by
  have hreader := h.reader
  rw [hr] at hreader
  obtain ⟨-, hlt, rfl⟩ := hreader
  have hroom := h.ring.free hw
  rw [h.ring.index.nextBucket]
  intro heq
  have := WrappingCounter.mod_injOn_window hlt.le (by omega) le_rfl (by omega) heq
  omega

/-- Under every interleaving the queue is a bounded FIFO with exactly `capacity()` places. -/
theorem pod_boundedQueue {n : ℕ} {producer : QueueImpl T} {reader : StreamReader T}
    {log : List (Obs (Fin 1) α)} (hmake : make T n 1 = some ⟨producer, [reader]⟩)
    (h : (podMachine T α).Reaches (.start producer reader) s log) :
    (boundedQueue (Fin 1) α producer.capacity).Legal [] log ∧
      reads 0 log <+: (writes log).map some ∧
      (∀ b, s.readerPc = .copy b → s.writer.pc ≠ .idle → s.writer.impl.nextBucket ≠ b) ∧
      (∀ e s', s.tryWrite e = some (s', [.refused e]) →
        s' = s ∧ (writes log).length = (reads 0 log).length + producer.capacity) ∧
      (∀ s', s.tryRead = some (s', [.empty 0]) →
        s' = s ∧ (reads 0 log).length = (writes log).length) := by
  obtain ⟨C, -, hC, -, hpair⟩ := make_eq_some hmake
  simp only [ProducerAndConsumers.mk.injEq, List.cons.injEq, and_true] at hpair
  obtain ⟨rfl, rfl⟩ := hpair
  rw [producerAfter_capacity hC]
  obtain ⟨legal, rel⟩ := (pod_simulates hC).reaches (podRel_start C) h
  rw [after_start] at rel
  refine ⟨legal_boundedQueue legal, reads_isPrefix legal 0, ?_, ?_, ?_⟩
  · intro b hr hw
    exact rel.copy_ne_construct hr hw
  · intro e s' hs
    obtain ⟨-, hos | ⟨-, rfl, hfull⟩⟩ := rel.tryWrite hC hs
    · cases hos
    · exact ⟨rfl, le_antisymm (rel.window.le_taken 0) hfull⟩
  · intro s' hs
    obtain ⟨-, hos | ⟨-, rfl, hempty⟩⟩ := rel.tryRead hC hs
    · cases hos
    · exact ⟨rfl, hempty⟩

/-- A write, an overlapping read and an empty-handed one over four places. -/
theorem pod_boundedQueue_uint8 :
    ∃ producer reader, make .uint8 3 1 = some ⟨producer, [reader]⟩ ∧
      (boundedQueue (Fin 1) ℕ producer.capacity).Legal []
        [.wrote 7, .wrote 8, .read 0 (some 7), .read 0 (some 8), .empty 0] := by
  have hmake : make .uint8 3 1 = some ⟨producerAfter .uint8 4 1, [.new 3 0]⟩ := by decide
  have hrun := Machine.Reaches.of_run (show (podMachine .uint8 ℕ).run
    (.start (producerAfter .uint8 4 1) (.new 3 0))
    [.tryWrite 7, .writer, .writer, .tryWrite 8, .tryRead 0, .writer, .reader 0, .writer,
      .reader 0, .tryRead 0, .reader 0, .reader 0, .tryRead 0] = some (_, _) from rfl)
  exact ⟨_, _, hmake, (pod_boundedQueue hmake hrun).1⟩

end Ihft.Channel.One2One
