import Ihft.Channel.One2One.Pod
import Ihft.Channel.One2One.RingMemory

/-!
# The one-to-one POD queue under release and acquire

The queue of `Pod` with the memory orders of the source, so that loads may be stale.  A stale load
can make a call fail that would go through otherwise; apart from that the queue behaves as it does
when every load returns the latest store, and no access to an event races (`podMemory_refines`).
-/

namespace Ihft.Channel.One2One

open Observe Broadcast ReleaseAcquire

variable {T : SeqnumCounter} {α : Type*}

/-- The memory of the ring, the producer and the consumer. -/
structure PodMemoryState (T : SeqnumCounter) (α : Type*) where
  memory : RingMemory T α
  writer : Writer T α
  reader : StreamReader T
  readerPc : PodReaderPc α

namespace PodMemoryState

/-- The channel handed out by `make`. -/
def start (producer : QueueImpl T) (reader : StreamReader T) : PodMemoryState T α where
  memory := .new T α
  writer := ⟨producer, .idle⟩
  reader := reader
  readerPc := .idle

/-- `one2one_seqnum_stream_pod_queue::try_write` up to its load. -/
def tryWrite (s : PodMemoryState T α) (event : α) (t : ℕ) :
    Option (PodMemoryState T α × List (Event ℕ (Obs (Fin 1) α))) :=
  match s.writer.tryWriteAt s.memory event t with
  | none => none
  | some (memory, writer, evs) =>
    some ({ s with memory := memory, writer := writer }, evs.flatMap (Event.bind WriterEvent.podObs))

/-- The rest of `try_write`. -/
def resumeWriter (s : PodMemoryState T α) (t : ℕ) :
    Option (PodMemoryState T α × List (Event ℕ (Obs (Fin 1) α))) :=
  match s.writer.resumeAt s.memory t with
  | none => none
  | some (memory, writer, evs) =>
    some ({ s with memory := memory, writer := writer }, evs.flatMap (Event.bind WriterEvent.podObs))

/-- `try_read` up to its load, `m_seqn.load(std::memory_order_acquire)`. -/
def tryRead (s : PodMemoryState T α) (t : ℕ) :
    Option (PodMemoryState T α × List (Event ℕ (Obs (Fin 1) α))) :=
  match s.readerPc with
  | .idle =>
    let b := s.reader.nextBucket
    match s.memory.load .acquire .reader b t with
    | none => none
    | some (seqn, memory) =>
      if seqn = s.reader.next then
        some ({ s with memory := memory, reader := s.reader.advance, readerPc := .copy b }, [])
      else
        some ({ s with memory := memory }, [.shows (.empty 0)])
  | _ => none

/-- The rest of `try_read`: the copy of the event, then
`m_seqn.store(DUMMY_EVENT_SEQ_NUM, std::memory_order_release)`. -/
def resumeReader (s : PodMemoryState T α) (t : ℕ) :
    Option (PodMemoryState T α × List (Event ℕ (Obs (Fin 1) α))) :=
  match s.readerPc with
  | .idle => none
  | .copy b =>
    some ({ s with memory := s.memory.readCell .reader b, readerPc := .release b (s.memory.cells b) },
      raceIf (s.memory.ReadRaces .reader b) b)
  | .release b opt =>
    (s.memory.store .release .reader b (dummyEventSeqNum T) t).map fun memory =>
      ({ s with memory := memory, readerPc := .idle }, [.shows (.read 0 opt)])

end PodMemoryState

/-- The POD queue over its memory; a move comes with the time of the store it reads or makes. -/
def podMemoryMachine (T : SeqnumCounter) (α : Type*) :
    Machine (PodMemoryState T α) (PodInput 1 α × ℕ) (Event ℕ (Obs (Fin 1) α)) where
  step s
    | (.tryWrite event, t) => s.tryWrite event t
    | (.writer, t) => s.resumeWriter t
    | (.tryRead _, t) => s.tryRead t
    | (.reader _, t) => s.resumeReader t

/-! ## The simulation -/

/-- The queue next to the one in which every load returns the latest store. -/
structure PodMemoryRel (C : ℕ) (s : PodMemoryState T α) (sc : PodState T α)
    (a : State (Fin 1) α) : Prop where
  rel : PodRel C sc a
  writer : s.writer = sc.writer
  reader : s.reader = sc.reader
  readerPc : s.readerPc = sc.readerPc
  memory : ∃ owner, RingMemoryOk C (sc.readerPc.nextNumber (a.taken 0)) owner sc.ring s.memory ∧
    Owners owner sc.writer.bucket fun b => sc.readerPc.bucket = some b

/-- A step does not race, and it is one of the queue with the latest stores, or one that failed. -/
def PodFollows (C : ℕ) (sc : PodState T α) (s' : PodMemoryState T α)
    (os : List (Event ℕ (Obs (Fin 1) α))) : Prop :=
  RaceFree os ∧ ((completed (shown os) = [] ∧ ∃ a, PodMemoryRel C s' sc a) ∨
    ∃ j sc' a, (podMachine T α).step sc j = some (sc', completed (shown os)) ∧
      PodMemoryRel C s' sc' a)

variable {C t : ℕ} {s s' : PodMemoryState T α} {sc : PodState T α} {a : State (Fin 1) α}
  {os : List (Event ℕ (Obs (Fin 1) α))} {e : α}

theorem PodMemoryRel.tryWrite (hC : IsCapacity T C) (h : PodMemoryRel C s sc a)
    (hs : s.tryWrite e t = some (s', os)) : PodFollows C sc s' os := by
  obtain ⟨hrel, hw, hr, hpc, owner, hok, ho⟩ := h
  unfold PodMemoryState.tryWrite at hs
  split at hs
  · cases hs
  · rename_i memory w evs hstep
    simp only [Option.some.injEq, Prod.mk.injEq] at hs
    obtain ⟨rfl, rfl⟩ := hs
    rw [hw] at hstep
    rcases hok.tryWriteAt ho hstep with ⟨rfl, rfl, hok⟩ | ⟨hsc, rfl, owner', hok, ho⟩
    · exact ⟨raceFree_map [Obs.refused e], .inl ⟨rfl, a, hrel, rfl, hr, hpc, owner, hok, ho⟩⟩
    · have hstep' : sc.tryWrite e = some ({ sc with writer := w }, []) := by
        rw [PodState.tryWrite, hsc]
        rfl
      obtain ⟨hrel', -⟩ := hrel.tryWrite hC hstep'
      exact ⟨raceFree_nil, .inr ⟨.tryWrite e, _, a, hstep', hrel', rfl, hr, hpc, owner', hok, ho⟩⟩

theorem PodMemoryRel.resumeWriter (hC : IsCapacity T C) (h : PodMemoryRel C s sc a)
    (hs : s.resumeWriter t = some (s', os)) : PodFollows C sc s' os := by
  obtain ⟨hrel, hw, hr, hpc, owner, hok, ho⟩ := h
  unfold PodMemoryState.resumeWriter at hs
  split at hs
  · cases hs
  · rename_i memory w evs hstep
    simp only [Option.some.injEq, Prod.mk.injEq] at hs
    obtain ⟨rfl, rfl⟩ := hs
    rw [hw] at hstep
    obtain ⟨ring', evs', hsc, rfl, owner', hok, ho⟩ := hok.resumeAt ho hstep
    have hstep' : sc.resumeWriter =
        some ({ sc with ring := ring', writer := w }, evs'.flatMap WriterEvent.podObs) := by
      rw [PodState.resumeWriter, hsc]
    have hdone : completed (evs'.flatMap (WriterEvent.podObs (R := 1))) =
        evs'.flatMap WriterEvent.podObs := by
      rcases Writer.resume_cases hsc with rfl | ⟨x, rfl⟩ <;> rfl
    have htaken : ((spec (Fin 1) α C).after a (evs'.flatMap WriterEvent.podObs)).taken =
        a.taken := by
      rcases Writer.resume_cases hsc with rfl | ⟨x, rfl⟩ <;> rfl
    rw [flatMap_bind]
    refine ⟨raceFree_map _, .inr ⟨.writer, _, _, ?_, (hrel.resumeWriter hC hstep').2, rfl, hr, hpc,
      owner', ?_, ho⟩⟩
    · rw [shown_map, hdone]
      exact hstep'
    · rw [htaken]
      exact hok

theorem PodMemoryRel.tryRead (hC : IsCapacity T C) (h : PodMemoryRel C s sc a)
    (hs : s.tryRead t = some (s', os)) : PodFollows C sc s' os := by
  obtain ⟨hrel, hw, hr, hpc, owner, hok, ho⟩ := h
  unfold PodMemoryState.tryRead at hs
  rw [hpc, hr] at hs
  cases hidle : sc.readerPc with
  | copy b => simp [hidle] at hs
  | release b opt => simp [hidle] at hs
  | idle =>
    have hidx := hrel.reader
    rw [hidle] at hidx hok ho
    have hidx : sc.reader.AtIndex C (a.taken 0) := hidx
    have hok : RingMemoryOk C (a.taken 0) owner sc.ring s.memory := hok
    simp only [hidle] at hs
    split at hs
    · cases hs
    · rename_i v memory hl
      rw [hidx.nextBucket] at hl hs
      rw [hidx.next_eq] at hs
      split_ifs at hs with hv
      · simp only [Option.some.injEq, Prod.mk.injEq] at hs
        obtain ⟨rfl, rfl⟩ := hs
        subst hv
        obtain ⟨hseqn, hok'⟩ := hok.readerLoad hl hC.pos fun _ => by
          simp [ho.reader, PodReaderPc.bucket]
        have hvacant := fun hown => hok.vacant (a.taken 0 % C) hown
        have hstep' : sc.tryRead = some ({ sc with
            reader := sc.reader.advance, readerPc := .copy (a.taken 0 % C) }, []) := by
          simp only [PodState.tryRead, hidle, hidx.nextBucket, hidx.next_eq, hseqn, ↓reduceIte]
        obtain ⟨hrel', -⟩ := hrel.tryRead hC hstep'
        refine ⟨raceFree_nil, .inr ⟨.tryRead 0, _, a, hstep', hrel', hw, rfl, rfl, _, hok', ?_⟩⟩
        have := ho.take fun hown => seqnOf_ne_dummy _ (hseqn.symm.trans (hvacant hown))
        simpa [PodReaderPc.bucket, eq_comm] using this
      · simp only [Option.some.injEq, Prod.mk.injEq] at hs
        obtain ⟨rfl, rfl⟩ := hs
        refine ⟨raceFree_map [Obs.empty 0], .inl ⟨rfl, a, hrel, hw, rfl, hidle.symm, owner, ?_, ?_⟩⟩
        · rw [hidle]
          exact hok.load hl
        · rw [hidle]
          exact ho

theorem PodMemoryRel.resumeReader (h : PodMemoryRel C s sc a)
    (hs : s.resumeReader t = some (s', os)) : PodFollows C sc s' os := by
  obtain ⟨hrel, hw, hr, hpc, owner, hok, ho⟩ := h
  unfold PodMemoryState.resumeReader at hs
  rw [hpc] at hs
  cases hpc' : sc.readerPc with
  | idle => simp [hpc'] at hs
  | copy b =>
    rw [hpc'] at hok ho
    have hown := (ho.reader b).2 rfl
    obtain ⟨hrace, hok'⟩ := hok.readCell hown
    simp only [hpc', raceIf_of_not hrace, Option.some.injEq, Prod.mk.injEq] at hs
    obtain ⟨rfl, rfl⟩ := hs
    have hstep' : sc.resumeReader =
        some ({ sc with readerPc := .release b (sc.ring b).storage }, []) := by
      simp only [PodState.resumeReader, hpc']
    refine ⟨raceFree_nil, .inr ⟨.reader 0, _, a, hstep', (hrel.resumeReader hstep').2, hw, hr, ?_,
      owner, hok', ho⟩⟩
    rw [hok.cells b]
  | release b opt =>
    rw [hpc'] at hok ho
    have hown := (ho.reader b).2 rfl
    simp only [hpc', Option.map_eq_some_iff, Prod.mk.injEq] at hs
    obtain ⟨memory, hs, rfl, rfl⟩ := hs
    have hstep' : sc.resumeReader = some ({ sc with
        ring := setSeqn sc.ring b (dummyEventSeqNum T), readerPc := .idle }, [.read 0 opt]) := by
      simp only [PodState.resumeReader, hpc']
    refine ⟨raceFree_map [Obs.read 0 opt], .inr ⟨.reader 0, _, _, hstep', (hrel.resumeReader hstep').2,
      hw, hr, rfl, Function.update owner b none, ?_, ?_⟩⟩
    · have := hok.release hown hs
      simpa [PodReaderPc.nextNumber, spec] using this
    · have := ho.give (b := b) rfl
      simpa [PodReaderPc.bucket, eq_comm] using this

/-- Every step follows the queue with the latest stores. -/
theorem PodMemoryRel.step (hC : IsCapacity T C) (h : PodMemoryRel C s sc a)
    {i : PodInput 1 α × ℕ} (hs : (podMemoryMachine T α).step s i = some (s', os)) :
    PodFollows C sc s' os := by
  obtain ⟨i, t⟩ := i
  cases i with
  | tryWrite e => exact h.tryWrite hC hs
  | writer => exact h.resumeWriter hC hs
  | tryRead r => exact h.tryRead hC hs
  | reader r => exact h.resumeReader hs

theorem podMemoryRel_start (C : ℕ) : PodMemoryRel C
    (PodMemoryState.start (α := α) (producerAfter T C 1) (.new (C - 1) 0))
    (PodState.start (producerAfter T C 1) (.new (C - 1) 0)) Broadcast.start where
  rel := podRel_start C
  writer := rfl
  reader := rfl
  readerPc := rfl
  memory := by
    refine ⟨_, ringMemoryOk_new C 0, ?_⟩
    constructor <;> intro b <;> simp [Writer.bucket, PodState.start, PodReaderPc.bucket]

/-- Every run follows one of the queue with the latest stores. -/
theorem podMemory_follows (hC : IsCapacity T C) {log : List (Event ℕ (Obs (Fin 1) α))}
    (h : (podMemoryMachine T α).Reaches (.start (producerAfter T C 1) (.new (C - 1) 0)) s log) :
    ∃ sc, (podMachine T α).Reaches (.start (producerAfter T C 1) (.new (C - 1) 0)) sc
      (completed (shown log)) ∧ ∃ a, PodMemoryRel C s sc a := by
  refine h.follow (R := fun s sc => ∃ a, PodMemoryRel C s sc a) (fun log => completed (shown log))
    rfl (fun l l' => by rw [shown_append, completed_append]) ?_ ⟨_, podMemoryRel_start C⟩
  rintro s sc i s' os ⟨a, hrel⟩ hs
  rcases (hrel.step hC hs).2 with ⟨hos, a', hrel'⟩ | ⟨j, sc', a', hj, hrel'⟩
  · exact .inl ⟨hos, a', hrel'⟩
  · exact .inr ⟨j, sc', hj, a', hrel'⟩

/-- Under release and acquire no access to an event races, and the operations that go through are
those of a run in which every load returns the latest store: they form a bounded FIFO queue. -/
theorem podMemory_refines {n : ℕ} {producer : QueueImpl T} {reader : StreamReader T}
    {log : List (Event ℕ (Obs (Fin 1) α))} (hmake : make T n 1 = some ⟨producer, [reader]⟩)
    (h : (podMemoryMachine T α).Reaches (.start producer reader) s log) :
    RaceFree log ∧
      (∃ sc, (podMachine T α).Reaches (.start producer reader) sc (completed (shown log))) ∧
      (boundedQueue (Fin 1) α producer.capacity).Legal [] (completed (shown log)) ∧
      reads 0 (shown log) <+: (writes (shown log)).map some := by
  obtain ⟨C, -, hC, -, hpair⟩ := make_eq_some hmake
  simp only [ProducerAndConsumers.mk.injEq, List.cons.injEq, and_true] at hpair
  obtain ⟨rfl, rfl⟩ := hpair
  obtain ⟨sc, hreaches, -⟩ := podMemory_follows hC h
  obtain ⟨hlegal, -⟩ := (pod_simulates hC).reaches (podRel_start C) hreaches
  have hprefix := reads_isPrefix hlegal 0
  rw [reads_completed, writes_completed] at hprefix
  rw [producerAfter_capacity hC]
  refine ⟨fun x hx => ?_, ⟨sc, hreaches⟩, legal_boundedQueue hlegal, hprefix⟩
  obtain ⟨l, s₁, i, s₂, os, l', hbefore, hstep, -, -, hx⟩ := h.exists_step hx
  obtain ⟨sc₁, -, a, hrel⟩ := podMemory_follows hC hbefore
  exact (hrel.step hC hstep).1 x hx

/-- The reader is turned away by a stale load, and gets the event with its next one. -/
theorem podMemory_refines_stale : ∃ producer reader,
    make .uint8 3 1 = some ⟨producer, [reader]⟩ ∧
      (boundedQueue (Fin 1) ℕ producer.capacity).Legal [] [.wrote 7, .read 0 (some 7)] := by
  have hmake : make .uint8 3 1 = some ⟨producerAfter .uint8 4 1, [.new 3 0]⟩ := by decide
  have hrun := Machine.Reaches.of_run (show (podMemoryMachine .uint8 ℕ).run
    (.start (producerAfter .uint8 4 1) (.new 3 0))
    [(.tryWrite 7, 0), (.writer, 0), (.writer, 1), (.tryRead 0, 0), (.tryRead 0, 1), (.reader 0, 1),
      (.reader 0, 2)] = some (_, _) from rfl)
  exact ⟨_, _, hmake, (podMemory_refines hmake hrun).2.2.1⟩

end Ihft.Channel.One2One
