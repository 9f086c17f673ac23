import Ihft.Lib.HandOver
import Ihft.Channel.One2One.QueueImpl

/-!
# The one-to-one ring under release and acquire

The loads and stores of `m_seqn` with the memory orders of the source, over a memory in which loads
may be stale.  The event in a bucket is a plain cell: constructing it is a write, looking at it a
read, destroying it a write.  A bucket is handed over by `m_seqn` from the writer to the reader and
back, so no access races, and a load that succeeds has read the latest store (`RingMemoryOk`).
-/

namespace Ihft.Channel.One2One

open ReleaseAcquire

variable {T : SeqnumCounter} {β : Type*}

/-- The two threads of a one-to-one queue. -/
inductive Party
  | writer
  | reader
  deriving DecidableEq, Repr

instance : Fintype Party := ⟨{.writer, .reader}, fun p => by cases p <;> decide⟩

/-- The buckets: `m_seqn` is atomic, the storage is plain. -/
abbrev RingMemory (T : SeqnumCounter) (β : Type*) := Memory ℕ ℕ Party T.Val (Option β)

/-- The buckets as they are constructed. -/
def RingMemory.new (T : SeqnumCounter) (β : Type*) : RingMemory T β :=
  .initial ℕ Party (fun _ => dummyEventSeqNum T) fun _ => none

/-! ## The steps of `try_write` -/

/-- Enter `try_write`: `m_seqn.load(std::memory_order_acquire)` of the next bucket reads the store
of the time `t`. -/
def Writer.tryWriteAt (w : Writer T β) (memory : RingMemory T β) (event : β) (t : ℕ) :
    Option (RingMemory T β × Writer T β × List (Event ℕ (WriterEvent β))) :=
  match w.pc with
  | .idle =>
    match memory.load .acquire .writer w.impl.nextBucket t with
    | none => none
    | some (seqn, memory) =>
      if seqn = dummyEventSeqNum T then
        some (memory, { w with pc := .construct event }, [.shows (.offered event)])
      else
        some (memory, w, [.shows (.offered event), .shows (.refused event)])
  | _ => none

/-- Go on inside `try_write`: construct the event, then `m_seqn.store(seqn,
std::memory_order_release)` at the time `t`. -/
def Writer.resumeAt (w : Writer T β) (memory : RingMemory T β) (t : ℕ) :
    Option (RingMemory T β × Writer T β × List (Event ℕ (WriterEvent β))) :=
  let b := w.impl.nextBucket
  match w.pc with
  | .idle => none
  | .construct event =>
    some (memory.writeCell .writer b (some event), { w with pc := .publish event },
      raceIf (memory.WriteRaces .writer b) b)
  | .publish event =>
    (memory.store .release .writer b w.impl.seqn t).map fun memory =>
      (memory, ⟨w.impl.advance, .idle⟩, [.shows (.wrote event)])

/-! ## The invariant -/

/-- What the threads wait for in the bucket `b`: the writer for the dummy value, and the reader,
which goes on with the event `p`, for the number of the event of its next round. -/
def Awaits (T : SeqnumCounter) (C p b : ℕ) : Party → T.Val → Prop
  | .writer, v => v = dummyEventSeqNum T
  | .reader, v => AwaitedIn T C p b v

/-- The memory against the ring of the latest stores; `owner b` is the thread that works in the
bucket `b`. -/
structure RingMemoryOk (C p : ℕ) (owner : ℕ → Option Party) (ring : RingBuffer T β)
    (memory : RingMemory T β) : Prop where
  handedOver : ∀ b, HandedOver memory b b (owner b) (ring b).seqn (Awaits T C p b)
  cells : ∀ b, memory.cells b = (ring b).storage
  vacant : ∀ b, owner b = some .writer → (ring b).seqn = dummyEventSeqNum T
  occupied : ∀ b, owner b = some .reader → (ring b).seqn ≠ dummyEventSeqNum T

theorem ringMemoryOk_new (C p : ℕ) :
    RingMemoryOk C p (fun _ => none) (fun _ => Bucket.new (T := T)) (RingMemory.new T β) where
  handedOver b := HandedOver.initial b b _
  cells _ := rfl
  vacant _ h := by cases h
  occupied _ h := by cases h

namespace RingMemoryOk

variable {C p b t : ℕ} {owner : ℕ → Option Party} {ring : RingBuffer T β}
  {memory memory' : RingMemory T β} {i : Party} {v : T.Val} {o : MemoryOrder}

theorem load (h : RingMemoryOk C p owner ring memory)
    (hl : memory.load o i b t = some (v, memory')) : RingMemoryOk C p owner ring memory' := by
  obtain ⟨m, -, -, -, w, rfl, -⟩ := Memory.load_eq_some hl
  exact { h with handedOver := fun c => (h.handedOver c).load hl }

/-- The owner of one bucket changes with the memory, and the rest of the ring stays. -/
theorem own (h : RingMemoryOk C p owner ring memory) {p' : ℕ} {party : Option Party}
    (hcells : memory'.cells = memory.cells)
    (hself : HandedOver memory' b b party (ring b).seqn (Awaits T C p' b))
    (hother : ∀ c ≠ b, HandedOver memory' c c (owner c) (ring c).seqn (Awaits T C p' c))
    (hvacant : party = some .writer → (ring b).seqn = dummyEventSeqNum T)
    (hoccupied : party = some .reader → (ring b).seqn ≠ dummyEventSeqNum T) :
    RingMemoryOk C p' (Function.update owner b party) ring memory' := by
  refine ⟨fun c => ?_, fun c => by rw [hcells, h.cells], fun c hc => ?_, fun c hc => ?_⟩ <;>
    rcases eq_or_ne c b with rfl | hne
  · rw [Function.update_self]
    exact hself
  · rw [Function.update_of_ne hne]
    exact hother c hne
  · rw [Function.update_self] at hc
    exact hvacant hc
  · rw [Function.update_of_ne hne] at hc
    exact h.vacant c hc
  · rw [Function.update_self] at hc
    exact hoccupied hc
  · rw [Function.update_of_ne hne] at hc
    exact h.occupied c hc

/-- A writer that loads the dummy value has the bucket to itself. -/
theorem writerLoad (h : RingMemoryOk C p owner ring memory)
    (hl : memory.load .acquire .writer b t = some (dummyEventSeqNum T, memory'))
    (hidle : owner b ≠ some .writer) : (ring b).seqn = dummyEventSeqNum T ∧
      RingMemoryOk C p (Function.update owner b (some .writer)) ring memory' := by
  have hvalue := (h.handedOver b).eq_of_load hl rfl
  have hnone : owner b = none := by
    cases ho : owner b with
    | none => rfl
    | some party =>
      cases party with
      | writer => exact absurd ho hidle
      | reader => exact absurd hvalue.symm (h.occupied b ho)
  have hb := h.handedOver b
  rw [hnone] at hb
  refine ⟨hvalue.symm, h.own ?_ (hb.acquire hl rfl fun _ _ _ ha => ha)
    (fun c _ => (h.handedOver c).load hl) (fun _ => hvalue.symm) (by simp)⟩
  obtain ⟨m, -, -, -, w, rfl, -⟩ := Memory.load_eq_some hl
  rfl

/-- A reader that loads the number of its next event has the bucket to itself and goes on. -/
theorem readerLoad (h : RingMemoryOk C p owner ring memory)
    (hl : memory.load .acquire .reader (p % C) t = some (seqnOf T p, memory')) (hC : 0 < C)
    (hfree : (ring (p % C)).seqn = seqnOf T p → owner (p % C) ≠ some .reader) :
    (ring (p % C)).seqn = seqnOf T p ∧
      RingMemoryOk C (p + 1) (Function.update owner (p % C) (some .reader)) ring memory' := by
  have hawaits : Awaits T C p (p % C) .reader (seqnOf T p) := awaitedIn_self hC p
  have hvalue := ((h.handedOver _).eq_of_load hl hawaits).symm
  have hnone : owner (p % C) = none := by
    cases ho : owner (p % C) with
    | none => rfl
    | some party =>
      cases party with
      | writer => exact absurd (hvalue.symm.trans (h.vacant _ ho)) (seqnOf_ne_dummy p)
      | reader => exact absurd ho (hfree hvalue)
  have hb := h.handedOver (p % C)
  rw [hnone] at hb
  have hnext : ∀ c ≠ p % C, ∀ j w, Awaits T C (p + 1) c j w → Awaits T C p c j w := by
    intro c hc j w ha
    cases j with
    | writer => exact ha
    | reader => exact AwaitedIn.of_succ ha hc
  refine ⟨hvalue, h.own ?_ (hb.acquire hl hawaits fun j hj w ha => ?_)
    (fun c hc => ((h.handedOver c).load hl).mono (hnext c hc)) (by simp)
    fun _ => by rw [hvalue]; exact seqnOf_ne_dummy p⟩
  · obtain ⟨m, -, -, -, w, rfl, -⟩ := Memory.load_eq_some hl
    rfl
  · cases j with
    | writer => exact ha
    | reader => exact absurd rfl hj

/-- The owner of a bucket looks at its event. -/
theorem readCell (h : RingMemoryOk C p owner ring memory) (hb : owner b = some i) :
    ¬ memory.ReadRaces i b ∧ RingMemoryOk C p owner ring (memory.readCell i b) := by
  have hself := h.handedOver b
  rw [hb] at hself
  refine ⟨hself.readCell.1, { h with handedOver := fun c => ?_ }⟩
  rcases eq_or_ne c b with rfl | hne
  · rw [hb]
    exact hself.readCell.2
  · exact (h.handedOver c).readCell_of_ne hne

/-- The owner of a bucket constructs or destroys its event. -/
theorem writeCell (h : RingMemoryOk C p owner ring memory) (hb : owner b = some i)
    (x : Option β) : ¬ memory.WriteRaces i b ∧
      RingMemoryOk C p owner (setStorage ring b x) (memory.writeCell i b x) := by
  have hself := h.handedOver b
  rw [hb] at hself
  refine ⟨(hself.writeCell x).1, fun c => ?_, fun c => ?_, fun c hc => ?_, fun c hc => ?_⟩
  · rw [setStorage_seqn]
    rcases eq_or_ne c b with rfl | hne
    · rw [hb]
      exact (hself.writeCell x).2
    · exact (h.handedOver c).writeCell_of_ne hne
  · rw [Memory.writeCell_cells]
    rcases eq_or_ne c b with rfl | hne
    · rw [Function.update_self, setStorage_self]
    · rw [Function.update_of_ne hne, setStorage_of_ne _ hne]
      exact h.cells c
  · rw [setStorage_seqn]
    exact h.vacant c hc
  · rw [setStorage_seqn]
    exact h.occupied c hc

/-- The owner of a bucket hands it over with a store of `m_seqn`. -/
theorem store (h : RingMemoryOk C p owner ring memory) (hb : owner b = some i)
    (hs : memory.store .release i b v t = some memory')
    (hv : ∀ j ≠ i, ∀ w, Awaits T C p b j w → w ≠ (ring b).seqn) :
    RingMemoryOk C p (Function.update owner b none) (setSeqn ring b v) memory' := by
  have hself := h.handedOver b
  rw [hb] at hself
  have hcells : memory'.cells = memory.cells := by
    obtain ⟨-, w, w', rfl, -⟩ := Memory.store_eq_some hs
    rfl
  refine ⟨fun c => ?_, fun c => ?_, fun c hc => ?_, fun c hc => ?_⟩
  · rcases eq_or_ne c b with rfl | hne
    · rw [Function.update_self, setSeqn_self]
      exact hself.release hs fun j hj w ha => ⟨ha, hv j hj w ha⟩
    · rw [Function.update_of_ne hne, setSeqn_of_ne _ hne]
      exact (h.handedOver c).store_of_ne hne hs
  · rw [hcells, setSeqn_storage]
    exact h.cells c
  · rcases eq_or_ne c b with rfl | hne
    · simp at hc
    · rw [Function.update_of_ne hne] at hc
      rw [setSeqn_of_ne _ hne]
      exact h.vacant c hc
  · rcases eq_or_ne c b with rfl | hne
    · simp at hc
    · rw [Function.update_of_ne hne] at hc
      rw [setSeqn_of_ne _ hne]
      exact h.occupied c hc

/-- The writer publishes the event it has constructed. -/
theorem publish (h : RingMemoryOk C p owner ring memory) (hb : owner b = some .writer)
    (hs : memory.store .release .writer b v t = some memory') :
    RingMemoryOk C p (Function.update owner b none) (setSeqn ring b v) memory' := by
  refine h.store hb hs fun j hj w ha => ?_
  rw [h.vacant b hb]
  cases j with
  | writer => exact absurd rfl hj
  | reader => exact AwaitedIn.ne_dummy ha

/-- The reader gives the bucket back. -/
theorem release (h : RingMemoryOk C p owner ring memory) (hb : owner b = some .reader)
    (hs : memory.store .release .reader b v t = some memory') :
    RingMemoryOk C p (Function.update owner b none) (setSeqn ring b v) memory' := by
  refine h.store hb hs fun j hj w ha => ?_
  cases j with
  | writer =>
    obtain rfl : w = dummyEventSeqNum T := ha
    exact (h.occupied b hb).symm
  | reader => exact absurd rfl hj

end RingMemoryOk

/-! ## Who works where -/

/-- The bucket that the writer works in. -/
def Writer.bucket (w : Writer T β) : Option ℕ :=
  match w.pc with
  | .idle => none
  | _ => some w.impl.nextBucket

/-- The rest of `try_write` shows nothing or that it went through. -/
theorem Writer.resume_cases {w w' : Writer T β} {ring ring' : RingBuffer T β}
    {evs : List (WriterEvent β)} (h : w.resume ring = some (ring', w', evs)) :
    evs = [] ∨ ∃ e, evs = [.wrote e] := by
  unfold Writer.resume at h
  split at h
  · cases h
  · cases h
    exact .inl rfl
  · cases h
    exact .inr ⟨_, rfl⟩

/-- The writer owns the bucket it is writing and the reader those in `held`. -/
structure Owners (owner : ℕ → Option Party) (writing : Option ℕ) (held : ℕ → Prop) : Prop where
  writer : ∀ b, owner b = some .writer ↔ writing = some b
  reader : ∀ b, owner b = some .reader ↔ held b

namespace Owners

variable {owner : ℕ → Option Party} {writing : Option ℕ} {held : ℕ → Prop} {b : ℕ}

theorem none : Owners (fun _ => none) none fun _ => False := ⟨by simp, by simp⟩

theorem startWrite (h : Owners owner .none held) (hb : owner b ≠ some .reader) :
    Owners (Function.update owner b (some .writer)) (some b) held := by
  constructor <;> intro c <;> rcases eq_or_ne c b with rfl | hne
  · simp
  · simp [hne, h.writer, Ne.symm hne]
  · simp [← h.reader, hb]
  · simp [hne, h.reader]

theorem endWrite (h : Owners owner (some b) held) :
    Owners (Function.update owner b .none) .none held := by
  have hb := (h.writer b).2 rfl
  constructor <;> intro c <;> rcases eq_or_ne c b with rfl | hne
  · simp
  · simp [hne, h.writer, Ne.symm hne]
  · simp [← h.reader, hb]
  · simp [hne, h.reader]

theorem take (h : Owners owner writing held) (hb : owner b ≠ some .writer) :
    Owners (Function.update owner b (some .reader)) writing fun c => held c ∨ c = b := by
  constructor <;> intro c <;> rcases eq_or_ne c b with rfl | hne
  · simp [← h.writer, hb]
  · simp [hne, h.writer]
  · simp
  · simp [hne, h.reader]

theorem give (h : Owners owner writing held) (hb : held b) :
    Owners (Function.update owner b .none) writing fun c => held c ∧ c ≠ b := by
  have hb := (h.reader b).2 hb
  constructor <;> intro c <;> rcases eq_or_ne c b with rfl | hne
  · simp [← h.writer, hb]
  · simp [hne, h.writer]
  · simp
  · simp [hne, h.reader]

end Owners

section Write

variable {C p t : ℕ} {owner : ℕ → Option Party} {held : ℕ → Prop} {ring : RingBuffer T β}
  {memory memory' : RingMemory T β} {w w' : Writer T β} {e : β}
  {evs : List (Event ℕ (WriterEvent β))}

/-- Under this memory `try_write` starts as it does on the ring of the latest stores, or it is
refused, perhaps by a stale load, and leaves everything as it was. -/
theorem RingMemoryOk.tryWriteAt (h : RingMemoryOk C p owner ring memory)
    (ho : Owners owner w.bucket held) (hs : w.tryWriteAt memory e t = some (memory', w', evs)) :
    (w' = w ∧ evs = [.shows (.offered e), .shows (.refused e)] ∧
      RingMemoryOk C p owner ring memory') ∨
    (w.tryWrite ring e = some (w', [.offered e]) ∧ evs = [.shows (.offered e)] ∧
      ∃ owner', RingMemoryOk C p owner' ring memory' ∧ Owners owner' w'.bucket held) := by
  unfold Writer.tryWriteAt at hs
  split at hs
  · rename_i hpc
    split at hs
    · cases hs
    · rename_i v memory₁ hl
      split_ifs at hs with hv
      · simp only [Option.some.injEq, Prod.mk.injEq] at hs
        obtain ⟨rfl, rfl, rfl⟩ := hs
        subst hv
        have hnone : w.bucket = none := by rw [Writer.bucket, hpc]
        rw [hnone] at ho
        have hfree : owner w.impl.nextBucket ≠ some .writer := by simp [ho.writer]
        obtain ⟨hring, hok⟩ := h.writerLoad hl hfree
        refine .inr ⟨?_, rfl, _, hok, ho.startWrite fun hr => h.occupied _ hr hring⟩
        simp only [Writer.tryWrite, hpc, hring, ↓reduceIte]
      · simp only [Option.some.injEq, Prod.mk.injEq] at hs
        obtain ⟨rfl, rfl, rfl⟩ := hs
        exact .inl ⟨rfl, rfl, h.load hl⟩
  · cases hs

/-- The rest of `try_write` is that of the ring of the latest stores, without a data race. -/
theorem RingMemoryOk.resumeAt (h : RingMemoryOk C p owner ring memory)
    (ho : Owners owner w.bucket held) (hs : w.resumeAt memory t = some (memory', w', evs)) :
    ∃ ring' evs', w.resume ring = some (ring', w', evs') ∧ evs = evs'.map .shows ∧
      ∃ owner', RingMemoryOk C p owner' ring' memory' ∧ Owners owner' w'.bucket held := by
  unfold Writer.resumeAt at hs
  cases hpc : w.pc with
  | idle => simp [hpc] at hs
  | construct e =>
    have hbucket : w.bucket = some w.impl.nextBucket := by rw [Writer.bucket, hpc]
    have hown := (ho.writer w.impl.nextBucket).2 hbucket
    obtain ⟨hrace, hok⟩ := h.writeCell hown (some e)
    simp only [hpc, raceIf_of_not hrace, Option.some.injEq, Prod.mk.injEq] at hs
    obtain ⟨rfl, rfl, rfl⟩ := hs
    refine ⟨_, [], by rw [Writer.resume, hpc], rfl, owner, hok, ?_⟩
    rw [hbucket] at ho
    exact ho
  | publish e =>
    have hbucket : w.bucket = some w.impl.nextBucket := by rw [Writer.bucket, hpc]
    have hown := (ho.writer w.impl.nextBucket).2 hbucket
    simp only [hpc, Option.map_eq_some_iff, Prod.mk.injEq] at hs
    obtain ⟨_, hs, rfl, rfl, rfl⟩ := hs
    refine ⟨_, [.wrote e], by rw [Writer.resume, hpc], rfl, _, h.publish hown hs, ?_⟩
    rw [hbucket] at ho
    exact ho.endWrite

end Write

end Ihft.Channel.One2One
