import Ihft.Channel.One2Each.Pod
import Ihft.Channel.One2Each.RingMemory

/-!
# The one-to-each POD queue under release and acquire

The queue of `Pod` with the memory orders of the source.  The store of `m_counter` is relaxed: it is
the release store of `m_seqn` that carries it to the readers, and the releases of their `fetch_sub`
that carry their copies back to the writer, all of them once the counter has run down
(`podMemory_broadcasts`).
-/

namespace Ihft.Channel.One2Each

open Observe Broadcast ReleaseAcquire

variable {T : SeqnumCounter} {R : ℕ} {α : Type*}

/-- The memory of the ring, the producer and the consumers. -/
structure PodMemoryState (T : SeqnumCounter) (R : ℕ) (α : Type*) where
  memory : RingMemory T R α
  writer : Writer T α
  readers : Fin R → PodReader T α

namespace PodMemoryState

/-- The channel handed out by `make`. -/
def start (α : Type*) (ch : ProducerAndConsumers T) : PodMemoryState T ch.consumers.length α where
  memory := .new T _ α
  writer := ⟨ch.producer, .idle⟩
  readers r := ⟨ch.consumers.get r, .idle⟩

/-- `one2each_seqnum_stream_pod_queue::try_write` up to its load. -/
def tryWrite (s : PodMemoryState T R α) (event : α) (t : ℕ) :
    Option (PodMemoryState T R α × List (Event ℕ (Obs (Fin R) α))) :=
  let counter : T.Val := BitVec.ofNat T.digits s.writer.impl.readersCount
  match s.writer.tryWriteAt s.memory event counter t with
  | none => none
  | some (memory, writer, evs) =>
    some ({ s with memory := memory, writer := writer }, evs.flatMap (Event.bind WriterEvent.podObs))

/-- The rest of `try_write`. -/
def resumeWriter (s : PodMemoryState T R α) (t : ℕ) :
    Option (PodMemoryState T R α × List (Event ℕ (Obs (Fin R) α))) :=
  match s.writer.resumeAt s.memory t with
  | none => none
  | some (memory, writer, evs) =>
    some ({ s with memory := memory, writer := writer }, evs.flatMap (Event.bind WriterEvent.podObs))

def setReader (s : PodMemoryState T R α) (r : Fin R) (reader : PodReader T α) :
    PodMemoryState T R α :=
  { s with readers := Function.update s.readers r reader }

/-- `try_read` up to its load, `m_seqn.load(std::memory_order_acquire)`. -/
def tryRead (s : PodMemoryState T R α) (r : Fin R) (t : ℕ) :
    Option (PodMemoryState T R α × List (Event ℕ (Obs (Fin R) α))) :=
  match (s.readers r).pc with
  | .idle =>
    let reader := (s.readers r).reader
    let b := reader.nextBucket
    match s.memory.load .acquire (.reader r) (.seqn b) t with
    | none => none
    | some (seqn, memory) =>
      if seqn = reader.next then
        some ({ s with memory := memory }.setReader r ⟨reader.advance, .copy b⟩, [])
      else
        some ({ s with memory := memory }, [.shows (.empty r)])
  | _ => none

/-- The rest of `try_read`: the copy of the event, then
`m_counter.fetch_sub(1, std::memory_order_release)`. -/
def resumeReader (s : PodMemoryState T R α) (r : Fin R) (t : ℕ) :
    Option (PodMemoryState T R α × List (Event ℕ (Obs (Fin R) α))) :=
  let reader := (s.readers r).reader
  match (s.readers r).pc with
  | .idle => none
  | .copy b =>
    some ({ s with memory := s.memory.readCell (.reader r) b }.setReader r
        ⟨reader, .release b (s.memory.cells b)⟩,
      raceIf (s.memory.ReadRaces (.reader r) b) b)
  | .release b opt =>
    (s.memory.fetchModify .release (.reader r) (.counter b) (· - 1) t).map fun (_, memory) =>
      ({ s with memory := memory }.setReader r ⟨reader, .idle⟩, [.shows (.read r opt)])

end PodMemoryState

/-- The POD queue over its memory; a move comes with the time of the store it reads or makes. -/
def podMemoryMachine (T : SeqnumCounter) (R : ℕ) (α : Type*) :
    Machine (PodMemoryState T R α) (PodInput R α × ℕ) (Event ℕ (Obs (Fin R) α)) where
  step s
    | (.tryWrite event, t) => s.tryWrite event t
    | (.writer, t) => s.resumeWriter t
    | (.tryRead r, t) => s.tryRead r t
    | (.reader r, t) => s.resumeReader r t

/-! ## Who needs which bucket -/

/-- The reader `r` has an event to read in the bucket `b`, or is about to. -/
def Needs (C : ℕ) (w : Writer T α) (a : State (Fin R) α) (b : ℕ) (r : Fin R) : Prop :=
  (∃ k, a.taken r ≤ k ∧ k < a.written.length ∧ k % C = b) ∨
    ∃ e c, w.pc = .publish e c ∧ b = w.impl.nextBucket

/-- The event that `r` goes on with. -/
def nextOf (readers : Fin R → PodReader T α) (a : State (Fin R) α) (r : Fin R) : ℕ :=
  (readers r).pc.nextNumber (a.taken r)

/-- One reader goes on. -/
theorem nextOf_update (readers : Fin R → PodReader T α) {a : State (Fin R) α}
    (a' : State (Fin R) α) {r : Fin R} {x : PodReader T α} {n : ℕ}
    (hx : x.pc.nextNumber (a'.taken r) = n) (ha : ∀ r' ≠ r, a'.taken r' = a.taken r') :
    nextOf (Function.update readers r x) a' = Function.update (nextOf readers a) r n := by
  funext r'
  rcases eq_or_ne r' r with rfl | hne
  · rw [Function.update_self, nextOf, Function.update_self, hx]
  · rw [Function.update_of_ne hne, nextOf, Function.update_of_ne hne, ha r' hne, nextOf]

section Needs

variable {C : ℕ} {sc : PodState T R α} {a : State (Fin R) α} {r : Fin R} {k : ℕ}

/-- A free bucket holds no unread event. -/
theorem PodRel.nextBucket_ne (h : PodRel C sc a) (hfree : ∀ r, a.written.length < a.taken r + C)
    (hk : a.taken r ≤ k) (hk' : k < a.written.length) : sc.writer.impl.nextBucket ≠ k % C := by
  rw [h.ring.index.nextBucket]
  intro heq
  have := WrappingCounter.mod_injOn_window hk'.le (by have := hfree r; omega) le_rfl
    (by have := hfree r; omega) heq
  omega

theorem PodRel.free (hR : R < 2 ^ T.digits) (h : PodRel C sc a) (hw : sc.writer.pc ≠ .idle) (r : Fin R) :
    a.written.length < a.taken r + C :=
  (ofNat_pending_eq_empty hR _).1 (h.ring.free hw).1 r

/-- The load of an empty counter finds a bucket that nobody needs. -/
theorem PodRel.free_of_counter (hC : IsCapacity T C) (hR : R < 2 ^ T.digits) (h : PodRel C sc a)
    (hpc : sc.writer.pc = .idle)
    (hcounter : (sc.ring sc.writer.impl.nextBucket).counter = emptyDataMark T) (r : Fin R) :
    a.written.length < a.taken r + C := by
  have hpos := hC.pos
  rw [h.ring.index.nextBucket, h.ring.counter _ le_rfl (by omega) (by simp [hpc])] at hcounter
  exact (ofNat_pending_eq_empty hR _).1 hcounter r

/-- The event a reader goes on with is not behind the writer's. -/
theorem PodRel.nextOf_le (h : PodRel C sc a) (r : Fin R) :
    a.taken r ≤ nextOf sc.readers a r ∧ nextOf sc.readers a r ≤ a.written.length := by
  have hr := h.readers r
  have hle := h.window.taken_le r
  unfold nextOf
  cases hpc : (sc.readers r).pc with
  | idle => exact ⟨le_rfl, hle⟩
  | copy b =>
    rw [hpc] at hr
    exact ⟨Nat.le_succ _, hr.2.1⟩
  | release b opt =>
    rw [hpc] at hr
    exact ⟨Nat.le_succ _, hr.2.1⟩

/-- Nobody awaits the number that a new event replaces. -/
theorem PodRel.ne_seqn (hC : IsCapacity T C) (hR : R < 2 ^ T.digits) (h : PodRel C sc a)
    (hw : sc.writer.pc ≠ .idle) {v : T.Val}
    (hv : AwaitedIn T C (nextOf sc.readers a r) sc.writer.impl.nextBucket v) :
    v ≠ (sc.ring sc.writer.impl.nextBucket).seqn := by
  obtain ⟨hle, hle'⟩ := h.nextOf_le r
  have hfree := h.free hR hw r
  have hpos := hC.pos
  obtain ⟨k, hk, hk', hmod, rfl⟩ := hv
  rw [h.ring.index.nextBucket] at hmod ⊢
  obtain rfl : k = a.written.length :=
    WrappingCounter.mod_injOn_window hk hk' hle' (by omega) hmod
  rcases le_or_gt C a.written.length with hC' | hC'
  · rw [h.ring.stale _ le_rfl (by omega) hC']
    have := seqnOf_add_capacity_ne hC (a.written.length - C)
    rwa [Nat.sub_add_cancel hC'] at this
  · rw [h.ring.unused _ le_rfl hC']
    exact seqnOf_ne_dummy _

/-- The counter of an event that is being read has not run down. -/
theorem PodRel.counter_ne (hR : R < 2 ^ T.digits) (h : PodRel C sc a)
    (hlt : a.taken r < a.written.length) :
    (sc.ring (a.taken r % C)).counter ≠ emptyDataMark T := by
  have hle := h.window.le_taken r
  have hne := ofNat_pending_ne_empty hR (a := a) ⟨r, le_refl (a.taken r + C)⟩
  have hcounter := h.ring.counter (a.taken r + C) hle (by omega) fun heq e c hpub =>
    h.ring.ne_of_count_ne hne (by rw [hpub]; simp) heq
  rw [Nat.add_mod_right] at hcounter
  rw [hcounter]
  exact hne

end Needs

/-! ## The simulation -/

/-- The queue next to the one in which every load returns the latest store. -/
structure PodMemoryRel (C : ℕ) (s : PodMemoryState T R α) (sc : PodState T R α)
    (a : State (Fin R) α) : Prop where
  rel : PodRel C sc a
  writer : s.writer = sc.writer
  readers : s.readers = sc.readers
  memory : ∃ round, RingMemoryOk Shared C (nextOf sc.readers a) round sc.ring s.memory ∧
    RoundsOk round sc.writer.bucket (Needs C sc.writer a) fun b r =>
      (sc.readers r).pc.bucket = some b

/-- A step does not race, and it is one of the queue with the latest stores, or one that failed. -/
def PodFollows (C : ℕ) (sc : PodState T R α) (s' : PodMemoryState T R α)
    (os : List (Event ℕ (Obs (Fin R) α))) : Prop :=
  RaceFree os ∧ ((completed (shown os) = [] ∧ ∃ a, PodMemoryRel C s' sc a) ∨
    ∃ j sc' a, (podMachine T R α).step sc j = some (sc', completed (shown os)) ∧
      PodMemoryRel C s' sc' a)

variable {C t : ℕ} {s s' : PodMemoryState T R α} {sc : PodState T R α} {a : State (Fin R) α}
  {os : List (Event ℕ (Obs (Fin R) α))} {e : α} {r : Fin R}

theorem PodMemoryRel.tryWrite (hC : IsCapacity T C) (hR : R < 2 ^ T.digits)
    (h : PodMemoryRel C s sc a) (hs : s.tryWrite e t = some (s', os)) : PodFollows C sc s' os := by
  obtain ⟨hrel, hw, hr, round, hok, ho⟩ := h
  unfold PodMemoryState.tryWrite Writer.tryWriteAt at hs
  rw [hw] at hs
  cases hpc : sc.writer.pc with
  | construct x c => simp [hpc] at hs
  | storeCounter x c => simp [hpc] at hs
  | publish x c => simp [hpc] at hs
  | idle =>
    have hbucket : sc.writer.bucket = none := by rw [Writer.bucket, hpc]
    cases hl : s.memory.load .acquire .writer (.counter sc.writer.impl.nextBucket) t with
    | none => simp [hpc, hl] at hs
    | some x =>
      obtain ⟨v, memory⟩ := x
      by_cases hv : v = emptyDataMark T
      · subst hv
        simp only [hpc, hl, ↓reduceIte, Option.some.injEq, Prod.mk.injEq] at hs
        obtain ⟨rfl, rfl⟩ := hs
        have hnone : (sc.ring sc.writer.impl.nextBucket).counter = emptyDataMark T →
            ∀ j, ¬ (round sc.writer.impl.nextBucket).pending j := by
          intro hcounter j hj
          cases j with
          | writer => exact (ho.writer _).1 hj
          | reader r =>
            rcases (ho.pending _ r).1 hj with ⟨k, hk, hk', hmod⟩ | ⟨x, c, hpub, -⟩
            · exact hrel.nextBucket_ne (hrel.free_of_counter hC hR hpc hcounter) hk hk' hmod.symm
            · rw [hpc] at hpub
              cases hpub
        obtain ⟨hcounter, hok'⟩ := hok.take hnone hl
        have hstep' : sc.tryWrite e = some ({ sc with writer := { sc.writer with
            pc := .construct e (BitVec.ofNat T.digits sc.writer.impl.readersCount) } }, []) := by
          simp only [PodState.tryWrite, Writer.tryWrite, hpc, hcounter, ↓reduceIte]
          rfl
        obtain ⟨hrel', -⟩ := hrel.tryWrite hC hR hstep'
        rw [hbucket] at ho
        have htake := ho.take sc.writer.impl.nextBucket
        refine ⟨raceFree_nil, .inr ⟨.tryWrite e, _, a, hstep', hrel', rfl, hr, _, hok', ?_⟩⟩
        refine ⟨htake.writing, fun b r => (htake.pending b r).trans ?_, htake.reading, htake.writer⟩
        simp [Needs, hpc]
      · simp only [hpc, hl, if_neg hv, Option.some.injEq, Prod.mk.injEq] at hs
        obtain ⟨rfl, rfl⟩ := hs
        exact ⟨raceFree_map [Obs.refused e], .inl ⟨rfl, a, hrel, rfl, hr, round, hok.load hl, ho⟩⟩

theorem PodMemoryRel.resumeWriter (hC : IsCapacity T C) (hR : R < 2 ^ T.digits)
    (h : PodMemoryRel C s sc a) (hs : s.resumeWriter t = some (s', os)) :
    PodFollows C sc s' os := by
  obtain ⟨hrel, hw, hr, round, hok, ho⟩ := h
  unfold PodMemoryState.resumeWriter Writer.resumeAt at hs
  rw [hw] at hs
  cases hpc : sc.writer.pc with
  | idle => simp [hpc] at hs
  | construct x c =>
    have hbucket : sc.writer.bucket = some sc.writer.impl.nextBucket := by rw [Writer.bucket, hpc]
    obtain ⟨hrace, hok'⟩ := hok.construct ((ho.writing _).2 hbucket) (some x)
    simp only [hpc, raceIf_of_not hrace, Option.some.injEq, Prod.mk.injEq] at hs
    obtain ⟨rfl, rfl⟩ := hs
    have hstep' : sc.resumeWriter = some ({ sc with
        ring := setStorage sc.ring sc.writer.impl.nextBucket (some x)
        writer := { sc.writer with pc := .storeCounter x c } }, []) := by
      simp only [PodState.resumeWriter, Writer.resume, hpc]
      rfl
    refine ⟨raceFree_nil, .inr ⟨.writer, _, a, hstep', (hrel.resumeWriter hC hR hstep').2, rfl, hr,
      round, hok', ?_⟩⟩
    rw [hbucket] at ho
    refine ⟨ho.writing, fun b r => (ho.pending b r).trans ?_, ho.reading, ho.writer⟩
    simp [Needs, hpc]
  | storeCounter x c =>
    have hbucket : sc.writer.bucket = some sc.writer.impl.nextBucket := by rw [Writer.bucket, hpc]
    have hwriting := (ho.writing _).2 hbucket
    simp only [hpc] at hs
    cases hst : s.memory.store .relaxed .writer (.counter sc.writer.impl.nextBucket) c t with
    | none => simp [hst] at hs
    | some memory =>
      simp only [hst, Option.map_some, Option.some.injEq, Prod.mk.injEq] at hs
      obtain ⟨rfl, rfl⟩ := hs
      have hstep' : sc.resumeWriter = some ({ sc with
          ring := setCounter sc.ring sc.writer.impl.nextBucket c
          writer := { sc.writer with pc := .publish x c } }, []) := by
        simp only [PodState.resumeWriter, Writer.resume, hpc]
        rfl
      refine ⟨raceFree_nil, .inr ⟨.writer, _, a, hstep', (hrel.resumeWriter hC hR hstep').2, rfl,
        hr, _, hok.storeCounter hwriting hst, ?_⟩⟩
      rw [hbucket] at ho
      refine ho.arm c t fun b r => ?_
      simp [Needs, hpc]
  | publish x c =>
    have hbucket : sc.writer.bucket = some sc.writer.impl.nextBucket := by rw [Writer.bucket, hpc]
    have hwriting := (ho.writing _).2 hbucket
    have hne : sc.writer.pc ≠ .idle := by rw [hpc]; simp
    simp only [hpc] at hs
    cases hst : s.memory.store .release .writer (.seqn sc.writer.impl.nextBucket)
        sc.writer.impl.seqn t with
    | none => simp [hst] at hs
    | some memory =>
      simp only [hst, Option.map_some, Option.some.injEq, Prod.mk.injEq] at hs
      obtain ⟨rfl, rfl⟩ := hs
      have hstep' : sc.resumeWriter = some ({ sc with
          ring := setSeqn sc.ring sc.writer.impl.nextBucket sc.writer.impl.seqn
          writer := ⟨sc.writer.impl.advance, .idle⟩ }, [.wrote x]) := by
        simp only [PodState.resumeWriter, Writer.resume, hpc]
        rfl
      have hok' := hok.publish hwriting hst fun r v hv => hrel.ne_seqn hC hR hne hv
      refine ⟨raceFree_map [Obs.wrote x], .inr ⟨.writer, _, _, hstep',
        (hrel.resumeWriter hC hR hstep').2, rfl, hr, _, hok', ?_⟩⟩
      rw [hbucket] at ho
      refine ho.publish _ fun b r => ?_
      -- the new event is the one that everybody was about to need
      have hle := hrel.window.taken_le r
      simp only [Needs, hpc, spec, Spec.after_cons, Spec.after_nil, State.write_written,
        State.write_taken, List.length_append, List.length_singleton, WriterPc.publish.injEq,
        reduceCtorEq, false_and, exists_false, or_false, hrel.ring.index.nextBucket]
      constructor
      · rintro ⟨k, hk, hk', rfl⟩
        rcases Nat.lt_succ_iff_lt_or_eq.1 hk' with hlt | rfl
        · exact .inl ⟨k, hk, hlt, rfl⟩
        · exact .inr ⟨x, c, ⟨rfl, rfl⟩, rfl⟩
      · rintro (⟨k, hk, hk', rfl⟩ | ⟨_, _, -, rfl⟩)
        · exact ⟨k, hk, by omega, rfl⟩
        · exact ⟨_, hle, Nat.lt_succ_self _, rfl⟩

theorem PodMemoryRel.tryRead (hC : IsCapacity T C) (hR : R < 2 ^ T.digits)
    (h : PodMemoryRel C s sc a) (hs : s.tryRead r t = some (s', os)) : PodFollows C sc s' os := by
  obtain ⟨hrel, hw, hr, round, hok, ho⟩ := h
  unfold PodMemoryState.tryRead at hs
  rw [hr] at hs
  cases hpc : (sc.readers r).pc with
  | copy b => simp [hpc] at hs
  | release b opt => simp [hpc] at hs
  | idle =>
    have hidx := hrel.readers r
    rw [hpc] at hidx
    have hidx : (sc.readers r).reader.AtIndex C (a.taken r) := hidx
    have hnext : nextOf sc.readers a r = a.taken r := by rw [nextOf, hpc]; rfl
    simp only [hpc, hidx.nextBucket, hidx.next_eq] at hs
    cases hl : s.memory.load .acquire (.reader r) (.seqn (a.taken r % C)) t with
    | none => simp [hl] at hs
    | some x =>
      obtain ⟨v, memory⟩ := x
      by_cases hv : v = seqnOf T (a.taken r)
      · subst hv
        simp only [hl, ↓reduceIte, Option.some.injEq, Prod.mk.injEq] at hs
        obtain ⟨rfl, rfl⟩ := hs
        rw [← hnext] at hl
        have hseqn := hok.seqn_eq hC.pos hl
        have hlt : a.taken r < a.written.length := by
          rw [hnext] at hseqn
          exact (hrel.ring.load_iff hC (hrel.window.taken_le r) (hrel.window.le_taken r)).1 hseqn
        have hwriting : ¬ (round (nextOf sc.readers a r % C)).writing := by
          rw [ho.writing, hnext, Writer.bucket]
          split
          · simp
          · rename_i hne
            rw [Option.some.injEq]
            exact hrel.nextBucket_ne (hrel.free hR hne) le_rfl hlt
        have hpending : (round (nextOf sc.readers a r % C)).pending (.reader r) := by
          rw [ho.pending, hnext]
          exact .inl ⟨_, le_rfl, hlt, rfl⟩
        have hok' := hok.enter hC.pos hl hwriting hpending
        have hstep' : sc.tryRead r = some (sc.setReader r
            ⟨(sc.readers r).reader.advance, .copy (a.taken r % C)⟩, []) := by
          rw [hnext] at hseqn
          simp only [PodState.tryRead, hpc, hidx.nextBucket, hidx.next_eq, hseqn, ↓reduceIte]
        obtain ⟨hrel', -⟩ := hrel.tryRead hC hstep'
        rw [← nextOf_update (x := ⟨(sc.readers r).reader.advance, .copy (a.taken r % C)⟩) sc.readers a
          (by rw [hnext]; rfl) fun _ _ => rfl] at hok'
        refine ⟨raceFree_nil, .inr ⟨.tryRead r, _, a, hstep', hrel', hw, ?_, _, hok', ho.enter ?_⟩⟩
        · simp only [PodMemoryState.setReader, PodState.setReader]
        · intro b r'
          rw [hnext]
          rcases eq_or_ne r' r with rfl | hne
          · simp [PodState.setReader, PodReaderPc.bucket, hpc, eq_comm]
          · simp [PodState.setReader, hne]
      · simp only [hl, if_neg hv, Option.some.injEq, Prod.mk.injEq] at hs
        obtain ⟨rfl, rfl⟩ := hs
        exact ⟨raceFree_map [Obs.empty r], .inl ⟨rfl, a, hrel, hw, rfl, round, hok.load hl, ho⟩⟩

theorem PodMemoryRel.resumeReader (hR : R < 2 ^ T.digits) (h : PodMemoryRel C s sc a)
    (hs : s.resumeReader r t = some (s', os)) : PodFollows C sc s' os := by
  obtain ⟨hrel, hw, hr, round, hok, ho⟩ := h
  have hreader := hrel.readers r
  unfold PodMemoryState.resumeReader at hs
  rw [hr] at hs
  cases hpc : (sc.readers r).pc with
  | idle => simp [hpc] at hs
  | copy b =>
    have hown : (round b).reading (.reader r) := (ho.reading b r).2 (by rw [hpc]; rfl)
    obtain ⟨hrace, hok'⟩ := hok.copy hown
    simp only [hpc, raceIf_of_not hrace, Option.some.injEq, Prod.mk.injEq] at hs
    obtain ⟨rfl, rfl⟩ := hs
    have hstep' : sc.resumeReader r = some (sc.setReader r
        ⟨(sc.readers r).reader, .release b (sc.ring b).storage⟩, []) := by
      simp only [PodState.resumeReader, hpc]
    rw [← Function.update_eq_self r (nextOf sc.readers a), ← nextOf_update (x := ⟨_, .release b _⟩)
      sc.readers a (by rw [nextOf, hpc]; rfl) fun _ _ => rfl] at hok'
    refine ⟨raceFree_nil, .inr ⟨.reader r, _, a, hstep', (hrel.resumeReader hR hstep').2, hw, ?_,
      round, hok', ho.writing, ho.pending, fun c r' => (ho.reading c r').trans ?_, ho.writer⟩⟩
    · simp only [PodMemoryState.setReader, PodState.setReader, hok.cells b]
    · rcases eq_or_ne r' r with rfl | hne
      · simp [PodState.setReader, PodReaderPc.bucket, hpc]
      · simp [PodState.setReader, hne]
  | release b opt =>
    have hown : (round b).reading (.reader r) := (ho.reading b r).2 (by rw [hpc]; rfl)
    simp only [hpc] at hs
    rw [hpc] at hreader
    obtain ⟨-, hlt, rfl, -⟩ := hreader
    cases hst : s.memory.fetchModify .release (.reader r) (.counter (a.taken r % C)) (· - 1) t with
    | none => simp only [hst, Option.map_none, reduceCtorEq] at hs
    | some x =>
      obtain ⟨v, memory⟩ := x
      simp only [hst, Option.map_some, Option.some.injEq, Prod.mk.injEq] at hs
      obtain ⟨rfl, rfl⟩ := hs
      have hok' := hok.leave hown (hrel.counter_ne hR hlt) hst
      have hstep' : sc.resumeReader r = some (PodState.setReader
          ⟨setCounter sc.ring (a.taken r % C) ((sc.ring (a.taken r % C)).counter - 1), sc.writer,
            sc.readers⟩ r ⟨(sc.readers r).reader, .idle⟩, [.read r opt]) := by
        simp only [PodState.resumeReader, hpc]
      rw [← Function.update_eq_self r (nextOf sc.readers a), ← nextOf_update (x := ⟨_, .idle⟩)
        sc.readers (a.take r) (by simp [nextOf, hpc, PodReaderPc.nextNumber])
        fun r' hne => by simp [hne]] at hok'
      refine ⟨raceFree_map [Obs.read r opt], .inr ⟨.reader r, _, _, hstep',
        (hrel.resumeReader hR hstep').2, hw, ?_, _, hok', ho.leave _ (fun c r' => ?_)
        fun c r' => ?_⟩⟩
      · simp only [PodMemoryState.setReader, PodState.setReader]
      · -- of the buckets that `r` needs, only that of its event is given up
        simp only [Needs, PodState.setReader, spec, Spec.after_cons, Spec.after_nil,
          State.take_written, State.take_taken]
        rcases eq_or_ne r' r with rfl | hne
        · rw [Function.update_self]
          have hW := hrel.window.le_taken r'
          constructor
          · rintro (⟨k, hk, hk', rfl⟩ | ⟨x, c', hpub, rfl⟩)
            · refine ⟨.inl ⟨k, by omega, hk', rfl⟩, fun heq => ?_⟩
              have := WrappingCounter.mod_injOn_window (W := a.taken r') (by omega) (by omega) le_rfl
                (by omega) heq.1
              omega
            · refine ⟨.inr ⟨x, c', hpub, rfl⟩, fun heq => ?_⟩
              exact hrel.nextBucket_ne (hrel.free hR (by rw [hpub]; simp)) le_rfl hlt heq.1
          · rintro ⟨⟨k, hk, hk', rfl⟩ | hpub, hne⟩
            · refine .inl ⟨k, ?_, hk', rfl⟩
              by_contra hlt'
              obtain rfl : k = a.taken r' := by omega
              exact hne ⟨rfl, rfl⟩
            · exact .inr hpub
        · simp [hne]
      · rcases eq_or_ne r' r with rfl | hne
        · simp [PodState.setReader, PodReaderPc.bucket, hpc, eq_comm]
        · simp [PodState.setReader, hne]

/-- Every step follows the queue with the latest stores. -/
theorem PodMemoryRel.step (hC : IsCapacity T C) (hR : R < 2 ^ T.digits) (h : PodMemoryRel C s sc a)
    {i : PodInput R α × ℕ} (hs : (podMemoryMachine T R α).step s i = some (s', os)) :
    PodFollows C sc s' os := by
  obtain ⟨i, t⟩ := i
  cases i with
  | tryWrite e => exact h.tryWrite hC hR hs
  | writer => exact h.resumeWriter hC hR hs
  | tryRead r => exact h.tryRead hC hR hs
  | reader r => exact h.resumeReader hR hs

theorem podMemoryRel_start (C R : ℕ) : PodMemoryRel C
    (PodMemoryState.start α ⟨producerAfter T C R, consumersFrom T C 0 R⟩)
    (PodState.start α ⟨producerAfter T C R, consumersFrom T C 0 R⟩) Broadcast.start where
  rel := podRel_start C R
  writer := rfl
  readers := rfl
  memory := by
    refine ⟨_, ringMemoryOk_new C _, ?_⟩
    constructor
    · simp [Round.initial, Writer.bucket, PodState.start]
    · simp [Round.initial, Needs, PodState.start, Broadcast.start]
    · simp [Round.initial, PodState.start, PodReaderPc.bucket]
    · simp [Round.initial]

/-- Every run follows one of the queue with the latest stores. -/
theorem podMemory_follows (hC : IsCapacity T C)
    (hR : (consumersFrom T C 0 R).length < 2 ^ T.digits)
    {s : PodMemoryState T (consumersFrom T C 0 R).length α}
    {log : List (Event ℕ (Obs (Fin (consumersFrom T C 0 R).length) α))}
    (h : (podMemoryMachine T _ α).Reaches
      (.start α ⟨producerAfter T C R, consumersFrom T C 0 R⟩) s log) :
    ∃ sc, (podMachine T _ α).Reaches (.start α ⟨producerAfter T C R, consumersFrom T C 0 R⟩) sc
      (completed (shown log)) ∧ ∃ a, PodMemoryRel C s sc a := by
  refine h.follow (R := fun s sc => ∃ a, PodMemoryRel C s sc a) (fun log => completed (shown log))
    rfl (fun l l' => by rw [shown_append, completed_append]) ?_ ⟨_, podMemoryRel_start C R⟩
  rintro s sc i s' os ⟨a, hrel⟩ hs
  rcases (hrel.step hC hR hs).2 with ⟨hos, a', hrel'⟩ | ⟨j, sc', a', hj, hrel'⟩
  · exact .inl ⟨hos, a', hrel'⟩
  · exact .inr ⟨j, sc', hj, a', hrel'⟩

/-- Under release and acquire no copy of an event races with the construction of the next one in its
bucket, and the operations that go through are those of a run in which every load returns the latest
store: they form a lossless broadcast to all readers. -/
theorem podMemory_broadcasts {n R : ℕ} {ch : ProducerAndConsumers T}
    {s : PodMemoryState T ch.consumers.length α}
    {log : List (Event ℕ (Obs (Fin ch.consumers.length) α))} (hmake : make T n R = some ch)
    (h : (podMemoryMachine T _ α).Reaches (.start α ch) s log) :
    RaceFree log ∧
      (∃ sc, (podMachine T _ α).Reaches (.start α ch) sc (completed (shown log))) ∧
      (spec (Fin ch.consumers.length) α ch.producer.capacity).Legal start
        (completed (shown log)) ∧
      ∀ r, reads r (shown log) <+: (writes (shown log)).map some := by
  obtain ⟨C, -, hC, -, hR, rfl⟩ := make_eq_some hmake
  have hlen : (consumersFrom T C 0 R).length < 2 ^ T.digits := by
    rw [consumersFrom_length]
    exact hR.trans_lt (max_reader_lt T)
  obtain ⟨sc, hreaches, -⟩ := podMemory_follows hC hlen h
  obtain ⟨hlegal, -⟩ := (pod_simulates hC hlen).reaches (podRel_start C R) hreaches
  rw [producerAfter_capacity hC]
  refine ⟨fun x hx => ?_, ⟨sc, hreaches⟩, hlegal, fun r => ?_⟩
  · obtain ⟨l, s₁, i, s₂, os, l', hbefore, hstep, -, -, hx⟩ := h.exists_step hx
    obtain ⟨sc₁, -, a, hrel⟩ := podMemory_follows hC hlen hbefore
    exact (hrel.step hC hlen hstep).1 x hx
  · have := reads_isPrefix hlegal r
    rwa [reads_completed, writes_completed] at this

/-- One of two readers is turned away by a stale load; the other one is the first to be done. -/
theorem podMemory_broadcasts_stale : ∃ ch, make .uint8 4 2 = some ch ∧
    ∀ r : Fin 2, reads r [Obs.wrote 7, .empty 0, .read 1 (some 7), .read 0 (some 7)] <+:
      [some 7] := by
  have hmake : make .uint8 4 2 = some ⟨producerAfter .uint8 4 2, consumersFrom .uint8 4 0 2⟩ := by
    decide
  have hrun := Machine.Reaches.of_run (show (podMemoryMachine .uint8 2 ℕ).run
    (.start ℕ ⟨producerAfter .uint8 4 2, consumersFrom .uint8 4 0 2⟩)
    [(.tryWrite 7, 0), (.writer, 0), (.writer, 1), (.writer, 1), (.tryRead 0, 0), (.tryRead 0, 1),
      (.tryRead 1, 1), (.reader 1, 0), (.reader 0, 0), (.reader 1, 1), (.reader 0, 2)] =
        some (_, _) from rfl)
  exact ⟨_, hmake, (podMemory_broadcasts hmake hrun).2.2.2⟩

end Ihft.Channel.One2Each
