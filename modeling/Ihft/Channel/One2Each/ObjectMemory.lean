import Ihft.Channel.One2Each.Object
import Ihft.Channel.One2Each.RingMemory

/-!
# The one-to-each object queue over its memory

The queue of `Object` with the memory orders of the source.  Here `fetch_sub` and the store of the
empty mark are relaxed.  The counters count all the same: what goes through is what goes through in a
run in which every load returns the latest store (`objectMemory_follows`).  What the relaxed orders
mean for the events is the subject of `ObjectRaces`.  The producer and the readers stay alive here:
what follows is the queue before its teardown.
-/

namespace Ihft.Channel.One2Each

open Observe GuardedBroadcast ReleaseAcquire

variable {T : SeqnumCounter} {R : ℕ} {α : Type*}

/-- The memory of the ring, the producer, and the readers with their guards. -/
structure ObjectMemoryState (T : SeqnumCounter) (R : ℕ) (α : Type*) extends ObjectCore T R where
  memory : RingMemory T R (Stored α)
  writer : Writer T (Stored α)

/-- The moves of the threads.  `look r j` is `get_event` of the guard at the place `j` of the reader
`r`, and `guard r j` goes on with its destructor. -/
inductive ObjectMove (R : ℕ) (α : Type*)
  | tryWrite (event : α)
  | writer
  | tryRead (r : Fin R)
  | look (r : Fin R) (j : ℕ)
  | moveGuard (r : Fin R) (j : ℕ)
  | destroyGuard (r : Fin R) (j : ℕ)
  | guard (r : Fin R) (j : ℕ)
  deriving DecidableEq, Repr

namespace ObjectMemoryState

/-- The channel handed out by `make`. -/
def start (α : Type*) (ch : ProducerAndConsumers T) (contentAllocator : Bool) :
    ObjectMemoryState T ch.consumers.length α where
  toObjectCore := .start ch contentAllocator
  memory := .new T _ (Stored α)
  writer := ⟨ch.producer, .idle⟩

/-- `one2each_seqnum_stream_object_queue::try_write` up to its load. -/
def tryWrite (s : ObjectMemoryState T R α) (event : α) (t : ℕ) :
    Option (ObjectMemoryState T R α × List (Event ℕ (GuardObs R α))) :=
  if s.producer = true then
    let counter := BitVec.ofNat T.digits s.writer.impl.readersCount + constructedDataMark T
    match s.writer.tryWriteAt s.memory ⟨s.written, event⟩ counter t with
    | none => none
    | some (memory, writer, evs) =>
      some ({ s with memory := memory, writer := writer },
        evs.flatMap (Event.bind WriterEvent.guardObs))
  else
    none

/-- The rest of `try_write`. -/
def resumeWriter (s : ObjectMemoryState T R α) (t : ℕ) :
    Option (ObjectMemoryState T R α × List (Event ℕ (GuardObs R α))) :=
  match s.writer.resumeAt s.memory t with
  | none => none
  | some (memory, writer, evs) =>
    some ({ s with
        memory := memory, writer := writer, written := s.written + (shown evs).length },
      evs.flatMap (Event.bind WriterEvent.guardObs))

/-- `one2each_seqnum_stream_object_reader::try_read`.  The guard it makes refers to the event and
does not look at it. -/
def tryRead (s : ObjectMemoryState T R α) (r : Fin R) (t : ℕ) :
    Option (ObjectMemoryState T R α × List (Event ℕ (GuardObs R α))) :=
  let x := s.readers r
  let b := x.reader.nextBucket
  if x.alive = true then
    match s.memory.load .acquire (.reader r) (.seqn b) t with
    | none => none
    | some (seqn, memory) =>
      if seqn = x.reader.next then
        some ({ s with toObjectCore := s.takeGuard r, memory := memory },
          [.shows (.queue (.read r (memory.cells b)))])
      else
        some ({ s with memory := memory }, [.shows (.queue (.empty r))])
  else
    none

/-- `get_event` of a guard.  A guard that was moved from is not used any more. -/
def look (s : ObjectMemoryState T R α) (r : Fin R) (j : ℕ) :
    Option (ObjectMemoryState T R α × List (Event ℕ (GuardObs R α))) :=
  match (s.readers r).guards[j]? with
  | some ⟨bucket, owner, number, .alive⟩ =>
    if owner ≠ dummyReaderId T then
      some ({ s with memory := s.memory.readCell (.reader r) bucket },
        raceIf (s.memory.ReadRaces (.reader r) bucket) bucket ++
          [.shows (.event r number (s.memory.cells bucket))])
    else
      none
  | _ => none

/-- The move constructor of a guard. -/
def moveGuard (s : ObjectMemoryState T R α) (r : Fin R) (j : ℕ) :
    Option (ObjectMemoryState T R α × List (Event ℕ (GuardObs R α))) :=
  (s.toObjectCore.moveGuard (dummyReaderId T) r j).map fun core =>
    ({ s with toObjectCore := core }, [])

/-- The destructor of a guard, up to `m_counter.fetch_sub(1, std::memory_order_relaxed)`. -/
def destroyGuard (s : ObjectMemoryState T R α) (r : Fin R) (j t : ℕ) :
    Option (ObjectMemoryState T R α × List (Event ℕ (GuardObs R α))) :=
  let guards := (s.readers r).guards
  match guards[j]? with
  | some ⟨bucket, owner, number, .alive⟩ =>
    if owner ≠ dummyReaderId T then
      let releaseEtalon := constructedDataMark T + 1
      match s.memory.fetchModify .relaxed (.reader r) (.counter bucket) (· - 1) t with
      | none => none
      | some (before, memory) =>
        let guards := if before = releaseEtalon then
          guards.set j ⟨bucket, owner, number, .destroy⟩ else guards.eraseIdx j
        some ({ s with toObjectCore := s.setGuards r guards, memory := memory },
          [.shows (.queue (.dropped r number))])
    else
      some ({ s with toObjectCore := s.setGuards r (guards.eraseIdx j) }, [])
  | _ => none

/-- The rest of the destructor: the destruction of the event, then
`m_counter.store(EMPTY_DATA_MARK, std::memory_order_relaxed)`. -/
def resumeGuard (s : ObjectMemoryState T R α) (r : Fin R) (j t : ℕ) :
    Option (ObjectMemoryState T R α × List (Event ℕ (GuardObs R α))) :=
  let guards := (s.readers r).guards
  match guards[j]? with
  | some ⟨bucket, owner, number, .destroy⟩ =>
    let guards := guards.set j ⟨bucket, owner, number, .store⟩
    some ({ s with
        toObjectCore := s.setGuards r guards
        memory := s.memory.writeCell (.reader r) bucket none },
      raceIf (s.memory.WriteRaces (.reader r) bucket) bucket ++
        [.shows (.queue (.destroyed (some r) (s.memory.cells bucket)))])
  | some ⟨bucket, _, number, .store⟩ =>
    (s.memory.store .relaxed (.reader r) (.counter bucket) (emptyDataMark T) t).map fun memory =>
      ({ s with toObjectCore := s.setGuards r (guards.eraseIdx j), memory := memory },
        [.shows (.queue (.freed number))])
  | _ => none

end ObjectMemoryState

/-- The object queue over its memory; a move comes with the time of the store it reads or makes. -/
def objectMemoryMachine (T : SeqnumCounter) (R : ℕ) (α : Type*) :
    Machine (ObjectMemoryState T R α) (ObjectMove R α × ℕ) (Event ℕ (GuardObs R α)) where
  step s
    | (.tryWrite event, t) => s.tryWrite event t
    | (.writer, t) => s.resumeWriter t
    | (.tryRead r, t) => s.tryRead r t
    | (.look r j, _) => s.look r j
    | (.moveGuard r j, _) => s.moveGuard r j
    | (.destroyGuard r j, t) => s.destroyGuard r j t
    | (.guard r j, t) => s.resumeGuard r j t

/-! ## Who needs which bucket -/

/-- The reader `r` has yet to drop the event in the bucket `b`, or is about to be given one there. -/
def Wants (C : ℕ) (w : Writer T (Stored α)) (a : State (Fin R) α) (b : ℕ) (r : Fin R) : Prop :=
  (∃ k < a.written.length, k % C = b ∧ k ∉ a.dropped r) ∨
    ∃ e c, w.pc = .publish e c ∧ b = w.impl.nextBucket

/-- The reader `r` has a guard for an event in the bucket `b`. -/
def HoldsIn (C : ℕ) (a : State (Fin R) α) (b : ℕ) (r : Fin R) : Prop :=
  ∃ k, a.Held r k ∧ k % C = b

/-- The reader that was the last to drop an event has seen all stores of its counter. -/
def Closing (C : ℕ) (memory : RingMemory T R (Stored α)) (a : State (Fin R) α) : Prop :=
  ∀ k < a.written.length, a.Released k → k ∉ a.freed → ∀ r, a.lastDrop k = some r →
    memory.UpToDate (.reader r) (.counter (k % C))

section Window

variable {C : ℕ} {phase : Fin R → ℕ → Option GuardPc} {sc : ObjectState T R α}
  {a : State (Fin R) α} {r : Fin R} {k k' : ℕ}

/-- Two events that are not given back are in different buckets. -/
theorem OpenRel.eq_of_mod (h : OpenRel C phase sc a) (hk : k < a.written.length)
    (hk' : k' < a.written.length) (hf : k ∉ a.freed) (hf' : k' ∉ a.freed)
    (hmod : k % C = k' % C) : k = k' := by
  obtain ⟨h1, h2, h3⟩ := h.window hk hf
  obtain ⟨h1', h2', h3'⟩ := h.window hk' hf'
  have := WrappingCounter.mod_injOn_window h1 h2 h1' h2' (h3.trans (hmod.trans h3'.symm))
  omega

/-- The writer is at work in a bucket whose event is given back. -/
theorem OpenRel.nextBucket_ne (hR : R + 1 < 2 ^ T.digits) (h : OpenRel C phase sc a)
    (hpc : sc.writer.pc ≠ .idle) (hk : k < a.written.length) (hf : k ∉ a.freed) :
    sc.writer.impl.nextBucket ≠ k % C := by
  obtain ⟨h1, h2, h3⟩ := h.window hk hf
  rw [h.ring.index.nextBucket, ← h3]
  intro heq
  have hW := WrappingCounter.mod_injOn_window le_rfl (by omega) h1 h2 heq
  exact hf (h.freed_of_writing hR hpc hW.symm)

/-- While the writer is at work it is less than a round ahead of every reader. -/
theorem OpenRel.length_lt (hR : R + 1 < 2 ^ T.digits) (h : OpenRel C phase sc a)
    (hpc : sc.writer.pc ≠ .idle) (r : Fin R) : a.written.length < a.cursor r + C := by
  have hfreed := h.core.coherent.cursor_not_freed r
  refine lt_of_le_of_ne (h.core.coherent.length_le hfreed) fun heq => ?_
  exact hfreed (h.freed_of_writing hR hpc heq.symm)

/-- Nobody awaits the number that a new event replaces. -/
theorem OpenRel.ne_seqn (hC : IsCapacity T C) (hR : R + 1 < 2 ^ T.digits)
    (h : OpenRel C phase sc a) (hpc : sc.writer.pc ≠ .idle) {v : T.Val}
    (hv : AwaitedIn T C (a.cursor r) sc.writer.impl.nextBucket v) :
    v ≠ (sc.ring sc.writer.impl.nextBucket).seqn := by
  have hlt := h.length_lt hR hpc r
  have hle := h.core.coherent.cursor_le r
  have hpos := hC.pos
  obtain ⟨k, hk, hk', hmod, rfl⟩ := hv
  rw [h.ring.index.nextBucket] at hmod ⊢
  obtain rfl : k = a.written.length :=
    WrappingCounter.mod_injOn_window hk hk' hle (by omega) hmod
  rcases le_or_gt C a.written.length with hC' | hC'
  · rw [h.ring.stale _ le_rfl (by omega) hC']
    have := seqnOf_add_capacity_ne hC (a.written.length - C)
    rwa [Nat.sub_add_cancel hC'] at this
  · rw [h.ring.unused _ le_rfl hC']
    exact seqnOf_ne_dummy _

/-- An event that a reader has yet to drop is not given back. -/
theorem OpenRel.not_freed (h : OpenRel C phase sc a) (hk : k ∉ a.dropped r) : k ∉ a.freed :=
  fun hf => hk (h.core.coherent.released_of_freed k hf r)

/-- Nobody needs the bucket of an event that all readers have dropped. -/
theorem OpenRel.not_wants (hR : R + 1 < 2 ^ T.digits) (h : OpenRel C phase sc a)
    (hk : k < a.written.length) (hf : k ∉ a.freed) (hrel : a.Released k) :
    ¬ Wants C sc.writer a (k % C) r := by
  rintro (⟨k', hk', hmod, hdrop⟩ | ⟨e, c, hpc, hb⟩)
  · obtain rfl := h.eq_of_mod hk' hk (h.not_freed hdrop) hf hmod
    exact hdrop (hrel r)
  · exact h.nextBucket_ne hR (by rw [hpc]; simp) hk hf hb.symm

theorem OpenRel.not_holdsIn (h : OpenRel C phase sc a) (hk : k < a.written.length)
    (hf : k ∉ a.freed) (hrel : a.Released k) : ¬ HoldsIn C a (k % C) r := by
  rintro ⟨k', hheld, hmod⟩
  have hk' := hheld.1.trans_le (h.core.coherent.cursor_le r)
  obtain rfl := h.eq_of_mod hk' hk (h.not_freed hheld.2) hf hmod
  exact hheld.2 (hrel r)

/-- A reader that takes an event gets a guard for it. -/
theorem holdsIn_read (hdrop : a.cursor r ∉ a.dropped r) (x : Option (Stored α)) (b : ℕ)
    (r' : Fin R) : HoldsIn C ((spec (Fin R) α C).next a (.read r x)) b r' ↔
      HoldsIn C a b r' ∨ (b = a.cursor r % C ∧ r' = r) := by
  simp only [HoldsIn, State.Held, spec, State.next]
  rcases eq_or_ne r' r with rfl | hne
  · simp only [Function.update_self, and_true]
    constructor
    · rintro ⟨k, ⟨hlt, hk⟩, rfl⟩
      rcases Nat.lt_succ_iff_lt_or_eq.1 hlt with hlt | rfl
      · exact .inl ⟨k, ⟨hlt, hk⟩, rfl⟩
      · exact .inr rfl
    · rintro (⟨k, ⟨hlt, hk⟩, rfl⟩ | rfl)
      · exact ⟨k, ⟨hlt.trans (Nat.lt_succ_self _), hk⟩, rfl⟩
      · exact ⟨_, ⟨Nat.lt_succ_self _, hdrop⟩, rfl⟩
  · simp [hne]

/-- A reader that drops an event needs its bucket no more. -/
theorem OpenRel.wants_dropped (hR : R + 1 < 2 ^ T.digits) (h : OpenRel C phase sc a)
    (hheld : a.Held r k) (b : ℕ) (r' : Fin R) :
    Wants C sc.writer ((spec (Fin R) α C).next a (.dropped r k)) b r' ↔
      Wants C sc.writer a b r' ∧ ¬ (b = k % C ∧ r' = r) := by
  have hk := hheld.1.trans_le (h.core.coherent.cursor_le r)
  have hf := h.not_freed hheld.2
  simp only [Wants, mem_dropped_next, not_or]
  constructor
  · rintro (⟨k', hk', rfl, hne, hdrop⟩ | ⟨e, c, hpc, rfl⟩)
    · refine ⟨.inl ⟨k', hk', rfl, hdrop⟩, fun heq => ?_⟩
      obtain ⟨hmod, rfl⟩ := heq
      exact hne ⟨rfl, h.eq_of_mod hk' hk (h.not_freed hdrop) hf hmod⟩
    · refine ⟨.inr ⟨e, c, hpc, rfl⟩, fun heq => ?_⟩
      exact h.nextBucket_ne hR (by rw [hpc]; simp) hk hf heq.1
  · rintro ⟨⟨k', hk', rfl, hdrop⟩ | hpub, hne⟩
    · refine .inl ⟨k', hk', rfl, fun heq => hne ?_, hdrop⟩
      obtain ⟨rfl, rfl⟩ := heq
      exact ⟨rfl, rfl⟩
    · exact .inr hpub

theorem OpenRel.holdsIn_dropped (h : OpenRel C phase sc a) (hheld : a.Held r k) (b : ℕ)
    (r' : Fin R) : HoldsIn C ((spec (Fin R) α C).next a (.dropped r k)) b r' ↔
      HoldsIn C a b r' ∧ ¬ (b = k % C ∧ r' = r) := by
  have hk := hheld.1.trans_le (h.core.coherent.cursor_le r)
  have hf := h.not_freed hheld.2
  simp only [HoldsIn, held_dropped_next]
  constructor
  · rintro ⟨k', ⟨hheld', hne⟩, rfl⟩
    refine ⟨⟨k', hheld', rfl⟩, fun heq => ?_⟩
    obtain ⟨hmod, rfl⟩ := heq
    have hk' := hheld'.1.trans_le (h.core.coherent.cursor_le r')
    exact hne ⟨rfl, h.eq_of_mod hk' hk (h.not_freed hheld'.2) hf hmod⟩
  · rintro ⟨⟨k', hheld', rfl⟩, hne⟩
    refine ⟨k', ⟨hheld', fun heq => hne ?_⟩, rfl⟩
    obtain ⟨rfl, rfl⟩ := heq
    exact ⟨rfl, rfl⟩

variable {memory memory' : RingMemory T R (Stored α)}

/-- Only the counters of events that all have dropped matter. -/
theorem Closing.keeps (h : Closing C memory a) (hviews : ∀ i, memory.views i ≤ memory'.views i)
    (hstores : ∀ k < a.written.length, a.Released k → k ∉ a.freed →
      memory'.stores (.counter (k % C)) = memory.stores (.counter (k % C))) :
    Closing C memory' a := fun _ hk hrel hf r hr =>
  (h _ hk hrel hf r hr).congr (hstores _ hk hrel hf) (hviews _)

theorem Closing.frame (h : Closing C memory a) (hviews : ∀ i, memory.views i ≤ memory'.views i)
    (hstores : memory'.stores = memory.stores) : Closing C memory' a :=
  h.keeps hviews fun _ _ _ _ => congrFun hstores _

end Window

/-! ## The simulation -/

/-- The queue next to the one in which every load returns the latest store. -/
structure ObjectMemoryRel (C : ℕ) (s : ObjectMemoryState T R α) (sc : ObjectState T R α)
    (a : State (Fin R) α) : Prop where
  rel : ∃ phase, OpenRel C phase sc a
  core : s.toObjectCore = sc.toObjectCore
  writer : s.writer = sc.writer
  memory : ∃ round, RingMemoryOk Counted C a.cursor round sc.ring s.memory ∧
    RoundsOk round sc.writer.bucket (Wants C sc.writer a) (HoldsIn C a)
  closing : Closing C s.memory a

/-- Every step is one of the queue with the latest stores, or one that changes nothing there. -/
def ObjectFollows (C : ℕ) (sc : ObjectState T R α) (a : State (Fin R) α)
    (s' : ObjectMemoryState T R α) (os : List (Event ℕ (GuardObs R α))) : Prop :=
  (changes (shown os) = [] ∧ ObjectMemoryRel C s' sc a) ∨
    ∃ j sc' os', (objectMachine T R α).step sc j = some (sc', os') ∧
      completed os' = changes (shown os) ∧
      ObjectMemoryRel C s' sc' ((spec (Fin R) α C).after a os')

variable {C t j : ℕ} {s s' : ObjectMemoryState T R α} {sc : ObjectState T R α}
  {a : State (Fin R) α} {os : List (Event ℕ (GuardObs R α))} {e : α} {r : Fin R}

theorem ObjectMemoryRel.tryWrite (hC : IsCapacity T C) (hR : R + 1 < 2 ^ T.digits)
    (h : ObjectMemoryRel C s sc a) (hs : s.tryWrite e t = some (s', os)) :
    ObjectFollows C sc a s' os := by
  obtain ⟨⟨phase, hrel⟩, hcore, hw, ⟨round, hok, ho⟩, hclosing⟩ := h
  unfold ObjectMemoryState.tryWrite Writer.tryWriteAt at hs
  rw [hw] at hs
  split_ifs at hs with hp
  have hp' : sc.producer = true := by rw [← hcore]; exact hp
  have hn : s.written = sc.written := by rw [hcore]
  cases hpc : sc.writer.pc with
  | construct x c => simp [hpc] at hs
  | storeCounter x c => simp [hpc] at hs
  | publish x c => simp [hpc] at hs
  | idle =>
    have hbucket : sc.writer.bucket = none := by rw [Writer.bucket, hpc]
    cases hl : s.memory.load .acquire .writer (.counter sc.writer.impl.nextBucket) t with
    | none => simp [hpc, hl] at hs
    | some x =>
      obtain ⟨v, memory⟩ := x
      have hclosing' := hclosing.frame (Memory.load_keeps hl).views (Memory.load_stores hl)
      by_cases hv : v = emptyDataMark T
      · subst hv
        simp only [hpc, hl, ↓reduceIte, Option.some.injEq, Prod.mk.injEq] at hs
        obtain ⟨rfl, rfl⟩ := hs
        obtain ⟨hcounter, hok'⟩ := hok.counted_take hl
        have hstep' : sc.tryWrite e = some ({ sc with writer := { sc.writer with
            pc := .construct ⟨s.written, e⟩
              (BitVec.ofNat T.digits sc.writer.impl.readersCount + constructedDataMark T) } },
            [.offered e]) := by
          simp only [ObjectState.tryWrite, hp', Writer.tryWrite, hpc, hcounter, ↓reduceIte, hn]
          rfl
        obtain ⟨⟨-, hrel'⟩, -⟩ := hrel.tryWrite hC hR hstep'
        rw [hbucket] at ho
        have htake := ho.take sc.writer.impl.nextBucket
        refine .inr ⟨.tryWrite e, _, _, hstep', rfl, ⟨phase, hrel'⟩, hcore, rfl, ⟨_, hok', ?_⟩,
          hclosing'⟩
        refine ⟨htake.writing, fun b r => (htake.pending b r).trans ?_, htake.reading, htake.writer⟩
        simp [Wants, hpc, spec, State.next]
      · simp only [hpc, hl, if_neg hv, Option.some.injEq, Prod.mk.injEq] at hs
        obtain ⟨rfl, rfl⟩ := hs
        exact .inl ⟨rfl, ⟨phase, hrel⟩, hcore, rfl, ⟨round, hok.counted_load hl, ho⟩, hclosing'⟩

theorem ObjectMemoryRel.resumeWriter (hC : IsCapacity T C) (hR : R + 1 < 2 ^ T.digits)
    (hpos : 0 < R) (h : ObjectMemoryRel C s sc a) (hs : s.resumeWriter t = some (s', os)) :
    ObjectFollows C sc a s' os := by
  obtain ⟨⟨phase, hrel⟩, hcore, hw, ⟨round, hok, ho⟩, hclosing⟩ := h
  unfold ObjectMemoryState.resumeWriter Writer.resumeAt at hs
  rw [hw] at hs
  cases hpc : sc.writer.pc with
  | idle => simp [hpc] at hs
  | construct x c =>
    have hbucket : sc.writer.bucket = some sc.writer.impl.nextBucket := by rw [Writer.bucket, hpc]
    simp only [hpc, Option.some.injEq, Prod.mk.injEq] at hs
    obtain ⟨rfl, rfl⟩ := hs
    have hstep' : sc.resumeWriter = some ({ sc with
        ring := setStorage sc.ring sc.writer.impl.nextBucket (some x)
        writer := { sc.writer with pc := .storeCounter x c } }, []) := by
      simp only [ObjectState.resumeWriter, Writer.resume, hpc]
      rfl
    rw [hbucket] at ho
    refine .inr ⟨.writer, _, _, hstep', ?_, ⟨phase, (hrel.resumeWriter hC hR hpos hstep').2⟩, ?_,
      rfl, ⟨round, hok.counted_writeCell (some x), ?_⟩, hclosing.frame Memory.le_writeCell rfl⟩
    · rw [raceIf_bind, shown_raceIf]
      rfl
    · rw [shown_raceIf, hcore]
      rfl
    · refine ⟨ho.writing, fun b r => (ho.pending b r).trans ?_, ho.reading, ho.writer⟩
      simp [Wants, hpc]
  | storeCounter x c =>
    have hbucket : sc.writer.bucket = some sc.writer.impl.nextBucket := by rw [Writer.bucket, hpc]
    have hne : sc.writer.pc ≠ .idle := by rw [hpc]; simp
    have hwriting := (ho.writing _).2 hbucket
    simp only [hpc] at hs
    cases hst : s.memory.store .relaxed .writer (.counter sc.writer.impl.nextBucket) c t with
    | none => simp [hst] at hs
    | some memory =>
      simp only [hst, Option.map_some, Option.some.injEq, Prod.mk.injEq] at hs
      obtain ⟨rfl, rfl⟩ := hs
      have hstep' : sc.resumeWriter = some ({ sc with
          ring := setCounter sc.ring sc.writer.impl.nextBucket c
          writer := { sc.writer with pc := .publish x c } }, []) := by
        simp only [ObjectState.resumeWriter, Writer.resume, hpc]
        rfl
      have hnone : ∀ i, ¬ (round sc.writer.impl.nextBucket).reading i := by
        intro i hi
        cases i with
        | writer => exact (ho.writer _).2 hi
        | reader r =>
          obtain ⟨k, hheld, hmod⟩ := (ho.reading _ r).1 hi
          exact hrel.nextBucket_ne hR hne (hheld.1.trans_le (hrel.core.coherent.cursor_le r))
            (hrel.not_freed hheld.2) hmod.symm
      refine .inr ⟨.writer, _, _, hstep', rfl, ⟨phase, (hrel.resumeWriter hC hR hpos hstep').2⟩,
        hcore, rfl, ⟨_, hok.counted_storeCounter hwriting hnone hst, ?_⟩,
        hclosing.keeps (Memory.store_keeps hst).views fun k hk _ hf => ?_⟩
      · rw [hbucket] at ho
        refine ho.arm c t fun b r => ?_
        simp [Wants, hpc]
      · refine Memory.store_stores_of_ne hst ?_
        simpa using (hrel.nextBucket_ne hR hne hk hf).symm
  | publish x c =>
    have hbucket : sc.writer.bucket = some sc.writer.impl.nextBucket := by rw [Writer.bucket, hpc]
    have hne : sc.writer.pc ≠ .idle := by rw [hpc]; simp
    have hwriting := (ho.writing _).2 hbucket
    simp only [hpc] at hs
    cases hst : s.memory.store .release .writer (.seqn sc.writer.impl.nextBucket)
        sc.writer.impl.seqn t with
    | none => simp [hst] at hs
    | some memory =>
      simp only [hst, Option.map_some, Option.some.injEq, Prod.mk.injEq] at hs
      obtain ⟨rfl, rfl⟩ := hs
      have hstep' : sc.resumeWriter = some ({ sc with
          ring := setSeqn sc.ring sc.writer.impl.nextBucket sc.writer.impl.seqn
          writer := ⟨sc.writer.impl.advance, .idle⟩
          written := sc.written + 1 }, [.wrote x.value]) := by
        simp only [ObjectState.resumeWriter, Writer.resume, hpc]
        rfl
      have hlast : ∀ r, a.written.length ∉ a.dropped r := fun r hd =>
        absurd ((hrel.core.coherent.lt_of_dropped r _ hd).trans_le
          (hrel.core.coherent.cursor_le r)) (lt_irrefl _)
      refine .inr ⟨.writer, _, _, hstep', rfl, ⟨phase, (hrel.resumeWriter hC hR hpos hstep').2⟩,
        ?_, rfl, ⟨_, hok.counted_publish hwriting hst fun r v hv => hrel.ne_seqn hC hR hne hv, ?_⟩,
        ?_⟩
      · rw [hcore]
        rfl
      · rw [hbucket] at ho
        refine ho.publish _ fun b r => ?_
        -- the new event is the one that everybody was about to be given
        simp only [Wants, hpc, spec, State.next, Spec.after_cons, Spec.after_nil,
          List.length_append, List.length_singleton, WriterPc.publish.injEq,
          reduceCtorEq, false_and, exists_false, or_false, hrel.ring.index.nextBucket]
        constructor
        · rintro ⟨k, hk, rfl, hdrop⟩
          rcases Nat.lt_succ_iff_lt_or_eq.1 hk with hlt | rfl
          · exact .inl ⟨k, hlt, rfl, hdrop⟩
          · exact .inr ⟨x, c, ⟨rfl, rfl⟩, rfl⟩
        · rintro (⟨k, hk, rfl, hdrop⟩ | ⟨_, _, -, rfl⟩)
          · exact ⟨k, by omega, rfl, hdrop⟩
          · exact ⟨_, Nat.lt_succ_self _, rfl, hlast r⟩
      · have hframe := hclosing.keeps (Memory.store_keeps hst).views fun k _ _ _ =>
          Memory.store_stores_of_ne hst (by simp)
        intro k hk hrel' hf r hr
        simp only [spec, State.next, Spec.after_cons, Spec.after_nil, List.length_append,
          List.length_singleton] at hk
        refine hframe k (lt_of_le_of_ne (Nat.le_of_lt_succ hk) ?_) hrel' hf r hr
        rintro rfl
        exact hlast ⟨0, hpos⟩ (hrel' ⟨0, hpos⟩)

theorem ObjectMemoryRel.tryRead (hC : IsCapacity T C) (hR : R + 1 < 2 ^ T.digits)
    (h : ObjectMemoryRel C s sc a) (hs : s.tryRead r t = some (s', os)) :
    ObjectFollows C sc a s' os := by
  obtain ⟨⟨phase, hrel⟩, hcore, hw, ⟨round, hok, ho⟩, hclosing⟩ := h
  have hidx := hrel.core.reader r
  unfold ObjectMemoryState.tryRead at hs
  rw [hcore] at hs
  simp only [hidx.nextBucket, hidx.next_eq] at hs
  split_ifs at hs with halive
  split at hs
  · cases hs
  · rename_i v memory hl
    have hclosing' := hclosing.frame (Memory.load_keeps hl).views (Memory.load_stores hl)
    split_ifs at hs with hv
    · simp only [Option.some.injEq, Prod.mk.injEq] at hs
      obtain ⟨rfl, rfl⟩ := hs
      subst hv
      have hdrop := hrel.core.coherent.cursor_not_dropped r
      have hfreed := hrel.core.coherent.cursor_not_freed r
      have hseqn := hok.counted_seqn_eq hC.pos hl
      have hlt : a.cursor r < a.written.length :=
        (hrel.ring.load_iff hC (hrel.core.coherent.cursor_le r)
          (hrel.core.coherent.length_le hfreed)).1 hseqn
      have hwriting : ¬ (round (a.cursor r % C)).writing := by
        rw [ho.writing, Writer.bucket]
        split
        · simp
        · rename_i hne
          rw [Option.some.injEq]
          exact hrel.nextBucket_ne hR hne hlt hfreed
      have hpending : (round (a.cursor r % C)).pending (.reader r) :=
        (ho.pending _ r).2 (.inl ⟨_, hlt, rfl, hdrop⟩)
      have hok' := hok.counted_enter hC.pos hl hwriting hpending
      have hcells := hok'.cells (a.cursor r % C)
      have hstep' : sc.tryRead r = some ({ sc with toObjectCore := sc.takeGuard r },
          [.read r (sc.ring (a.cursor r % C)).storage]) := by
        simp only [ObjectState.tryRead, hidx.nextBucket, hidx.next_eq, halive, hseqn, ↓reduceIte]
      obtain ⟨⟨-, phase', hrel'⟩, -⟩ := hrel.tryRead hC hstep'
      refine .inr ⟨.tryRead r, _, _, hstep', ?_, ⟨phase', hrel'⟩, rfl, hw, ⟨_, hok',
        ho.enter (holdsIn_read hdrop _)⟩, hclosing'⟩
      rw [hcells]
      rfl
    · simp only [Option.some.injEq, Prod.mk.injEq] at hs
      obtain ⟨rfl, rfl⟩ := hs
      exact .inl ⟨rfl, ⟨phase, hrel⟩, rfl, hw, ⟨round, hok.counted_load hl, ho⟩, hclosing'⟩

theorem ObjectMemoryRel.look (h : ObjectMemoryRel C s sc a) (hs : s.look r j = some (s', os)) :
    ObjectFollows C sc a s' os := by
  obtain ⟨hrel, hcore, hw, ⟨round, hok, ho⟩, hclosing⟩ := h
  unfold ObjectMemoryState.look at hs
  split at hs
  · split_ifs at hs
    simp only [Option.some.injEq, Prod.mk.injEq] at hs
    obtain ⟨rfl, rfl⟩ := hs
    refine .inl ⟨?_, hrel, hcore, hw, ⟨round, hok.counted_readCell, ho⟩,
      hclosing.frame Memory.le_readCell rfl⟩
    rw [shown_append, shown_raceIf]
    rfl
  · cases hs

theorem ObjectMemoryRel.moveGuard (h : ObjectMemoryRel C s sc a)
    (hs : s.moveGuard r j = some (s', os)) : ObjectFollows C sc a s' os := by
  obtain ⟨⟨phase, hrel⟩, hcore, hw, hmemory, hclosing⟩ := h
  unfold ObjectMemoryState.moveGuard at hs
  obtain ⟨core, hmove, heq⟩ := Option.map_eq_some_iff.1 hs
  simp only [Prod.mk.injEq] at heq
  obtain ⟨rfl, rfl⟩ := heq
  rw [hcore] at hmove
  have hstep' : sc.moveGuard r j = some ({ sc with toObjectCore := core }, []) := by
    rw [ObjectState.moveGuard, hmove]
    rfl
  exact .inr ⟨.moveGuard r j, _, _, hstep', rfl, ⟨phase, (hrel.moveGuard hstep').2⟩, rfl, hw,
    hmemory, hclosing⟩

/-- The `fetch_sub` of a guard finds the latest value, whatever its order is. -/
theorem ObjectMemoryRel.destroyGuard (hR : R + 1 < 2 ^ T.digits) (h : ObjectMemoryRel C s sc a)
    (hs : s.destroyGuard r j t = some (s', os)) : ObjectFollows C sc a s' os := by
  obtain ⟨⟨phase, hrel⟩, hcore, hw, ⟨round, hok, ho⟩, hclosing⟩ := h
  simp only [ObjectMemoryState.destroyGuard, hcore] at hs
  split at hs
  · rename_i bucket owner k hj
    split_ifs at hs with howner
    · split at hs
      · cases hs
      · rename_i v memory hst
        simp only [Option.some.injEq, Prod.mk.injEq] at hs
        obtain ⟨rfl, rfl⟩ := hs
        obtain ⟨hheld, hbucket⟩ := hrel.core.held_of_guard hj howner rfl
        simp only at hheld hbucket
        subst hbucket
        have hk := hheld.1.trans_le (hrel.core.coherent.cursor_le r)
        have hfreed := hrel.not_freed hheld.2
        have hwriting : ¬ (round (k % C)).writing := by
          rw [ho.writing, Writer.bucket]
          split
          · simp
          · rename_i hne
            rw [Option.some.injEq]
            exact hrel.nextBucket_ne hR hne hk hfreed
        have hcounter : (sc.ring (k % C)).counter ≠ emptyDataMark T := by
          rw [hrel.counter_eq hR hk hfreed]
          exact countOf_ne_empty hR (occupied_iff.2 ⟨k, rfl, hfreed⟩)
        obtain ⟨rfl, hupToDate, hok'⟩ :=
          hok.counted_leave ((ho.reading _ r).2 ⟨k, hheld, rfl⟩) hwriting hcounter hst
        have hstep' : sc.destroyGuard r j = some ({ sc with
            toObjectCore := sc.setGuards r
              (if (sc.ring (k % C)).counter = constructedDataMark T + 1 then
                (sc.readers r).guards.set j ⟨k % C, owner, k, .destroy⟩
              else (sc.readers r).guards.eraseIdx j)
            ring := setCounter sc.ring (k % C) ((sc.ring (k % C)).counter - 1) },
            [.dropped r k]) := by
          simp only [ObjectState.destroyGuard, hj, if_pos howner]
        obtain ⟨-, phase', hrel'⟩ := hrel.destroyGuard hR hstep'
        have hframe := hclosing.keeps (Memory.fetchModify_keeps hst).views fun k' hk' hall hf => by
          refine Memory.fetchModify_stores_of_ne hst fun heq => hheld.2 ?_
          rw [← hrel.eq_of_mod hk' hk hf hfreed (by simpa using heq)]
          exact hall r
        have hleave := ho.leave ((sc.ring (k % C)).counter - 1) (hrel.wants_dropped hR hheld)
          (hrel.holdsIn_dropped hheld)
        refine .inr ⟨.destroyGuard r j, _, _, hstep', rfl, ⟨phase', hrel'⟩, rfl, hw,
          ⟨_, hok', hleave⟩, ?_⟩
        intro k' hk' hall hf r' hr'
        rcases eq_or_ne k' k with rfl | hne
        · simp only [spec, State.next, Spec.after_cons, Spec.after_nil, Function.update_self,
            Option.some.injEq] at hr'
          rw [← hr']
          exact hupToDate
        · exact hframe k' hk' ((released_dropped_next_of_ne C a r hne).1 hall) hf r'
            ((lastDrop_dropped_next_of_ne C a r hne).symm.trans hr')
    · simp only [Option.some.injEq, Prod.mk.injEq] at hs
      obtain ⟨rfl, rfl⟩ := hs
      have hstep' : sc.destroyGuard r j = some ({ sc with
          toObjectCore := sc.setGuards r ((sc.readers r).guards.eraseIdx j) }, []) := by
        simp only [ObjectState.destroyGuard, hj, if_neg howner]
      obtain ⟨-, phase', hrel'⟩ := hrel.destroyGuard hR hstep'
      exact .inr ⟨.destroyGuard r j, _, _, hstep', rfl, ⟨phase', hrel'⟩, rfl, hw,
        ⟨round, hok, ho⟩, hclosing⟩
  · cases hs

theorem ObjectMemoryRel.resumeGuard (hR : R + 1 < 2 ^ T.digits) (h : ObjectMemoryRel C s sc a)
    (hs : s.resumeGuard r j t = some (s', os)) : ObjectFollows C sc a s' os := by
  obtain ⟨⟨phase, hrel⟩, hcore, hw, ⟨round, hok, ho⟩, hclosing⟩ := h
  have howner_of : ∀ {g}, (sc.readers r).guards[j]? = some g → g.pc ≠ .alive →
      g.owner ≠ dummyReaderId T := fun hj hpc heq =>
    hpc ((hrel.core.guards r).moved _ (List.mem_of_getElem? hj) heq)
  simp only [ObjectMemoryState.resumeGuard, hcore] at hs
  split at hs
  · rename_i bucket owner k hj
    simp only [Option.some.injEq, Prod.mk.injEq] at hs
    obtain ⟨rfl, rfl⟩ := hs
    have hstep' : sc.resumeGuard r j = some ({ sc with
        toObjectCore := sc.setGuards r ((sc.readers r).guards.set j ⟨bucket, owner, k, .store⟩)
        ring := setStorage sc.ring bucket none },
        [.destroyed (some r) (sc.ring bucket).storage]) := by
      simp only [ObjectState.resumeGuard, hj]
    obtain ⟨-, phase', hrel'⟩ := hrel.resumeGuard hR hstep'
    refine .inr ⟨.guard r j, _, _, hstep', ?_, ⟨phase', hrel'⟩, rfl, hw,
      ⟨round, hok.counted_writeCell none, ho⟩, hclosing.frame Memory.le_writeCell rfl⟩
    rw [shown_append, shown_raceIf, hok.cells bucket]
    rfl
  · rename_i bucket owner k hj
    simp only [Option.map_eq_some_iff, Prod.mk.injEq] at hs
    obtain ⟨memory, hst, rfl, rfl⟩ := hs
    obtain ⟨hphase, hbucket⟩ := (hrel.core.guards r).live hj (howner_of hj (by simp))
    simp only at hphase hbucket
    subst hbucket
    obtain ⟨hdead, hfreed, hall, hlast⟩ := hrel.core.store r k hphase
    have hk := hrel.core.coherent.lt_of_dead k hdead
    have hwriting : ¬ (round (k % C)).writing := by
      rw [ho.writing, Writer.bucket]
      split
      · simp
      · rename_i hne
        rw [Option.some.injEq]
        exact hrel.nextBucket_ne hR hne hk hfreed
    have hpending : ∀ i, ¬ (round (k % C)).pending i := fun i hi => by
      cases i with
      | writer => exact (ho.writer _).1 hi
      | reader r' => exact hrel.not_wants hR hk hfreed hall ((ho.pending _ r').1 hi)
    have hreading : ∀ i, ¬ (round (k % C)).reading i := fun i hi => by
      cases i with
      | writer => exact (ho.writer _).2 hi
      | reader r' => exact hrel.not_holdsIn hk hfreed hall ((ho.reading _ r').1 hi)
    have hcounter : (sc.ring (k % C)).counter ≠ emptyDataMark T := by
      rw [hrel.counter_eq hR hk hfreed]
      exact countOf_ne_empty hR (occupied_iff.2 ⟨k, rfl, hfreed⟩)
    have hstep' : sc.resumeGuard r j = some ({ sc with
        toObjectCore := sc.setGuards r ((sc.readers r).guards.eraseIdx j)
        ring := setCounter sc.ring (k % C) (emptyDataMark T) }, [.freed k]) := by
      simp only [ObjectState.resumeGuard, hj]
    obtain ⟨-, phase', hrel'⟩ := hrel.resumeGuard hR hstep'
    have hok' := hok.counted_clear hwriting hpending hreading hcounter
      (hclosing k hk hall hfreed r hlast) hst
    refine .inr ⟨.guard r j, _, _, hstep', rfl, ⟨phase', hrel'⟩, rfl, hw,
      ⟨_, hok', ho.clear _ _⟩, fun k' hk' hrel' hf r' hr' => ?_⟩
    simp only [spec, State.next, Spec.after_cons, Spec.after_nil, Finset.mem_insert, not_or] at hf
    refine (hclosing k' hk' hrel' hf.2 r' hr').congr (Memory.store_stores_of_ne hst ?_)
      ((Memory.store_keeps hst).views _)
    simpa using fun heq => hf.1 (hrel.eq_of_mod hk' hk hf.2 hfreed heq)
  · cases hs

/-- Every step follows the queue with the latest stores. -/
theorem ObjectMemoryRel.step (hC : IsCapacity T C) (hR : R + 1 < 2 ^ T.digits) (hpos : 0 < R)
    (h : ObjectMemoryRel C s sc a) {i : ObjectMove R α × ℕ}
    (hs : (objectMemoryMachine T R α).step s i = some (s', os)) : ObjectFollows C sc a s' os := by
  obtain ⟨i, t⟩ := i
  cases i with
  | tryWrite e => exact h.tryWrite hC hR hs
  | writer => exact h.resumeWriter hC hR hpos hs
  | tryRead r => exact h.tryRead hC hR hs
  | look r j => exact h.look hs
  | moveGuard r j => exact h.moveGuard hs
  | destroyGuard r j => exact h.destroyGuard hR hs
  | guard r j => exact h.resumeGuard hR hs

theorem objectMemoryRel_start (hC : IsCapacity T C) (hR : R ≤ 255) (contentAllocator : Bool) :
    ObjectMemoryRel C
      (.start α ⟨producerAfter T C R, consumersFrom T C 0 R⟩ contentAllocator)
      (.start α ⟨producerAfter T C R, consumersFrom T C 0 R⟩ contentAllocator)
      GuardedBroadcast.start where
  rel := by
    rcases objectRel_start (α := α) hC hR contentAllocator with hrel | hrel
    · exact hrel
    · rcases hrel.gone with hgone | hgone <;> cases hgone
  core := rfl
  writer := rfl
  memory := by
    refine ⟨_, .counted_new C _, ?_⟩
    constructor
    · simp [Round.initial, Writer.bucket, ObjectState.start]
    · simp [Round.initial, Wants, ObjectState.start, GuardedBroadcast.start]
    · simp [Round.initial, HoldsIn, State.Held, GuardedBroadcast.start]
    · simp [Round.initial]
  closing k hk := absurd hk (Nat.not_lt_zero k)

/-- Every run follows one of the queue with the latest stores. -/
theorem objectMemory_follows (hC : IsCapacity T C) (hR : R ≤ 255)
    (hlen : (consumersFrom T C 0 R).length + 1 < 2 ^ T.digits)
    (hpos : 0 < (consumersFrom T C 0 R).length) {contentAllocator : Bool}
    {s : ObjectMemoryState T (consumersFrom T C 0 R).length α}
    {log : List (Event ℕ (GuardObs (consumersFrom T C 0 R).length α))}
    (h : (objectMemoryMachine T _ α).Reaches
      (.start α ⟨producerAfter T C R, consumersFrom T C 0 R⟩ contentAllocator) s log) :
    ∃ sc log', (objectMachine T _ α).Reaches
        (.start α ⟨producerAfter T C R, consumersFrom T C 0 R⟩ contentAllocator) sc log' ∧
      completed log' = changes (shown log) ∧
      ObjectMemoryRel C s sc ((spec _ α C).after GuardedBroadcast.start log') := by
  refine h.followSpec _ (fun log => changes (shown log)) completed rfl
    (fun l l' => by rw [shown_append, changes_append]) completed_append ?_
    (objectMemoryRel_start hC hR contentAllocator)
  intro s sc a i s' os hrel hs
  exact hrel.step hC hlen hpos hs

end Ihft.Channel.One2Each
