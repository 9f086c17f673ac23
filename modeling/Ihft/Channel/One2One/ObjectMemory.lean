import Ihft.Lib.Endings
import Ihft.Channel.One2One.Object
import Ihft.Channel.One2One.RingMemory

/-!
# The one-to-one object queue under release and acquire

The queue of `Object` with the memory orders of the source.  The reader's thread owns the bucket of
an event as long as a guard refers to it, so looking at the event through a guard and destroying it
never race with the writer, and what is looked at is the event that was written
(`objectMemory_refines`).  The producer and the reader stay alive here: what follows is the queue
before its teardown.
-/

namespace Ihft.Channel.One2One

open Observe GuardedBroadcast ReleaseAcquire

variable {T : SeqnumCounter} {α : Type*}

/-- A guard that was not moved from refers to the bucket `b`. -/
def Holds (guards : List (Guard T)) (b : ℕ) : Prop :=
  ∃ g ∈ guards, g.owner ≠ dummyReaderId T ∧ g.bucket = b

section Holds

variable {guards rest : List (Guard T)} {g : Guard T} {b j : ℕ}

theorem holds_perm (h : guards.Perm rest) : Holds guards b ↔ Holds rest b := by
  simp only [Holds, h.mem_iff]

theorem holds_cons_moved (hg : g.owner = dummyReaderId T) :
    Holds (g :: rest) b ↔ Holds rest b := by
  simp [Holds, hg]

theorem holds_cons_live (hg : g.owner ≠ dummyReaderId T) :
    Holds (g :: rest) b ↔ g.bucket = b ∨ Holds rest b := by
  simp [Holds, hg]

theorem holds_push (hg : g.owner ≠ dummyReaderId T) :
    Holds (guards ++ [g]) b ↔ Holds guards b ∨ b = g.bucket := by
  rw [holds_perm (List.perm_append_singleton g guards), holds_cons_live hg, or_comm, eq_comm]

theorem holds_move (hj : guards[j]? = some g) :
    Holds (moveGuardAt (dummyReaderId T) guards j g) b ↔ Holds guards b := by
  have hmoved : ({ g with owner := dummyReaderId T } : Guard T).owner = dummyReaderId T := rfl
  have hself : (g :: guards.eraseIdx j).Perm guards := (perm_eraseIdx hj).symm
  unfold moveGuardAt
  rw [holds_perm ((List.perm_append_singleton g _).trans ((set_perm hj _).cons g)),
    holds_perm (List.Perm.swap _ g _), holds_cons_moved hmoved, holds_perm hself]

theorem holds_setPc (hj : guards[j]? = some g) (hg : g.owner ≠ dummyReaderId T) (p : GuardPc) :
    Holds (guards.set j { g with pc := p }) b ↔ Holds guards b := by
  rw [holds_perm (set_perm hj _), holds_perm (perm_eraseIdx hj), holds_cons_live hg,
    holds_cons_live (by exact hg)]

theorem holds_erase_moved (hj : guards[j]? = some g) (hg : g.owner = dummyReaderId T) :
    Holds (guards.eraseIdx j) b ↔ Holds guards b := by
  rw [holds_perm (perm_eraseIdx hj), holds_cons_moved hg]

end Holds

/-! ## The queue over its memory -/

/-- The memory of the ring, the producer, and the reader with its guards. -/
structure ObjectMemoryState (T : SeqnumCounter) (α : Type*) extends ObjectCore T 1 where
  memory : RingMemory T (Stored α)
  writer : Writer T (Stored α)

/-- The moves of the two threads.  `look j` is `get_event` of the guard at the place `j`, and
`guard j` goes on with its destructor. -/
inductive ObjectMove (α : Type*)
  | tryWrite (event : α)
  | writer
  | tryRead
  | look (j : ℕ)
  | moveGuard (j : ℕ)
  | destroyGuard (j : ℕ)
  | guard (j : ℕ)
  deriving DecidableEq, Repr

namespace ObjectMemoryState

/-- The channel handed out by `make`. -/
def start (α : Type*) (producer : QueueImpl T) (reader : StreamReader T)
    (contentAllocator : Bool) : ObjectMemoryState T α where
  toObjectCore := .start ⟨producer, [reader]⟩ contentAllocator
  memory := .new T (Stored α)
  writer := ⟨producer, .idle⟩

/-- `one2one_seqnum_stream_object_queue::try_write` up to its load. -/
def tryWrite (s : ObjectMemoryState T α) (event : α) (t : ℕ) :
    Option (ObjectMemoryState T α × List (Event ℕ (GuardObs 1 α))) :=
  if s.producer = true then
    match s.writer.tryWriteAt s.memory ⟨s.written, event⟩ t with
    | none => none
    | some (memory, writer, evs) =>
      some ({ s with memory := memory, writer := writer },
        evs.flatMap (Event.bind WriterEvent.guardObs))
  else
    none

/-- The rest of `try_write`. -/
def resumeWriter (s : ObjectMemoryState T α) (t : ℕ) :
    Option (ObjectMemoryState T α × List (Event ℕ (GuardObs 1 α))) :=
  match s.writer.resumeAt s.memory t with
  | none => none
  | some (memory, writer, evs) =>
    some ({ s with
        memory := memory, writer := writer, written := s.written + (shown evs).length },
      evs.flatMap (Event.bind WriterEvent.guardObs))

/-- `one2one_seqnum_stream_object_reader::try_read`.  The guard it makes refers to the event and
does not look at it. -/
def tryRead (s : ObjectMemoryState T α) (t : ℕ) :
    Option (ObjectMemoryState T α × List (Event ℕ (GuardObs 1 α))) :=
  let x := s.readers 0
  let b := x.reader.nextBucket
  if x.alive = true then
    match s.memory.load .acquire .reader b t with
    | none => none
    | some (seqn, memory) =>
      if seqn = x.reader.next then
        some ({ s with toObjectCore := s.takeGuard 0, memory := memory },
          [.shows (.queue (.read 0 (memory.cells b)))])
      else
        some ({ s with memory := memory }, [.shows (.queue (.empty 0))])
  else
    none

/-- `get_event` of a guard.  A guard that was moved from is not used any more. -/
def look (s : ObjectMemoryState T α) (j : ℕ) :
    Option (ObjectMemoryState T α × List (Event ℕ (GuardObs 1 α))) :=
  match (s.readers 0).guards[j]? with
  | some ⟨bucket, owner, number, .alive⟩ =>
    if owner ≠ dummyReaderId T then
      some ({ s with memory := s.memory.readCell .reader bucket },
        raceIf (s.memory.ReadRaces .reader bucket) bucket ++
          [.shows (.event 0 number (s.memory.cells bucket))])
    else
      none
  | _ => none

/-- The move constructor of a guard. -/
def moveGuard (s : ObjectMemoryState T α) (j : ℕ) :
    Option (ObjectMemoryState T α × List (Event ℕ (GuardObs 1 α))) :=
  (s.toObjectCore.moveGuard (dummyReaderId T) 0 j).map fun core =>
    ({ s with toObjectCore := core }, [])

/-- The destructor of a guard, up to the destruction of the event. -/
def destroyGuard (s : ObjectMemoryState T α) (j : ℕ) :
    Option (ObjectMemoryState T α × List (Event ℕ (GuardObs 1 α))) :=
  match (s.readers 0).guards[j]? with
  | some ⟨bucket, owner, number, .alive⟩ =>
    if owner ≠ dummyReaderId T then
      let guards := (s.readers 0).guards.set j ⟨bucket, owner, number, .store⟩
      some ({ s with
          toObjectCore := s.setGuards 0 guards
          memory := s.memory.writeCell .reader bucket none },
        raceIf (s.memory.WriteRaces .reader bucket) bucket ++
          [.shows (.queue (.dropped 0 number)),
            .shows (.queue (.destroyed (some 0) (s.memory.cells bucket)))])
    else
      some ({ s with toObjectCore := s.setGuards 0 ((s.readers 0).guards.eraseIdx j) }, [])
  | _ => none

/-- The rest of the destructor: `m_seqn.store(DUMMY_EVENT_SEQ_NUM, std::memory_order_release)`. -/
def resumeGuard (s : ObjectMemoryState T α) (j t : ℕ) :
    Option (ObjectMemoryState T α × List (Event ℕ (GuardObs 1 α))) :=
  match (s.readers 0).guards[j]? with
  | some ⟨bucket, _, number, .store⟩ =>
    (s.memory.store .release .reader bucket (dummyEventSeqNum T) t).map fun memory =>
      ({ s with
          toObjectCore := s.setGuards 0 ((s.readers 0).guards.eraseIdx j), memory := memory },
        [.shows (.queue (.freed number))])
  | _ => none

end ObjectMemoryState

/-- The object queue over its memory; a move comes with the time of the store it reads or makes. -/
def objectMemoryMachine (T : SeqnumCounter) (α : Type*) :
    Machine (ObjectMemoryState T α) (ObjectMove α × ℕ) (Event ℕ (GuardObs 1 α)) where
  step s
    | (.tryWrite event, t) => s.tryWrite event t
    | (.writer, t) => s.resumeWriter t
    | (.tryRead, t) => s.tryRead t
    | (.look j, _) => s.look j
    | (.moveGuard j, _) => s.moveGuard j
    | (.destroyGuard j, _) => s.destroyGuard j
    | (.guard j, t) => s.resumeGuard j t

/-! ## The guards in the window -/

variable {C : ℕ} {phase : Fin 1 → ℕ → Option GuardPc} {a : State (Fin 1) α}

section Window

variable {sc : ObjectState T 1 α} {r : Fin 1} {g g' : Guard T} {j : ℕ}

/-- A guard refers to an event that the reader took and that is not given back. -/
theorem OpenRel.guard_taken (h : OpenRel C phase sc a) (hg : g ∈ (sc.readers r).guards)
    (howner : g.owner ≠ dummyReaderId T) :
    g.number < a.cursor r ∧ a.written.length ≤ g.number + C ∧ g.bucket = g.number % C := by
  obtain ⟨j, hj⟩ := List.getElem?_of_mem hg
  obtain ⟨hphase, hbucket⟩ := (h.core.guards r).live hj howner
  have hnot : g.number < a.cursor r ∧ g.number ∉ a.freed := by
    cases hpc : g.pc with
    | alive =>
      rw [hpc] at hphase
      have hheld := (h.core.held r _).1 hphase
      exact ⟨hheld.1, h.core.coherent.not_freed_of_held hheld⟩
    | destroy =>
      rw [hpc] at hphase
      obtain ⟨-, hdead, hrel, -⟩ := h.core.destroy r _ hphase
      exact ⟨h.core.coherent.lt_of_dropped r _ (hrel r),
        fun hf => hdead (h.core.coherent.dead_of_freed _ hf)⟩
    | store =>
      rw [hpc] at hphase
      obtain ⟨-, hfreed, hrel, -⟩ := h.core.store r _ hphase
      exact ⟨h.core.coherent.lt_of_dropped r _ (hrel r), hfreed⟩
  exact ⟨hnot.1, h.core.coherent.length_le hnot.2, hbucket⟩

/-- The bucket the reader comes to next is not held by a guard when its event is published. -/
theorem OpenRel.not_holds_next (h : OpenRel C phase sc a) (hlt : a.cursor 0 < a.written.length) :
    ¬ Holds (sc.readers 0).guards (a.cursor 0 % C) := by
  rintro ⟨g, hg, howner, hb⟩
  obtain ⟨hnum, hW, hbucket⟩ := h.guard_taken hg howner
  have := WrappingCounter.mod_injOn_window le_rfl (by omega) hnum.le (by omega)
    (hbucket.symm.trans hb)
  omega

/-- Guards for different events refer to different buckets. -/
theorem OpenRel.holds_erase (h : OpenRel C phase sc a) (hj : (sc.readers 0).guards[j]? = some g)
    (howner : g.owner ≠ dummyReaderId T) {b : ℕ} :
    Holds ((sc.readers 0).guards.eraseIdx j) b ↔
      Holds (sc.readers 0).guards b ∧ b ≠ g.bucket := by
  rw [holds_perm (perm_eraseIdx hj), holds_cons_live howner]
  refine ⟨fun hb => ⟨.inr hb, ?_⟩, fun hb => hb.1.resolve_left (Ne.symm hb.2)⟩
  rintro rfl
  obtain ⟨g', hg', howner', hb'⟩ := hb
  obtain ⟨hnum, hW, hbucket⟩ := h.guard_taken (List.mem_of_getElem? hj) howner
  obtain ⟨hnum', hW', hbucket'⟩ := h.guard_taken (List.mem_of_mem_eraseIdx hg') howner'
  have hlen := h.core.coherent.cursor_le 0
  have heq : g'.number = g.number := by
    rcases le_total g.number g'.number with hle | hle
    · exact (WrappingCounter.mod_injOn_window le_rfl (by omega) hle (by omega)
        (hbucket.symm.trans (hb'.symm.trans hbucket'))).symm
    · exact WrappingCounter.mod_injOn_window le_rfl (by omega) hle (by omega)
        (hbucket'.symm.trans (hb'.trans hbucket))
  have := (((h.core.guards 0).erase hj howner).phase_iff g'.number g'.pc).2
    ⟨g', hg', howner', rfl, rfl⟩
  rw [heq, Function.update_self] at this
  cases this

end Window

/-! ## The simulation -/

/-- The queue next to the one in which every load returns the latest store. -/
structure ObjectMemoryRel (C : ℕ) (s : ObjectMemoryState T α) (sc : ObjectState T 1 α)
    (a : State (Fin 1) α) : Prop where
  rel : ∃ phase, OpenRel C phase sc a
  core : s.toObjectCore = sc.toObjectCore
  writer : s.writer = sc.writer
  memory : ∃ owner, RingMemoryOk C (a.cursor 0) owner sc.ring s.memory ∧
    Owners owner sc.writer.bucket (Holds (sc.readers 0).guards)

/-- A step does not race, and the events it shows are those that live guards refer to. -/
def ShowsHeld (sc : ObjectState T 1 α) (os : List (Event ℕ (GuardObs 1 α))) : Prop :=
  RaceFree os ∧ ∀ k x, .shows (.event 0 k x) ∈ os →
    ∃ g ∈ (sc.readers 0).guards, g.owner ≠ dummyReaderId T ∧ g.pc = .alive ∧ g.number = k ∧
      (sc.ring g.bucket).storage = x

theorem showsHeld_queue (sc : ObjectState T 1 α) (l : List (Obs (Fin 1) α)) :
    ShowsHeld sc ((l.map .queue).map .shows) :=
  ⟨raceFree_map _, by simp⟩

/-- Every step is one of the queue with the latest stores, or one that changes nothing there. -/
def ObjectFollows (C : ℕ) (sc : ObjectState T 1 α) (s' : ObjectMemoryState T α)
    (os : List (Event ℕ (GuardObs 1 α))) : Prop :=
  ShowsHeld sc os ∧ ((changes (shown os) = [] ∧ ∃ a, ObjectMemoryRel C s' sc a) ∨
    ∃ j sc' a os', (objectMachine T 1 α).step sc j = some (sc', os') ∧
      completed os' = changes (shown os) ∧ ObjectMemoryRel C s' sc' a)

variable {t j : ℕ} {s s' : ObjectMemoryState T α} {sc : ObjectState T 1 α}
  {os : List (Event ℕ (GuardObs 1 α))} {e : α}

theorem ObjectMemoryRel.tryWrite (hC : IsCapacity T C) (h : ObjectMemoryRel C s sc a)
    (hs : s.tryWrite e t = some (s', os)) : ObjectFollows C sc s' os := by
  obtain ⟨⟨phase, hrel⟩, hcore, hw, owner, hok, ho⟩ := h
  unfold ObjectMemoryState.tryWrite at hs
  split_ifs at hs with hp
  split at hs
  · cases hs
  · rename_i memory w evs hstep
    simp only [Option.some.injEq, Prod.mk.injEq] at hs
    obtain ⟨rfl, rfl⟩ := hs
    rw [hw] at hstep
    rcases hok.tryWriteAt ho hstep with ⟨rfl, rfl, hok⟩ | ⟨hsc, rfl, owner', hok, ho⟩
    · refine ⟨showsHeld_queue sc [_, _], .inl ⟨rfl, a, ⟨phase, hrel⟩, hcore, rfl, owner, hok, ho⟩⟩
    · have hp' : sc.producer = true := by rw [← hcore]; exact hp
      have hn : s.written = sc.written := by rw [hcore]
      have hstep' : sc.tryWrite e = some ({ sc with writer := w }, [.offered e]) := by
        rw [ObjectState.tryWrite, if_pos hp', ← hn, hsc]
        rfl
      obtain ⟨⟨-, hrel'⟩, -⟩ := hrel.tryWrite hC hstep'
      exact ⟨showsHeld_queue sc [_], .inr ⟨.tryWrite e, _, _, _, hstep', rfl, ⟨phase, hrel'⟩, hcore, rfl,
        owner', hok, ho⟩⟩

theorem ObjectMemoryRel.resumeWriter (hC : IsCapacity T C) (h : ObjectMemoryRel C s sc a)
    (hs : s.resumeWriter t = some (s', os)) : ObjectFollows C sc s' os := by
  obtain ⟨⟨phase, hrel⟩, hcore, hw, owner, hok, ho⟩ := h
  unfold ObjectMemoryState.resumeWriter at hs
  split at hs
  · cases hs
  · rename_i memory w evs hstep
    simp only [Option.some.injEq, Prod.mk.injEq] at hs
    obtain ⟨rfl, rfl⟩ := hs
    rw [hw] at hstep
    obtain ⟨ring', evs', hsc, rfl, owner', hok, ho⟩ := hok.resumeAt ho hstep
    have hstep' : sc.resumeWriter =
        some ({ sc with ring := ring', writer := w, written := sc.written + evs'.length },
          evs'.map WriterEvent.objectObs) := by
      rw [ObjectState.resumeWriter, hsc]
    have hdone : completed (evs'.map (WriterEvent.objectObs (ρ := Fin 1))) =
        evs'.map WriterEvent.objectObs := by
      rcases Writer.resume_cases hsc with rfl | ⟨x, rfl⟩ <;> rfl
    have hcursor : ((spec (Fin 1) α C).after a (evs'.map WriterEvent.objectObs)).cursor =
        a.cursor := by
      rcases Writer.resume_cases hsc with rfl | ⟨x, rfl⟩ <;> rfl
    rw [flatMap_bind, flatMap_guardObs]
    refine ⟨showsHeld_queue sc _, .inr ⟨.writer, _, _, _, hstep', ?_, ⟨phase,
      (hrel.resumeWriter hC hstep').2⟩, ?_, rfl, owner', ?_, ho⟩⟩
    · rw [changes, shown_map, queueObs_map]
    · rw [shown_map, hcore]
    · rw [hcursor]
      exact hok

theorem ObjectMemoryRel.tryRead (hC : IsCapacity T C) (h : ObjectMemoryRel C s sc a)
    (hs : s.tryRead t = some (s', os)) : ObjectFollows C sc s' os := by
  obtain ⟨⟨phase, hrel⟩, hcore, hw, owner, hok, ho⟩ := h
  have hidx := hrel.core.reader 0
  unfold ObjectMemoryState.tryRead at hs
  rw [hcore] at hs
  simp only [hidx.nextBucket, hidx.next_eq] at hs
  split_ifs at hs with halive
  split at hs
  · cases hs
  · rename_i v memory hl
    split_ifs at hs with hv
    · simp only [Option.some.injEq, Prod.mk.injEq] at hs
      obtain ⟨rfl, rfl⟩ := hs
      subst hv
      have hpublished : (sc.ring (a.cursor 0 % C)).seqn = seqnOf T (a.cursor 0) →
          a.cursor 0 < a.written.length := by
        have hle := hrel.core.coherent.cursor_le 0
        have hfreed := hrel.core.coherent.cursor_not_freed 0
        exact (hrel.ring.load_iff hC hle (hrel.core.coherent.length_le hfreed) fun _ =>
          occupied_iff.2 ⟨_, rfl, hfreed⟩).1
      obtain ⟨hseqn, hok'⟩ := hok.readerLoad hl hC.pos fun hseqn => by
        rw [Ne, ho.reader]
        exact hrel.not_holds_next (hpublished hseqn)
      have hcells := hok'.cells (a.cursor 0 % C)
      have hstep' : sc.tryRead 0 = some ({ sc with toObjectCore := sc.takeGuard 0 },
          [.read 0 (sc.ring (a.cursor 0 % C)).storage]) := by
        simp only [ObjectState.tryRead, hidx.nextBucket, hidx.next_eq, halive, hseqn, ↓reduceIte]
      obtain ⟨⟨-, phase', hrel'⟩, -⟩ := hrel.tryRead hC hstep'
      refine ⟨showsHeld_queue sc [_], .inr ⟨.tryRead 0, _, _, _, hstep', ?_, ⟨phase', hrel'⟩, rfl, hw,
        Function.update owner (a.cursor 0 % C) (some .reader), ?_, ?_⟩⟩
      · rw [hcells]
        rfl
      · simpa [spec, State.next] using hok'
      · have htake := ho.take (b := a.cursor 0 % C) fun hown =>
          seqnOf_ne_dummy _ (hseqn.symm.trans (hok.vacant _ hown))
        refine ⟨htake.writer, fun b => (htake.reader b).trans ?_⟩
        have hguards : ((sc.takeGuard 0).readers 0).guards = (sc.readers 0).guards ++
            [⟨a.cursor 0 % C, (sc.readers 0).reader.id, (sc.readers 0).taken, .alive⟩] := by
          simp [ObjectCore.takeGuard, ObjectCore.setReader, hidx.nextBucket]
        rw [hguards]
        exact (holds_push (g := ⟨_, _, _, _⟩) (hrel.core.id 0)).symm
    · simp only [Option.some.injEq, Prod.mk.injEq] at hs
      obtain ⟨rfl, rfl⟩ := hs
      exact ⟨showsHeld_queue sc [_], .inl ⟨rfl, a, ⟨phase, hrel⟩, rfl, hw, owner, hok.load hl, ho⟩⟩

/-- What `get_event` shows is what the bucket of a live guard holds. -/
theorem ObjectMemoryRel.look (h : ObjectMemoryRel C s sc a) (hs : s.look j = some (s', os)) :
    ObjectFollows C sc s' os := by
  obtain ⟨⟨phase, hrel⟩, hcore, hw, owner, hok, ho⟩ := h
  unfold ObjectMemoryState.look at hs
  rw [hcore] at hs
  split at hs
  · rename_i bucket own k hj
    split_ifs at hs with howner
    simp only [Option.some.injEq, Prod.mk.injEq] at hs
    obtain ⟨rfl, rfl⟩ := hs
    have hg := List.mem_of_getElem? hj
    obtain ⟨hrace, hok'⟩ := hok.readCell ((ho.reader bucket).2 ⟨_, hg, howner, rfl⟩)
    rw [raceIf_of_not hrace, List.nil_append]
    refine ⟨⟨raceFree_map [_], fun k' x hx => ?_⟩, .inl ⟨rfl, a, ⟨phase, hrel⟩, rfl, hw, owner,
      hok', ho⟩⟩
    simp only [List.mem_singleton, Event.shows.injEq, GuardObs.event.injEq, true_and] at hx
    obtain ⟨rfl, rfl⟩ := hx
    exact ⟨_, hg, howner, rfl, rfl, (hok.cells bucket).symm⟩
  · cases hs

theorem ObjectMemoryRel.moveGuard (h : ObjectMemoryRel C s sc a)
    (hs : s.moveGuard j = some (s', os)) : ObjectFollows C sc s' os := by
  obtain ⟨⟨phase, hrel⟩, hcore, hw, owner, hok, ho⟩ := h
  unfold ObjectMemoryState.moveGuard at hs
  obtain ⟨core, hmove, heq⟩ := Option.map_eq_some_iff.1 hs
  simp only [Prod.mk.injEq] at heq
  obtain ⟨rfl, rfl⟩ := heq
  rw [hcore] at hmove
  have hstep' : sc.moveGuard 0 j = some ({ sc with toObjectCore := core }, []) := by
    rw [ObjectState.moveGuard, hmove]
    rfl
  refine ⟨showsHeld_queue sc [], .inr ⟨.moveGuard 0 j, _, a, _, hstep', rfl,
    ⟨phase, (hrel.moveGuard hstep').2⟩, rfl, hw, owner, hok, ho.writer, fun b => ?_⟩⟩
  obtain ⟨g, hj, -, rfl⟩ := ObjectCore.moveGuard_eq_some hmove
  rw [ho.reader]
  simp only [ObjectCore.setGuards_guards]
  exact (holds_move hj).symm

theorem ObjectMemoryRel.destroyGuard (h : ObjectMemoryRel C s sc a)
    (hs : s.destroyGuard j = some (s', os)) : ObjectFollows C sc s' os := by
  obtain ⟨⟨phase, hrel⟩, hcore, hw, owner, hok, ho⟩ := h
  unfold ObjectMemoryState.destroyGuard at hs
  rw [hcore] at hs
  split at hs
  · rename_i bucket own k hj
    split_ifs at hs with howner
    · simp only [Option.some.injEq, Prod.mk.injEq] at hs
      obtain ⟨rfl, rfl⟩ := hs
      have hown := (ho.reader bucket).2 ⟨_, List.mem_of_getElem? hj, howner, rfl⟩
      obtain ⟨hrace, hok'⟩ := hok.writeCell hown none
      have hstep' : sc.destroyGuard 0 j = some ({ sc with
          toObjectCore := sc.setGuards 0 ((sc.readers 0).guards.set j ⟨bucket, own, k, .store⟩)
          ring := setStorage sc.ring bucket none },
          [.dropped 0 k, .destroyed (some 0) (sc.ring bucket).storage]) := by
        simp only [ObjectState.destroyGuard, hj, if_pos howner]
      obtain ⟨-, phase', hrel'⟩ := hrel.destroyGuard hstep'
      rw [raceIf_of_not hrace, List.nil_append]
      refine ⟨showsHeld_queue sc [_, _], .inr ⟨.destroyGuard 0 j, _, _, _, hstep', ?_, ⟨phase', hrel'⟩,
        rfl, hw, owner, ?_, ho.writer, fun b => ?_⟩⟩
      · rw [hok.cells bucket]
        rfl
      · simpa [spec, State.next] using hok'
      · rw [ho.reader]
        simp only [ObjectCore.setGuards_guards]
        exact (holds_setPc hj howner .store).symm
    · simp only [Option.some.injEq, Prod.mk.injEq] at hs
      obtain ⟨rfl, rfl⟩ := hs
      have hstep' : sc.destroyGuard 0 j = some ({ sc with
          toObjectCore := sc.setGuards 0 ((sc.readers 0).guards.eraseIdx j) }, []) := by
        simp only [ObjectState.destroyGuard, hj, if_neg howner]
      obtain ⟨-, phase', hrel'⟩ := hrel.destroyGuard hstep'
      refine ⟨showsHeld_queue sc [], .inr ⟨.destroyGuard 0 j, _, _, _, hstep', rfl, ⟨phase', hrel'⟩, rfl,
        hw, owner, hok, ho.writer, fun b => ?_⟩⟩
      rw [ho.reader]
      simp only [ObjectCore.setGuards_guards]
      exact (holds_erase_moved hj (not_not.1 howner)).symm
  · cases hs

theorem ObjectMemoryRel.resumeGuard (h : ObjectMemoryRel C s sc a)
    (hs : s.resumeGuard j t = some (s', os)) : ObjectFollows C sc s' os := by
  obtain ⟨⟨phase, hrel⟩, hcore, hw, owner, hok, ho⟩ := h
  unfold ObjectMemoryState.resumeGuard at hs
  rw [hcore] at hs
  split at hs
  · rename_i bucket own k hj
    simp only [Option.map_eq_some_iff, Prod.mk.injEq] at hs
    obtain ⟨memory, hs, rfl, rfl⟩ := hs
    have howner : own ≠ dummyReaderId T := by
      intro heq
      cases (hrel.core.guards 0).moved _ (List.mem_of_getElem? hj) heq
    have hheld : Holds (sc.readers 0).guards bucket := ⟨_, List.mem_of_getElem? hj, howner, rfl⟩
    have hstep' : sc.resumeGuard 0 j = some ({ sc with
        toObjectCore := sc.setGuards 0 ((sc.readers 0).guards.eraseIdx j)
        ring := setSeqn sc.ring bucket (dummyEventSeqNum T) }, [.freed k]) := by
      simp only [ObjectState.resumeGuard, hj]
    obtain ⟨-, phase', hrel'⟩ := hrel.resumeGuard hstep'
    refine ⟨showsHeld_queue sc [_], .inr ⟨.guard 0 j, _, _, _, hstep', rfl, ⟨phase', hrel'⟩, rfl, hw,
      Function.update owner bucket none, ?_, ?_⟩⟩
    · simpa [spec, State.next] using hok.release ((ho.reader bucket).2 hheld) hs
    · have hgive := ho.give hheld
      refine ⟨hgive.writer, fun b => (hgive.reader b).trans ?_⟩
      simp only [ObjectCore.setGuards_guards]
      exact (hrel.holds_erase hj howner).symm
  · cases hs

/-- Every step follows the queue with the latest stores. -/
theorem ObjectMemoryRel.step (hC : IsCapacity T C) (h : ObjectMemoryRel C s sc a)
    {i : ObjectMove α × ℕ} (hs : (objectMemoryMachine T α).step s i = some (s', os)) :
    ObjectFollows C sc s' os := by
  obtain ⟨i, t⟩ := i
  cases i with
  | tryWrite e => exact h.tryWrite hC hs
  | writer => exact h.resumeWriter hC hs
  | tryRead => exact h.tryRead hC hs
  | look j => exact h.look hs
  | moveGuard j => exact h.moveGuard hs
  | destroyGuard j => exact h.destroyGuard hs
  | guard j => exact h.resumeGuard hs

theorem objectMemoryRel_start (hC : IsCapacity T C) (contentAllocator : Bool) : ObjectMemoryRel C
    (.start α (producerAfter T C 1) (.new (C - 1) 0) contentAllocator)
    (.start α ⟨producerAfter T C 1, [.new (C - 1) 0]⟩ contentAllocator)
    GuardedBroadcast.start where
  rel := by
    rcases objectRel_start (α := α) hC contentAllocator with hrel | hrel
    · exact hrel
    · rcases hrel.gone with hgone | hgone <;> cases hgone
  core := rfl
  writer := rfl
  memory := by
    refine ⟨_, ringMemoryOk_new C 0, ?_⟩
    constructor
    · intro b
      simp [Writer.bucket, ObjectState.start]
    · intro b
      simp [Holds, ObjectState.start, ObjectCore.start]

/-- Every run follows one of the queue with the latest stores. -/
theorem objectMemory_follows (hC : IsCapacity T C) {contentAllocator : Bool}
    {log : List (Event ℕ (GuardObs 1 α))}
    (h : (objectMemoryMachine T α).Reaches
      (.start α (producerAfter T C 1) (.new (C - 1) 0) contentAllocator) s log) :
    ∃ sc log', (objectMachine T 1 α).Reaches
        (.start α ⟨producerAfter T C 1, [.new (C - 1) 0]⟩ contentAllocator) sc log' ∧
      completed log' = changes (shown log) ∧ ∃ a, ObjectMemoryRel C s sc a := by
  refine h.followAs (R := fun s sc => ∃ a, ObjectMemoryRel C s sc a) (fun log => changes (shown log))
    completed rfl (fun l l' => by rw [shown_append, changes_append]) completed_append ?_
    ⟨_, objectMemoryRel_start hC contentAllocator⟩
  rintro s sc i s' os ⟨a, hrel⟩ hs
  rcases (hrel.step hC hs).2 with ⟨hos, a', hrel'⟩ | ⟨j, sc', a', os', hj, hos, hrel'⟩
  · exact .inl ⟨hos, a', hrel'⟩
  · exact .inr ⟨j, sc', os', hj, hos, a', hrel'⟩

/-- Under release and acquire no access to an event races, whether through a guard, by its
destruction or by the next construction in its bucket.  What goes through is what goes through in a
run in which every load returns the latest store: the reader gets the events in order, and what a
guard shows, however long it is kept, is the event that was written under its number. -/
theorem objectMemory_refines {n : ℕ} {producer : QueueImpl T} {reader : StreamReader T}
    {contentAllocator : Bool} {log : List (Event ℕ (GuardObs 1 α))}
    (hmake : make T n 1 = some ⟨producer, [reader]⟩)
    (h : (objectMemoryMachine T α).Reaches (.start α producer reader contentAllocator) s log) :
    RaceFree log ∧
      (∃ sc log', (objectMachine T 1 α).Reaches
          (.start α ⟨producer, [reader]⟩ contentAllocator) sc log' ∧
        completed log' = completed (queueObs (shown log))) ∧
      reads 0 (queueObs (shown log)) <+:
        (numbered (writes (queueObs (shown log)))).map some ∧
      ∀ k x, .shows (.event 0 k x) ∈ log →
        ∃ e, x = some ⟨k, e⟩ ∧ (writes (queueObs (shown log)))[k]? = some e := by
  obtain ⟨C, -, hC, -, hpair⟩ := make_eq_some hmake
  simp only [ProducerAndConsumers.mk.injEq, List.cons.injEq, and_true] at hpair
  obtain ⟨rfl, rfl⟩ := hpair
  have hstart := objectRel_start (α := α) hC contentAllocator
  obtain ⟨sc, log', hreaches, heq, -⟩ := objectMemory_follows hC h
  have hprefix := reads_isPrefix ((object_simulates hC).reaches hstart hreaches).1 0
  rw [← reads_completed, ← writes_completed, heq] at hprefix
  refine ⟨fun x hx => ?_, ⟨sc, log', hreaches, heq⟩, ?_, fun k x hx => ?_⟩
  · obtain ⟨l, s₁, i, s₂, os, l', hbefore, hstep, -, -, hx⟩ := h.exists_step hx
    obtain ⟨sc₁, -, -, -, a, hrel⟩ := objectMemory_follows hC hbefore
    exact (hrel.step hC hstep).1.1 x hx
  · rwa [changes, reads_completed, writes_completed] at hprefix
  · obtain ⟨l, s₁, i, s₂, os, l', hbefore, hstep, -, rfl, hos⟩ := h.exists_step hx
    obtain ⟨sc₁, log₁, hreaches₁, heq₁, a, hrel⟩ := objectMemory_follows hC hbefore
    obtain ⟨g, hg, howner, hpc, rfl, rfl⟩ := (hrel.step hC hstep).1.2 k x hos
    obtain ⟨j, hj⟩ := List.getElem?_of_mem hg
    obtain ⟨hlegal, ⟨phase, hopen⟩ | hclosed⟩ := (object_simulates hC).reaches hstart hreaches₁
    · obtain ⟨hlt, hst⟩ := hopen.guard_storage hj howner hpc
      have hlt := hlt.trans_le (hopen.core.coherent.cursor_le 0)
      rw [State.item_eq_numbered] at hst
      have hwrites : ((spec (Fin 1) α C).after GuardedBroadcast.start log₁).written =
          writes (queueObs (shown l)) := by
        rw [(tracks_of_legal hlegal).written, ← writes_completed, heq₁, changes, writes_completed]
      rw [hwrites] at hst hlt
      refine ⟨(writes (queueObs (shown l)))[g.number], ?_, ?_⟩
      · rw [hst]
        simp [numbered, hlt]
      · rw [List.append_assoc, shown_append, queueObs_append, writes_append,
          List.getElem?_append_left hlt, List.getElem?_eq_getElem hlt]
    · exact absurd (hclosed.spent.moved 0 g hg).1 howner

/-- The reader is turned away by a stale load, looks at the event through its guard, and again after
the guard was moved. -/
theorem objectMemory_refines_moved : ∃ producer reader s log,
    make .uint8 3 1 = some ⟨producer, [reader]⟩ ∧
      (objectMemoryMachine .uint8 ℕ).Reaches (.start ℕ producer reader false) s log ∧
      log = [.shows (.queue (.offered 7)), .shows (.queue (.wrote 7)), .shows (.queue (.empty 0)),
        .shows (.queue (.read 0 (some ⟨0, 7⟩))), .shows (.event 0 0 (some ⟨0, 7⟩)),
        .shows (.event 0 0 (some ⟨0, 7⟩)), .shows (.queue (.dropped 0 0)),
        .shows (.queue (.destroyed (some 0) (some ⟨0, 7⟩))), .shows (.queue (.freed 0))] ∧
      RaceFree log ∧
      reads 0 (queueObs (shown log)) <+: (numbered (writes (queueObs (shown log)))).map some ∧
      ∀ k x, .shows (.event 0 k x) ∈ log →
        ∃ e, x = some ⟨k, e⟩ ∧ (writes (queueObs (shown log)))[k]? = some e := by
  have hmake : make .uint8 3 1 = some ⟨producerAfter .uint8 4 1, [.new 3 0]⟩ := by decide
  have hrun := Machine.Reaches.of_run (show (objectMemoryMachine .uint8 ℕ).run
    (.start ℕ (producerAfter .uint8 4 1) (.new 3 0) false)
    [(.tryWrite 7, 0), (.writer, 0), (.writer, 1), (.tryRead, 0), (.tryRead, 1), (.look 0, 0),
      (.moveGuard 0, 0), (.look 1, 0), (.destroyGuard 1, 0), (.guard 1, 2)] = some (_, _) from rfl)
  obtain ⟨hfree, -, hreads, hevents⟩ := objectMemory_refines hmake hrun
  exact ⟨_, _, _, _, hmake, hrun, rfl, hfree, hreads, hevents⟩

end Ihft.Channel.One2One
