import Ihft.Channel.ObjectInvariant
import Ihft.Channel.One2One.QueueImpl

/-!
# The one-to-one object queue

A guard of the one-to-one queue destroys its event and then stores the dummy sequence number, so
fullness is decided bucket by bucket: guards may be kept and released in any order.  The bucket
destructors of the teardown decide from `m_seqn`.
-/

namespace Ihft.Channel.One2One

open Observe GuardedBroadcast

variable {T : SeqnumCounter} {R : ℕ} {α : Type*}

/-- The destructor of a bucket, and the event it destroys. -/
def Bucket.destructor {β : Type*} (b : Bucket T β) : Bucket T β × List (Option β) :=
  if b.seqn ≠ dummyEventSeqNum T then
    (⟨dummyEventSeqNum T, none⟩, [b.storage])
  else
    (b, [])

/-- `std::destroy_n`, one bucket after the other. -/
def destroyN {β : Type*} (size : ℕ) (ring : RingBuffer T β) :
    RingBuffer T β × List (Option β) :=
  (fun b => if b < size then (ring b).destructor.1 else ring b,
    (List.range size).flatMap fun b => (ring b).destructor.2)

/-- A `one2one_seqnum_stream_object_queue` with its readers and guards. -/
structure ObjectState (T : SeqnumCounter) (R : ℕ) (α : Type*) extends ObjectCore T R where
  ring : RingBuffer T (Stored α)
  writer : Writer T (Stored α)

namespace ObjectState

/-- The channel handed out by `make`. -/
def start (α : Type*) (ch : ProducerAndConsumers T) (contentAllocator : Bool) :
    ObjectState T ch.consumers.length α where
  toObjectCore := .start ch contentAllocator
  ring _ := .new
  writer := ⟨ch.producer, .idle⟩

/-- `one2one_seqnum_stream_object_queue::try_write` up to its load. -/
def tryWrite (s : ObjectState T R α) (event : α) :
    Option (ObjectState T R α × List (Obs (Fin R) α)) :=
  if s.producer = true then
    match s.writer.tryWrite s.ring ⟨s.written, event⟩ with
    | none => none
    | some (writer, evs) => some ({ s with writer := writer }, evs.map WriterEvent.objectObs)
  else
    none

/-- The rest of `try_write`. -/
def resumeWriter (s : ObjectState T R α) : Option (ObjectState T R α × List (Obs (Fin R) α)) :=
  match s.writer.resume s.ring with
  | none => none
  | some (ring, writer, evs) =>
    some ({ s with ring := ring, writer := writer, written := s.written + evs.length },
      evs.map WriterEvent.objectObs)

/-- `one2one_seqnum_stream_object_reader::try_read`. -/
def tryRead (s : ObjectState T R α) (r : Fin R) :
    Option (ObjectState T R α × List (Obs (Fin R) α)) :=
  let x := s.readers r
  if x.alive = true then
    let bucket := s.ring x.reader.nextBucket
    if bucket.seqn = x.reader.next then
      some ({ s with toObjectCore := s.takeGuard r }, [.read r bucket.storage])
    else
      some (s, [.empty r])
  else
    none

/-- The move constructor of a guard. -/
def moveGuard (s : ObjectState T R α) (r : Fin R) (j : ℕ) :
    Option (ObjectState T R α × List (Obs (Fin R) α)) :=
  (s.toObjectCore.moveGuard (dummyReaderId T) r j).map fun core =>
    ({ s with toObjectCore := core }, [])

/-- The destructor of a guard, up to the destruction of the event. -/
def destroyGuard (s : ObjectState T R α) (r : Fin R) (j : ℕ) :
    Option (ObjectState T R α × List (Obs (Fin R) α)) :=
  match (s.readers r).guards[j]? with
  | some ⟨bucket, owner, number, .alive⟩ =>
    if owner ≠ dummyReaderId T then
      let guards := (s.readers r).guards.set j ⟨bucket, owner, number, .store⟩
      some ({ s with toObjectCore := s.setGuards r guards, ring := setStorage s.ring bucket none },
        [.dropped r number, .destroyed (some r) (s.ring bucket).storage])
    else
      some ({ s with toObjectCore := s.setGuards r ((s.readers r).guards.eraseIdx j) }, [])
  | _ => none

/-- The rest of the destructor: the store that empties the bucket. -/
def resumeGuard (s : ObjectState T R α) (r : Fin R) (j : ℕ) :
    Option (ObjectState T R α × List (Obs (Fin R) α)) :=
  match (s.readers r).guards[j]? with
  | some ⟨bucket, _, number, .store⟩ =>
    some ({ s with
        toObjectCore := s.setGuards r ((s.readers r).guards.eraseIdx j)
        ring := setSeqn s.ring bucket (dummyEventSeqNum T) },
      [.freed number])
  | _ => none

/-- The deleter of the shared ring, run when the last owner is gone; the guards are destroyed
before that. -/
def release (s : ObjectState T R α) : Option (ObjectState T R α × List (Obs (Fin R) α)) :=
  if s.Owned then
    some (s, [])
  else if s.Quiet (dummyReaderId T) then
    let destroyed := destroyN s.size s.ring
    some ({ s with ring := destroyed.1 },
      destroyed.2.map (.destroyed none) ++
        .closed :: if s.contentAllocator then [.disposed] else [])
  else
    none

/-- The destructor of the queue. -/
def dropProducer (s : ObjectState T R α) : Option (ObjectState T R α × List (Obs (Fin R) α)) :=
  match s.producer, s.writer.pc with
  | true, .idle => { s with producer := false }.release
  | _, _ => none

/-- The destructor of a reader. -/
def dropReader (s : ObjectState T R α) (r : Fin R) :
    Option (ObjectState T R α × List (Obs (Fin R) α)) :=
  if (s.readers r).alive = true then
    { s with toObjectCore := s.setReader r { s.readers r with alive := false } }.release
  else
    none

end ObjectState

/-- The object queue as a machine. -/
def objectMachine (T : SeqnumCounter) (R : ℕ) (α : Type*) :
    Machine (ObjectState T R α) (ObjectInput R α) (Obs (Fin R) α) where
  step s
    | .tryWrite event => s.tryWrite event
    | .writer => s.resumeWriter
    | .tryRead r => s.tryRead r
    | .moveGuard r j => s.moveGuard r j
    | .destroyGuard r j => s.destroyGuard r j
    | .guard r j => s.resumeGuard r j
    | .dropProducer => s.dropProducer
    | .dropReader r => s.dropReader r

/-! ## The invariant -/

/-- The queue while it is in use. -/
structure OpenRel (C : ℕ) (phase : Fin 1 → ℕ → Option GuardPc) (s : ObjectState T 1 α)
    (a : State (Fin 1) α) : Prop where
  core : CoreOk (dummyReaderId T) C phase a s.toObjectCore s.writer.pc.event
  ring : RingOk C a.written.length (Occupied C a) (Alive C a) a.item s.ring s.writer

/-- The queue after its teardown. -/
structure ClosedRel (s : ObjectState T R α) (a : State (Fin R) α) : Prop where
  gone : a.stage = .closed ∨ a.stage = .disposed
  spent : CoreSpent (dummyReaderId T) s.toObjectCore
  idle : s.writer.pc = .idle

def ObjectRel (C : ℕ) (s : ObjectState T 1 α) (a : State (Fin 1) α) : Prop :=
  (∃ phase, OpenRel C phase s a) ∨ ClosedRel s a

variable {C : ℕ} {phase : Fin 1 → ℕ → Option GuardPc} {s s' : ObjectState T 1 α}
  {a : State (Fin 1) α} {os : List (Obs (Fin 1) α)} {e : α} {r : Fin 1} {j : ℕ}

theorem writerPc_event_eq_none {pc : WriterPc (Stored α)} : pc.event = none ↔ pc = .idle := by
  cases pc <;> simp [WriterPc.event]

theorem OpenRel.occupied_of_alive (h : OpenRel C phase s a) {k : ℕ} (hk : Alive C a k) :
    Occupied C a k :=
  ⟨hk.1, fun hf => hk.2 (h.core.coherent.dead_of_freed _ hf)⟩

/-- The load of the writer finds its bucket occupied exactly when the event written `C` writes
earlier was not given back. -/
theorem OpenRel.tryWrite (hC : IsCapacity T C) (h : OpenRel C phase s a)
    (hs : s.tryWrite e = some (s', os)) :
    ((spec (Fin 1) α C).Legal a os ∧ OpenRel C phase s' ((spec (Fin 1) α C).after a os)) ∧
      ((os = [.offered e] ∧ ¬ Occupied C a a.written.length) ∨
        (os = [.offered e, .refused e] ∧ s' = s ∧ Occupied C a a.written.length)) := by
  unfold ObjectState.tryWrite at hs
  split_ifs at hs with hp
  split at hs
  · cases hs
  · rename_i w evs hw
    simp only [Option.some.injEq, Prod.mk.injEq] at hs
    obtain ⟨rfl, rfl⟩ := hs
    obtain ⟨hring, hpc, hload⟩ := h.ring.tryWrite hC hw
    have hcore := h.core
    rw [hpc] at hcore
    rcases hload with ⟨hfree, rfl, rfl⟩ | ⟨hocc, rfl, rfl⟩
    · obtain ⟨hallowed, hcore⟩ := hcore.offered hp e
      exact ⟨⟨⟨hallowed, trivial⟩, hcore, hring⟩, .inl ⟨rfl, hfree⟩⟩
    · obtain ⟨i, hi, hfreed⟩ := occupied_iff.1 hocc
      obtain ⟨hlegal, hafter⟩ := hcore.refused (e := e) hi hfreed
      refine ⟨⟨hlegal, ?_⟩, .inr ⟨rfl, rfl, hocc⟩⟩
      change OpenRel C phase s ((spec (Fin 1) α C).after a [.offered e, .refused e])
      rw [hafter]
      exact h

theorem OpenRel.resumeWriter (hC : IsCapacity T C) (h : OpenRel C phase s a)
    (hs : s.resumeWriter = some (s', os)) :
    (spec (Fin 1) α C).Legal a os ∧ OpenRel C phase s' ((spec (Fin 1) α C).after a os) := by
  unfold ObjectState.resumeWriter Writer.resume at hs
  have hcore := h.core
  cases hpc : s.writer.pc with
  | idle => simp [hpc] at hs
  | construct x =>
    simp only [hpc, Option.some.injEq, Prod.mk.injEq] at hs
    obtain ⟨rfl, rfl⟩ := hs
    rw [hpc] at hcore
    exact ⟨trivial, hcore, h.ring.construct hC hpc⟩
  | publish x =>
    simp only [hpc, Option.some.injEq, Prod.mk.injEq] at hs
    obtain ⟨rfl, rfl⟩ := hs
    rw [hpc] at hcore
    have hfree : ∀ i, i + C = a.written.length → i ∈ a.freed := by
      intro i hi
      by_contra hfreed
      exact h.ring.free (by rw [hpc]; simp) (occupied_iff.2 ⟨i, hi, hfreed⟩)
    obtain ⟨hnum, hallowed, hcore⟩ := hcore.wrote Nat.one_pos hfree
    refine ⟨⟨hallowed, trivial⟩, hcore, ?_⟩
    change RingOk C ((spec (Fin 1) α C).next a (.wrote x.value)).written.length _ _ _ _ _
    simp only [spec, State.next, List.length_append, List.length_singleton]
    refine h.ring.publish hC hpc (fun _ _ => Iff.rfl) (fun _ _ hk => hk) ?_ ?_ ?_
    · refine ⟨Nat.le_add_left C _, fun hf => ?_⟩
      rw [Nat.add_sub_cancel] at hf
      exact absurd (h.core.coherent.lt_of_dead _ (h.core.coherent.dead_of_freed _ hf))
        (lt_irrefl _)
    · rw [State.item_eq_some_iff]
      refine ⟨hnum, ?_⟩
      change (a.written ++ [x.value])[a.written.length]? = _
      simp
    · intro i hi
      exact State.item_append hi _ rfl

/-- The load of the reader finds the next event exactly when it is published. -/
theorem OpenRel.tryRead (hC : IsCapacity T C) (h : OpenRel C phase s a)
    (hs : s.tryRead r = some (s', os)) :
    ((spec (Fin 1) α C).Legal a os ∧ ∃ phase', OpenRel C phase' s' ((spec (Fin 1) α C).after a os)) ∧
      ((os = [.read r (a.item (a.cursor r))] ∧ a.cursor r < a.written.length) ∨
        (os = [.empty r] ∧ s' = s ∧ a.cursor r = a.written.length)) := by
  unfold ObjectState.tryRead at hs
  have hidx := h.core.reader r
  have hle := h.core.coherent.cursor_le r
  have hW := h.core.coherent.length_le (h.core.coherent.cursor_not_freed r)
  have hocc : Occupied C a (a.cursor r + C) :=
    occupied_iff.2 ⟨_, rfl, h.core.coherent.cursor_not_freed r⟩
  have hload := h.ring.load_iff hC hle hW fun _ => hocc
  simp only [hidx.next_eq, hidx.nextBucket, hload] at hs
  split_ifs at hs with halive hlt
  · simp only [Option.some.injEq, Prod.mk.injEq] at hs
    obtain ⟨rfl, rfl⟩ := hs
    have hst := h.ring.storage (a.cursor r + C) hW (by omega) ⟨Nat.le_add_left C _, ?_⟩
    · rw [Nat.add_mod_right, Nat.add_sub_cancel] at hst
      rw [hst]
      obtain ⟨hallowed, hcore⟩ := h.core.read hC hlt
      exact ⟨⟨⟨hallowed, trivial⟩, _, hcore, h.ring⟩, .inl ⟨rfl, hlt⟩⟩
    · rw [Nat.add_sub_cancel]
      intro hd
      exact h.core.coherent.cursor_not_dropped r
        (h.core.coherent.released_of_dead h.core.running _ hd r)
  · simp only [Option.some.injEq, Prod.mk.injEq] at hs
    obtain ⟨rfl, rfl⟩ := hs
    have heq : a.cursor r = a.written.length := by omega
    exact ⟨⟨⟨⟨h.core.running, heq⟩, trivial⟩, phase, h⟩, .inr ⟨rfl, rfl, heq⟩⟩

theorem OpenRel.moveGuard (h : OpenRel C phase s a) (hs : s.moveGuard r j = some (s', os)) :
    (spec (Fin 1) α C).Legal a os ∧ OpenRel C phase s' ((spec (Fin 1) α C).after a os) := by
  unfold ObjectState.moveGuard at hs
  obtain ⟨core, hcore, heq⟩ := Option.map_eq_some_iff.1 hs
  simp only [Prod.mk.injEq] at heq
  obtain ⟨rfl, rfl⟩ := heq
  exact ⟨trivial, h.core.moveGuard hcore, h.ring⟩

/-- The slot of an event that is not given back lies in the window. -/
theorem OpenRel.window (h : OpenRel C phase s a) {k : ℕ} (hk : k < a.written.length)
    (hfreed : k ∉ a.freed) :
    a.written.length ≤ k + C ∧ k + C < a.written.length + C ∧ (k + C) % C = k % C :=
  ⟨h.core.coherent.length_le hfreed, by omega, Nat.add_mod_right k C⟩

/-- The only reader destroys the event with its guard. -/
theorem OpenRel.destroyGuard (h : OpenRel C phase s a) (hs : s.destroyGuard r j = some (s', os)) :
    (spec (Fin 1) α C).Legal a os ∧ ∃ phase', OpenRel C phase' s' ((spec (Fin 1) α C).after a os) := by
  unfold ObjectState.destroyGuard at hs
  split at hs
  · rename_i bucket owner k hj
    split_ifs at hs with howner
    · simp only [Option.some.injEq, Prod.mk.injEq] at hs
      obtain ⟨rfl, rfl⟩ := hs
      obtain ⟨hheld, hbucket⟩ := h.core.held_of_guard hj howner rfl
      simp only at hheld hbucket
      have hlt := hheld.1.trans_le (h.core.coherent.cursor_le r)
      have hfreed := h.core.coherent.not_freed_of_held hheld
      have hdead : k ∉ a.dead := fun hd => h.core.coherent.dead_unheld hd r hheld
      obtain ⟨hw, hw', hmod⟩ := h.window hlt hfreed
      have hst := h.ring.storage (k + C) hw hw' ⟨Nat.le_add_left C k, by rwa [Nat.add_sub_cancel]⟩
      rw [hmod, Nat.add_sub_cancel, ← hbucket] at hst
      obtain ⟨hlen, -⟩ := List.getElem?_eq_some_iff.1 hj
      have hset := (h.core.guards r).setPc hj howner .destroy
      have hrel : ((spec (Fin 1) α C).next a (.dropped r k)).Released k := by
        intro r'
        rw [mem_dropped_next, Subsingleton.elim r' r]
        exact .inl ⟨rfl, rfl⟩
      obtain ⟨hallowed, hcore⟩ := h.core.dropped hheld (by rw [setPhase_row]; exact hset)
        (.inl ⟨rfl, hrel⟩)
      have hj' : ((s.setGuards r ((s.readers r).guards.set j ⟨bucket, owner, k, .destroy⟩)).readers
          r).guards[j]? = some ⟨bucket, owner, k, .destroy⟩ := by
        simp [hlen]
      obtain ⟨hallowed', hcore'⟩ := hcore.destroyed hj' howner rfl
      simp only [ObjectCore.setGuards_guards, ObjectCore.setGuards_setGuards, List.set_set] at hcore'
      rw [hst]
      refine ⟨⟨hallowed, hallowed', trivial⟩, _, hcore', ?_⟩
      rw [hbucket, ← hmod]
      refine h.ring.destroy hw hw' (occupied_iff.2 ⟨k, rfl, hfreed⟩) ?_
      rintro k' ⟨hle, hk'⟩
      have hk' := not_or.1 (mt (mem_dead_next (a := (spec (Fin 1) α C).next a (.dropped r k)) hlt
        (some r)).2 hk')
      exact ⟨⟨hle, hk'.2⟩, by omega⟩
    · simp only [Option.some.injEq, Prod.mk.injEq] at hs
      obtain ⟨rfl, rfl⟩ := hs
      exact ⟨trivial, phase, h.core.eraseMoved hj (not_not.1 howner), h.ring⟩
  · cases hs

/-- The last store of the destructor empties the bucket. -/
theorem OpenRel.resumeGuard (h : OpenRel C phase s a) (hs : s.resumeGuard r j = some (s', os)) :
    (spec (Fin 1) α C).Legal a os ∧ ∃ phase', OpenRel C phase' s' ((spec (Fin 1) α C).after a os) := by
  unfold ObjectState.resumeGuard at hs
  split at hs
  · rename_i bucket owner k hj
    simp only [Option.some.injEq, Prod.mk.injEq] at hs
    obtain ⟨rfl, rfl⟩ := hs
    have howner : owner ≠ dummyReaderId T := by
      intro heq
      have := (h.core.guards r).moved _ (List.mem_of_getElem? hj) heq
      cases this
    obtain ⟨hphase, hbucket⟩ := (h.core.guards r).live hj howner
    obtain ⟨hdead, hfreed, -⟩ := h.core.store r k hphase
    obtain ⟨hw, hw', hmod⟩ := h.window (h.core.coherent.lt_of_dead k hdead) hfreed
    obtain ⟨hallowed, hcore⟩ := h.core.freed hj howner rfl
    refine ⟨⟨hallowed, trivial⟩, _, hcore, ?_⟩
    simp only at hbucket
    rw [hbucket, ← hmod]
    refine h.ring.release hw hw' ?_ ?_
    · intro k'
      change C ≤ k' ∧ k' - C ∉ insert k a.freed ↔ (C ≤ k' ∧ k' - C ∉ a.freed) ∧ k' ≠ k + C
      rw [Finset.mem_insert, not_or]
      constructor
      · rintro ⟨h1, h2, h3⟩
        exact ⟨⟨h1, h3⟩, by omega⟩
      · rintro ⟨⟨h1, h3⟩, hne⟩
        exact ⟨h1, by omega, h3⟩
    · rintro k' ⟨hle, hk'⟩
      refine ⟨⟨hle, hk'⟩, ?_⟩
      rintro rfl
      rw [Nat.add_sub_cancel] at hk'
      exact hk' hdead
  · cases hs

/-- What the bucket destructors destroy, as long as no destructor of a guard is at work. -/
theorem OpenRel.destructor (h : OpenRel C phase s a) (hq : s.Settled (dummyReaderId T)) {k : ℕ}
    (hk : a.written.length ≤ k) (hk' : k < a.written.length + C) :
    (s.ring (k % C)).destructor.2 = if Occupied C a k then [a.item (k - C)] else [] := by
  unfold Bucket.destructor
  split_ifs with hseqn hocc hocc
  · have hdead := (h.core.unreleased_of_settled hq (show k - C < a.written.length by
      have := hocc.1; omega) hocc.2).1
    rw [h.ring.storage k hk hk' ⟨hocc.1, hdead⟩]
  · exact absurd (h.ring.vacant k hk hk' hocc) hseqn
  · rw [not_not, h.ring.full k hk hk' hocc] at hseqn
    exact absurd hseqn (seqnOf_ne_dummy _)
  · rfl

theorem OpenRel.release (h : OpenRel C phase s a) (hs : s.release = some (s', os)) :
    (spec (Fin 1) α C).Legal a os ∧ ObjectRel C s' ((spec (Fin 1) α C).after a os) := by
  unfold ObjectState.release at hs
  by_cases howned : s.Owned
  · rw [if_pos howned] at hs
    simp only [Option.some.injEq, Prod.mk.injEq] at hs
    obtain ⟨rfl, rfl⟩ := hs
    exact ⟨trivial, .inl ⟨phase, h⟩⟩
  · rw [if_neg howned] at hs
    by_cases hq : s.Quiet (dummyReaderId T)
    · rw [if_pos hq] at hs
      simp only [Option.some.injEq, Prod.mk.injEq] at hs
      obtain ⟨rfl, rfl⟩ := hs
      have hevent := h.core.idle (Bool.eq_false_iff.2 fun hp => howned (.inl hp))
      have hcore := h.core
      rw [hevent] at hcore
      obtain ⟨hlegal, hgone⟩ := hcore.teardown hq (f := fun b => (s.ring b).destructor.2)
        (fun k hk hk' => h.destructor hq.settled hk hk') s.contentAllocator
      simp only [destroyN, h.core.size]
      refine ⟨hlegal, .inr ⟨hgone, ⟨howned, fun r g hg => ?_⟩, writerPc_event_eq_none.1 hevent⟩⟩
      exact ⟨hq r g hg, (h.core.guards r).moved g hg (hq r g hg)⟩
    · rw [if_neg hq] at hs
      cases hs

theorem OpenRel.dropProducer (h : OpenRel C phase s a) (hs : s.dropProducer = some (s', os)) :
    (spec (Fin 1) α C).Legal a os ∧ ObjectRel C s' ((spec (Fin 1) α C).after a os) := by
  unfold ObjectState.dropProducer at hs
  split at hs
  · rename_i hp hpc
    have hopen : OpenRel C phase { s with producer := false } a :=
      ⟨h.core.leave (fun _ => writerPc_event_eq_none.2 hpc) fun _ => rfl, h.ring⟩
    exact hopen.release hs
  · cases hs

theorem OpenRel.dropReader (h : OpenRel C phase s a) (hs : s.dropReader r = some (s', os)) :
    (spec (Fin 1) α C).Legal a os ∧ ObjectRel C s' ((spec (Fin 1) α C).after a os) := by
  unfold ObjectState.dropReader at hs
  split_ifs at hs with halive
  have hsame : ∀ r', { Function.update s.readers r { s.readers r with alive := false } r' with
      alive := (s.readers r').alive } = s.readers r' := by
    intro r'
    rcases eq_or_ne r' r with rfl | hne
    · rw [Function.update_self]
    · rw [Function.update_of_ne hne]
  have hopen : OpenRel C phase { s with
      toObjectCore := s.setReader r { s.readers r with alive := false } } a :=
    ⟨h.core.leave h.core.idle hsame, h.ring⟩
  exact hopen.release hs

/-- After the teardown only guards that were moved from can move or go. -/
theorem ClosedRel.step {i : ObjectInput 1 α} (h : ClosedRel s a)
    (hs : (objectMachine T 1 α).step s i = some (s', os)) : os = [] ∧ ClosedRel s' a := by
  obtain ⟨hgone, hspent, hidle⟩ := h
  simp only [objectMachine] at hs
  cases i with
  | tryWrite e => simp [ObjectState.tryWrite, hspent.producer] at hs
  | writer => simp [ObjectState.resumeWriter, Writer.resume, hidle] at hs
  | tryRead r => simp [ObjectState.tryRead, hspent.alive] at hs
  | dropProducer => simp [ObjectState.dropProducer, hspent.producer] at hs
  | dropReader r => simp [ObjectState.dropReader, hspent.alive] at hs
  | moveGuard r j =>
    unfold ObjectState.moveGuard at hs
    obtain ⟨core, hcore, heq⟩ := Option.map_eq_some_iff.1 hs
    simp only [Prod.mk.injEq] at heq
    obtain ⟨rfl, rfl⟩ := heq
    exact ⟨rfl, hgone, hspent.moveGuard hcore, hidle⟩
  | destroyGuard r j =>
    simp only [ObjectState.destroyGuard] at hs
    split at hs
    · rename_i bucket owner k hj
      rw [if_neg (not_not.2 (hspent.moved r _ (List.mem_of_getElem? hj)).1)] at hs
      simp only [Option.some.injEq, Prod.mk.injEq] at hs
      obtain ⟨rfl, rfl⟩ := hs
      exact ⟨rfl, hgone, hspent.eraseGuard r j, hidle⟩
    · cases hs
  | guard r j =>
    simp only [ObjectState.resumeGuard] at hs
    split at hs
    · rename_i bucket owner k hj
      cases (hspent.moved r _ (List.mem_of_getElem? hj)).2
    · cases hs

/-- The queue simulates the broadcast of objects to one reader with `C` places. -/
theorem object_simulates (hC : IsCapacity T C) :
    Simulates (objectMachine T 1 α) (spec (Fin 1) α C) (ObjectRel C) where
  step {s a i s' os} h hs := by
    rcases h with ⟨phase, h⟩ | h
    · cases i with
      | tryWrite e =>
        obtain ⟨hlegal, hrel⟩ := (h.tryWrite hC hs).1
        exact ⟨hlegal, .inl ⟨_, hrel⟩⟩
      | writer =>
        obtain ⟨hlegal, hrel⟩ := h.resumeWriter hC hs
        exact ⟨hlegal, .inl ⟨_, hrel⟩⟩
      | tryRead r =>
        obtain ⟨hlegal, hrel⟩ := (h.tryRead hC hs).1
        exact ⟨hlegal, .inl hrel⟩
      | moveGuard r j =>
        obtain ⟨hlegal, hrel⟩ := h.moveGuard hs
        exact ⟨hlegal, .inl ⟨_, hrel⟩⟩
      | destroyGuard r j =>
        obtain ⟨hlegal, hrel⟩ := h.destroyGuard hs
        exact ⟨hlegal, .inl hrel⟩
      | guard r j =>
        obtain ⟨hlegal, hrel⟩ := h.resumeGuard hs
        exact ⟨hlegal, .inl hrel⟩
      | dropProducer => exact h.dropProducer hs
      | dropReader r => exact h.dropReader hs
    · obtain ⟨rfl, hclosed⟩ := h.step hs
      exact ⟨trivial, .inr hclosed⟩

theorem objectRel_start (hC : IsCapacity T C) (contentAllocator : Bool) :
    ObjectRel C (.start α ⟨producerAfter T C 1, [.new (C - 1) 0]⟩ contentAllocator)
      GuardedBroadcast.start := by
  refine .inl ⟨fun _ _ => none, coreOk_start ⟨producerAfter T C 1, [.new (C - 1) 0]⟩
    (producerAfter_capacity hC 1) (fun r => ⟨0, ?_, ?_⟩) contentAllocator, ?_⟩
  · rw [Fin.fin_one_eq_zero r]
    rfl
  · exact (WrappingCounter.ofNat_inj (Nat.two_pow_pos _) (one_lt_two_pow_digits T)).not.2 zero_ne_one
  · exact ringOk_new _ (fun k hk => hk.1) fun k hk => ⟨hk.1, by simp [GuardedBroadcast.start]⟩

/-- What a live guard refers to is the event that was read, and written, under its number. -/
theorem OpenRel.guard_storage (h : OpenRel C phase s a) {g : Guard T}
    (hj : (s.readers r).guards[j]? = some g) (howner : g.owner ≠ dummyReaderId T)
    (hpc : g.pc = .alive) :
    g.number < a.cursor r ∧ (s.ring g.bucket).storage = a.item g.number := by
  obtain ⟨hheld, hbucket⟩ := h.core.held_of_guard hj howner hpc
  have hlt := hheld.1.trans_le (h.core.coherent.cursor_le r)
  obtain ⟨hw, hw', hmod⟩ := h.window hlt (h.core.coherent.not_freed_of_held hheld)
  have hst := h.ring.storage _ hw hw' ⟨Nat.le_add_left C _, ?_⟩
  · rw [hmod, Nat.add_sub_cancel, ← hbucket] at hst
    exact ⟨hheld.1, hst⟩
  · rw [Nat.add_sub_cancel]
    exact fun hd => h.core.coherent.dead_unheld hd r hheld

/-- The writer's load of a reachable queue fails exactly when the event written `C` writes earlier
has not been given back. -/
theorem ObjectRel.refused_iff (hC : IsCapacity T C) (h : ObjectRel C s a)
    (hs : s.tryWrite e = some (s', os)) :
    (.refused e ∈ os ↔ ∃ i, i + C = a.written.length ∧ i ∉ a.freed) ∧
      (.refused e ∈ os → s' = s) := by
  rcases h with ⟨phase, h⟩ | h
  · rw [← occupied_iff]
    obtain ⟨-, ⟨rfl, hfree⟩ | ⟨rfl, rfl, hocc⟩⟩ := h.tryWrite hC hs
    · simp [hfree]
    · simp [hocc]
  · simp [ObjectState.tryWrite, h.spent.producer] at hs

/-- Under every interleaving the reader gets the events in order, a live guard refers to the very
event it was made for, and a write is refused exactly when the event written `capacity()` writes
earlier has not been released. -/
theorem object_longLivedGuards {n : ℕ} {producer : QueueImpl T} {reader : StreamReader T}
    {contentAllocator : Bool} {log : List (Obs (Fin 1) α)}
    (hmake : make T n 1 = some ⟨producer, [reader]⟩)
    (h : (objectMachine T 1 α).Reaches (.start α ⟨producer, [reader]⟩ contentAllocator) s log) :
    reads 0 log <+: (numbered (writes log)).map some ∧
      (∀ g ∈ (s.readers 0).guards, g.owner ≠ dummyReaderId T → g.pc = .alive →
        (reads 0 log)[g.number]? = some (s.ring g.bucket).storage ∧
          (s.ring g.bucket).storage = (numbered (writes log))[g.number]?) ∧
      (∀ e s' os, s.tryWrite e = some (s', os) →
        (.refused e ∈ os ↔
          ∃ i, i + producer.capacity = (writes log).length ∧ .freed i ∉ log) ∧
        (.refused e ∈ os → s' = s)) := by
  obtain ⟨C, -, hC, -, hpair⟩ := make_eq_some hmake
  simp only [ProducerAndConsumers.mk.injEq, List.cons.injEq, and_true] at hpair
  obtain ⟨rfl, rfl⟩ := hpair
  rw [producerAfter_capacity hC]
  obtain ⟨legal, rel⟩ := (object_simulates hC).reaches (objectRel_start hC contentAllocator) h
  have track := tracks_of_legal legal
  refine ⟨reads_isPrefix legal 0, fun g hg howner hpc => ?_, fun e s' os hs => ?_⟩
  · obtain ⟨j, hj⟩ := List.getElem?_of_mem hg
    rcases rel with ⟨phase, rel⟩ | rel
    · obtain ⟨hlt, hst⟩ := rel.guard_storage hj howner hpc
      rw [track.cursor] at hlt
      rw [State.item_eq_numbered, track.written] at hst
      exact ⟨hst ▸ reads_getElem legal 0 hlt, hst⟩
    · exact absurd (rel.spent.moved 0 g hg).1 howner
  · have := rel.refused_iff hC hs
    simpa only [track.written, track.freed] using this

/-- The second of two guards is released first, while the other one is moved. -/
theorem object_longLivedGuards_uint8 : ∃ producer reader s log,
    make .uint8 3 1 = some ⟨producer, [reader]⟩ ∧
      (objectMachine .uint8 1 ℕ).Reaches (.start ℕ ⟨producer, [reader]⟩ false) s log ∧
      log = [.offered 7, .wrote 7, .offered 8, .wrote 8, .read 0 (some ⟨0, 7⟩),
        .read 0 (some ⟨1, 8⟩), .dropped 0 1, .destroyed (some 0) (some ⟨1, 8⟩), .freed 1,
        .empty 0] ∧
      reads 0 log <+: (numbered (writes log)).map some ∧
      ∀ g ∈ (s.readers 0).guards, g.owner ≠ dummyReaderId .uint8 → g.pc = .alive →
        (reads 0 log)[g.number]? = some (s.ring g.bucket).storage ∧
          (s.ring g.bucket).storage = (numbered (writes log))[g.number]? := by
  have hmake : make .uint8 3 1 = some ⟨producerAfter .uint8 4 1, [.new 3 0]⟩ := by decide
  have hrun := Machine.Reaches.of_run (show (objectMachine .uint8 1 ℕ).run
    (.start ℕ ⟨producerAfter .uint8 4 1, [.new 3 0]⟩ false)
    [.tryWrite 7, .writer, .writer, .tryWrite 8, .writer, .writer, .tryRead 0, .tryRead 0,
      .destroyGuard 0 1, .moveGuard 0 0, .guard 0 1, .tryRead 0] = some (_, _) from rfl)
  obtain ⟨hreads, hguards, -⟩ := object_longLivedGuards hmake hrun
  exact ⟨_, _, _, _, hmake, hrun, rfl, hreads, hguards⟩

end Ihft.Channel.One2One
