import Ihft.Channel.Sequential
import Ihft.Channel.One2One.Pod
import Ihft.Channel.One2One.Object

/-!
# One-to-one queues used by one thread

The calls of the one-to-one queues without interruption.  Each is a run of the machine of its
queue, so it refines the call of the abstract broadcast.
-/

namespace Ihft.Channel.One2One

open Observe

variable {T : SeqnumCounter} {α : Type*}

/-! ## Plain events -/

/-- `one2one_seqnum_stream_pod_queue::try_write` and `one2one_seqnum_stream_pod_reader::try_read`. -/
def podCall (s : PodState T α) : PodCall α → PodState T α × PodResult α
  | .tryWrite event =>
    let w := s.writer.impl
    if (s.ring w.nextBucket).seqn = dummyEventSeqNum T then
      let ring := setStorage s.ring w.nextBucket (some event)
      ({ s with ring := setSeqn ring w.nextBucket w.seqn, writer := ⟨w.advance, .idle⟩ },
        .wrote true)
    else
      (s, .wrote false)
  | .tryRead =>
    let b := s.reader.nextBucket
    if (s.ring b).seqn = s.reader.next then
      ({ s with ring := setSeqn s.ring b (dummyEventSeqNum T), reader := s.reader.advance },
        .read (some (s.ring b).storage))
    else
      (s, .read none)

/-- Between calls the queue stands for an abstract broadcast. -/
structure PodIdle (C : ℕ) (s : PodState T α) (a : Broadcast.State (Fin 1) α) : Prop where
  rel : PodRel C s a
  writer : s.writer.pc = .idle
  reader : s.readerPc = .idle

theorem podIdle_of_run {C : ℕ} (hC : IsCapacity T C) {s s' : PodState T α}
    {a : Broadcast.State (Fin 1) α} {is : List (PodInput 1 α)}
    {os : List (Broadcast.Obs (Fin 1) α)} (h : PodIdle C s a)
    (hrun : (podMachine T α).run s is = some (s', os)) (hw : s'.writer.pc = .idle)
    (hr : s'.readerPc = .idle) : (Broadcast.spec (Fin 1) α C).Legal a os ∧
      PodIdle C s' ((Broadcast.spec (Fin 1) α C).after a os) := by
  obtain ⟨legal, rel⟩ := (pod_simulates hC).reaches h.rel (Machine.Reaches.of_run hrun)
  exact ⟨legal, rel, hw, hr⟩

theorem podCall_refines {C : ℕ} (hC : IsCapacity T C) {s : PodState T α}
    {a : Broadcast.State (Fin 1) α} (h : PodIdle C s a) (i : PodCall α) :
    PodIdle C (podCall s i).1 (Channel.podCall C a i).1 ∧
      (podCall s i).2 = (Channel.podCall C a i).2 := by
  cases i with
  | tryWrite e =>
    by_cases hload : (s.ring s.writer.impl.nextBucket).seqn = dummyEventSeqNum T
    · have hrun : (podMachine T α).run s [.tryWrite e, .writer, .writer] =
          some ((podCall s (.tryWrite e)).1, [.wrote e]) := by
        simp only [Machine.run, podMachine, PodState.tryWrite, Writer.tryWrite, h.writer, hload,
          podCall, if_true]
        rfl
      obtain ⟨⟨hroom, -⟩, hidle⟩ := podIdle_of_run hC h hrun
        (by simp only [podCall, hload, if_true]) (by simp only [podCall, hload, if_true, h.reader])
      have hroom : a.written.length < a.taken 0 + C := hroom 0
      simp only [Channel.podCall, if_pos hroom]
      exact ⟨hidle, by simp only [podCall, hload, if_true]⟩
    · have hrun : (podMachine T α).run s [.tryWrite e] =
          some ((podCall s (.tryWrite e)).1, [.refused e]) := by
        simp only [Machine.run, podMachine, PodState.tryWrite, Writer.tryWrite, h.writer, hload,
          podCall, if_false]
        rfl
      obtain ⟨⟨⟨r, hfull⟩, -⟩, hidle⟩ := podIdle_of_run hC h hrun
        (by simp only [podCall, hload, if_false, h.writer])
        (by simp only [podCall, hload, if_false, h.reader])
      rw [Fin.fin_one_eq_zero r] at hfull
      simp only [Channel.podCall, if_neg (not_lt.2 hfull)]
      exact ⟨hidle, by simp only [podCall, hload, if_false]⟩
  | tryRead =>
    by_cases hload : (s.ring s.reader.nextBucket).seqn = s.reader.next
    · have hrun : (podMachine T α).run s [.tryRead 0, .reader 0, .reader 0] =
          some ((podCall s .tryRead).1, [.read 0 (s.ring s.reader.nextBucket).storage]) := by
        simp only [Machine.run, podMachine, PodState.tryRead, h.reader, hload, podCall, if_true,
          PodState.resumeReader]
        rfl
      obtain ⟨⟨⟨hlt, hopt⟩, -⟩, hidle⟩ := podIdle_of_run hC h hrun
        (by simp only [podCall, hload, if_true, h.writer])
        (by simp only [podCall, hload, if_true, h.reader])
      simp only [Channel.podCall, if_pos hlt]
      exact ⟨hidle, by simp only [podCall, hload, if_true, hopt]⟩
    · have hrun : (podMachine T α).run s [.tryRead 0] = some ((podCall s .tryRead).1, [.empty 0]) := by
        simp only [Machine.run, podMachine, PodState.tryRead, h.reader, hload, podCall, if_false]
        rfl
      obtain ⟨⟨heq, -⟩, hidle⟩ := podIdle_of_run hC h hrun
        (by simp only [podCall, hload, if_false, h.writer])
        (by simp only [podCall, hload, if_false, h.reader])
      have hno : ¬ a.taken 0 < a.written.length := by
        rw [show a.taken 0 = a.written.length from heq]
        exact lt_irrefl _
      simp only [Channel.podCall, if_neg hno]
      exact ⟨hidle, by simp only [podCall, hload, if_false]⟩

theorem podIdle_start {C : ℕ} : PodIdle (α := α) C
    (.start (producerAfter T C 1) (.new (C - 1) 0)) Broadcast.start :=
  ⟨podRel_start C, rfl, rfl⟩

/-! ## Objects -/

open GuardedBroadcast

/-- `one2one_seqnum_stream_object_queue::try_write`, `one2one_seqnum_stream_object_reader::try_read`
and the move constructor and destructor of a guard. -/
def objectCall (s : ObjectState T 1 α) : ObjectCall α → ObjectState T 1 α × ObjectResult α
  | .tryWrite event =>
    let w := s.writer.impl
    if (s.ring w.nextBucket).seqn = dummyEventSeqNum T then
      let ring := setStorage s.ring w.nextBucket (some ⟨s.written, event⟩)
      ({ s with
          ring := setSeqn ring w.nextBucket w.seqn
          writer := ⟨w.advance, .idle⟩
          written := s.written + 1 }, .wrote true)
    else
      (s, .wrote false)
  | .tryRead =>
    let reader := (s.readers 0).reader
    let bucket := s.ring reader.nextBucket
    if bucket.seqn = reader.next then
      ({ s with toObjectCore := s.takeGuard 0 }, .read (some bucket.storage))
    else
      (s, .read none)
  | .moveGuard j =>
    let guards := (s.readers 0).guards
    match guards[j]? with
    | none => (s, .absent)
    | some g =>
      ({ s with toObjectCore := s.setGuards 0 (moveGuardAt (dummyReaderId T) guards j g) }, .moved)
  | .releaseGuard j =>
    let guards := (s.readers 0).guards
    match guards[j]? with
    | none => (s, .absent)
    | some g =>
      let core := s.setGuards 0 (guards.eraseIdx j)
      if g.owner ≠ dummyReaderId T then
        let ring := setStorage s.ring g.bucket none
        ({ s with toObjectCore := core, ring := setSeqn ring g.bucket (dummyEventSeqNum T) },
          .released [(s.ring g.bucket).storage])
      else
        ({ s with toObjectCore := core }, .released [])

/-- Between calls the queue stands for the sequential queue. -/
structure ObjectIdle (C : ℕ) (s : ObjectState T 1 α) (q : SeqState α) : Prop where
  rel : ∃ phase, OpenRel C phase s q.broadcast
  writer : s.writer.pc = .idle
  core : CoreIdle (dummyReaderId T) s.toObjectCore q.guards

variable {C : ℕ} {s s' : ObjectState T 1 α} {q : SeqState α}

theorem ObjectRel.openRel {a : State (Fin 1) α} (h : ObjectRel C s a) (hp : s.producer = true) :
    ∃ phase, OpenRel C phase s a := by
  refine h.resolve_right fun hclosed => ?_
  rw [hclosed.spent.producer] at hp
  cases hp

/-- A run keeps the queue in step with the abstract broadcast. -/
theorem ObjectIdle.run (hC : IsCapacity T C) (h : ObjectIdle C s q) {is : List (ObjectInput 1 α)}
    {os : List (Obs (Fin 1) α)} (hrun : (objectMachine T 1 α).run s is = some (s', os))
    (hp : s'.producer = true) : (spec (Fin 1) α C).Legal q.broadcast os ∧
      ∃ phase, OpenRel C phase s' ((spec (Fin 1) α C).after q.broadcast os) := by
  obtain ⟨phase, hrel⟩ := h.rel
  obtain ⟨legal, rel⟩ := (object_simulates hC).reaches (.inl ⟨phase, hrel⟩)
    (Machine.Reaches.of_run hrun)
  exact ⟨legal, rel.openRel hp⟩

theorem ObjectIdle.tryWrite (hC : IsCapacity T C) (h : ObjectIdle C s q) (e : α) :
    ObjectIdle C (objectCall s (.tryWrite e)).1 (Channel.objectCall C q (.tryWrite e)).1 ∧
      (objectCall s (.tryWrite e)).2 = (Channel.objectCall C q (.tryWrite e)).2 := by
  by_cases hload : (s.ring s.writer.impl.nextBucket).seqn = dummyEventSeqNum T
  · have hrun : (objectMachine T 1 α).run s [.tryWrite e, .writer, .writer] =
        some ((objectCall s (.tryWrite e)).1, [.offered e, .wrote e]) := by
      simp only [Machine.run, objectMachine, ObjectState.tryWrite, Writer.tryWrite, h.writer,
        if_pos h.core.producer, hload, objectCall, if_true]
      rfl
    simp only [objectCall, hload, if_true] at hrun ⊢
    obtain ⟨⟨-, ⟨-, -, hfree⟩, -⟩, hrel⟩ := h.run hC hrun h.core.producer
    have hno : ¬ Occupied C q.broadcast q.broadcast.written.length := by
      rw [occupied_iff]
      rintro ⟨i, hi, hfreed⟩
      exact hfreed (hfree i hi)
    simp only [Channel.objectCall, if_neg hno]
    exact ⟨⟨hrel, rfl, h.core.producer, h.core.alive, h.core.pc, h.core.guards⟩, trivial⟩
  · have hrun : (objectMachine T 1 α).run s [.tryWrite e] =
        some (s, [.offered e, .refused e]) := by
      simp only [Machine.run, objectMachine, ObjectState.tryWrite, Writer.tryWrite, h.writer,
        if_pos h.core.producer, hload, if_false]
      rfl
    obtain ⟨⟨-, ⟨-, -, hfull⟩, -⟩, -⟩ := h.run hC hrun h.core.producer
    have hocc : Occupied C q.broadcast q.broadcast.written.length := occupied_iff.2 hfull
    simp only [objectCall, hload, if_false, Channel.objectCall, if_pos hocc]
    exact ⟨h, trivial⟩

theorem ObjectIdle.tryRead (hC : IsCapacity T C) (h : ObjectIdle C s q) :
    ObjectIdle C (objectCall s .tryRead).1 (Channel.objectCall C q .tryRead).1 ∧
      (objectCall s .tryRead).2 = (Channel.objectCall C q .tryRead).2 := by
  by_cases hload : (s.ring (s.readers 0).reader.nextBucket).seqn = (s.readers 0).reader.next
  · have hrun : (objectMachine T 1 α).run s [.tryRead 0] = some ((objectCall s .tryRead).1,
        [.read 0 (s.ring (s.readers 0).reader.nextBucket).storage]) := by
      simp only [Machine.run, objectMachine, ObjectState.tryRead, h.core.alive, hload, objectCall,
        if_true]
      rfl
    simp only [objectCall, hload, if_true] at hrun ⊢
    obtain ⟨⟨⟨-, hlt, hitem⟩, -⟩, hrel⟩ := h.run hC hrun h.core.producer
    obtain ⟨phase, hopen⟩ := h.rel
    rw [hitem] at hrel ⊢
    simp only [Channel.objectCall, if_pos hlt]
    have hcore := h.core.takeGuard (hopen.core.id 0)
    rw [hopen.core.taken] at hcore
    exact ⟨⟨hrel, h.writer, hcore⟩, trivial⟩
  · have hrun : (objectMachine T 1 α).run s [.tryRead 0] = some (s, [.empty 0]) := by
      simp only [Machine.run, objectMachine, ObjectState.tryRead, h.core.alive, hload, if_true, if_false]
      rfl
    obtain ⟨⟨⟨-, heq⟩, -⟩, -⟩ := h.run hC hrun h.core.producer
    have hno : ¬ q.broadcast.cursor 0 < q.broadcast.written.length := by omega
    simp only [objectCall, hload, if_false, Channel.objectCall, if_neg hno]
    exact ⟨h, trivial⟩

theorem ObjectIdle.moveGuard (h : ObjectIdle C s q) (j : ℕ) :
    ObjectIdle C (objectCall s (.moveGuard j)).1 (Channel.objectCall C q (.moveGuard j)).1 ∧
      (objectCall s (.moveGuard j)).2 = (Channel.objectCall C q (.moveGuard j)).2 := by
  have hnumber := h.core.getElem j
  cases hj : (s.readers 0).guards[j]? with
  | none =>
    rw [hj] at hnumber
    simp only [objectCall, hj, Channel.objectCall, hnumber, Option.map_none]
    exact ⟨h, trivial⟩
  | some g =>
    rw [hj] at hnumber
    obtain ⟨phase, hopen⟩ := h.rel
    have hmoved := (hopen.core.guards 0).move hj (h.core.pc g (List.mem_of_getElem? hj))
    simp only [objectCall, hj, Channel.objectCall, hnumber, Option.map_some]
    exact ⟨⟨⟨phase, hopen.core.setGuards hmoved, hopen.ring⟩, h.writer, h.core.moveGuard hj⟩,
      trivial⟩

theorem ObjectIdle.releaseGuard (hC : IsCapacity T C) (h : ObjectIdle C s q) (j : ℕ) :
    ObjectIdle C (objectCall s (.releaseGuard j)).1 (Channel.objectCall C q (.releaseGuard j)).1 ∧
      (objectCall s (.releaseGuard j)).2 = (Channel.objectCall C q (.releaseGuard j)).2 := by
  have hnumber := h.core.getElem j
  cases hj : (s.readers 0).guards[j]? with
  | none =>
    rw [hj] at hnumber
    simp only [objectCall, hj, Channel.objectCall, hnumber, Option.map_none]
    exact ⟨h, trivial⟩
  | some g =>
    rw [hj] at hnumber
    obtain ⟨phase, hopen⟩ := h.rel
    have hpc := h.core.pc g (List.mem_of_getElem? hj)
    by_cases howner : g.owner = dummyReaderId T
    · simp only [howner, if_true, Option.map_some] at hnumber
      simp only [objectCall, hj, Channel.objectCall, hnumber, howner, ne_eq, not_true_eq_false,
        if_false]
      exact ⟨⟨⟨phase, hopen.core.eraseMoved hj howner, hopen.ring⟩, h.writer, h.core.eraseGuard j⟩,
        trivial⟩
    · obtain ⟨bucket, owner, k, pc⟩ := g
      obtain rfl : pc = .alive := hpc
      have hrun : (objectMachine T 1 α).run s [.destroyGuard 0 j, .guard 0 j] =
          some ((objectCall s (.releaseGuard j)).1,
            [.dropped 0 k, .destroyed (some 0) (s.ring bucket).storage, .freed k]) := by
        obtain ⟨hlen, -⟩ := List.getElem?_eq_some_iff.1 hj
        simp only [Machine.run, objectMachine, ObjectState.destroyGuard, hj, if_pos howner,
          ObjectState.resumeGuard, ObjectCore.setGuards_guards, List.getElem?_set_self hlen,
          ObjectCore.setGuards_setGuards, List.eraseIdx_set_eq, objectCall]
        rfl
      have hstorage := (hopen.guard_storage hj howner rfl).2
      simp only [objectCall, hj, if_pos howner] at hrun ⊢
      obtain ⟨-, hrel⟩ := h.run hC hrun h.core.producer
      simp only [howner, if_false, Option.map_some] at hnumber
      simp only at hstorage
      rw [hstorage] at hrel ⊢
      simp only [Channel.objectCall, hnumber]
      exact ⟨⟨hrel, h.writer, h.core.eraseGuard j⟩, trivial⟩

theorem objectCall_refines (hC : IsCapacity T C) (h : ObjectIdle C s q) (i : ObjectCall α) :
    ObjectIdle C (objectCall s i).1 (Channel.objectCall C q i).1 ∧
      (objectCall s i).2 = (Channel.objectCall C q i).2 := by
  cases i with
  | tryWrite e => exact h.tryWrite hC e
  | tryRead => exact h.tryRead hC
  | moveGuard j => exact h.moveGuard j
  | releaseGuard j => exact h.releaseGuard hC j

theorem objectIdle_start (hC : IsCapacity T C) (contentAllocator : Bool) :
    ObjectIdle C (.start α ⟨producerAfter T C 1, [.new (C - 1) 0]⟩ contentAllocator)
      SeqState.start where
  rel := (objectRel_start hC contentAllocator).openRel rfl
  writer := rfl
  core := ⟨rfl, rfl, by simp [ObjectState.start, ObjectCore.start], rfl⟩

/-- Between calls the bucket of the slot `k` is taken by the event that was not given back. -/
theorem ObjectIdle.destructor (h : ObjectIdle C s q) {k : ℕ}
    (hk : q.broadcast.written.length ≤ k) (hk' : k < q.broadcast.written.length + C) :
    (s.ring (k % C)).destructor.2 =
      if Occupied C q.broadcast k then [q.broadcast.item (k - C)] else [] := by
  obtain ⟨phase, hopen⟩ := h.rel
  exact hopen.destructor h.core.settled hk hk'

end Ihft.Channel.One2One
