import Ihft.Logger.Delivery

/-!
# What is left in the queues

As long as the adapter lives, the two ends of every queue are there.  A consumer has an event to
read exactly when fewer of its events were taken than its queue accepted (`readable_iff`).
-/

namespace Ihft.Logger

open Observe GuardedBroadcast Channel

variable {δ ε : Type*}

/-- Both ends of every queue are there. -/
def LoggerAdapter.InUse (s : LoggerAdapter δ ε) : Prop :=
  ∀ (c : ℕ) (x : ClientState LoggerQueue ε), s.clients[c]? = some x →
    (x.queue.readers 0).alive = true ∧ x.pc ≠ .gone

/-- No consumer has an event to read. -/
def LoggerAdapter.Empty (s : LoggerAdapter δ ε) : Prop :=
  ∀ (c : ℕ) (x : ClientState LoggerQueue ε), s.clients[c]? = some x → ¬ x.queue.Readable

theorem LoggerAdapter.empty_iff_forall_mem {s : LoggerAdapter δ ε} :
    s.Empty ↔ ∀ x ∈ s.clients, ¬ x.queue.Readable := by
  constructor
  · intro h x hx
    obtain ⟨c, hc⟩ := List.getElem?_of_mem hx
    exact h c x hc
  · exact fun h c x hx => h x (List.mem_of_getElem? hx)

instance (s : LoggerAdapter δ ε) : Decidable s.Empty :=
  decidable_of_iff' _ LoggerAdapter.empty_iff_forall_mem

/-- The next step of the producer is the store that publishes its event. -/
def LoggerQueue.Publishes (queue : LoggerQueue) : Prop :=
  match queue.writer.pc with
  | .publish _ => True
  | _ => False

instance (queue : LoggerQueue) : Decidable queue.Publishes := by
  unfold LoggerQueue.Publishes
  split <;> infer_instance

/-- The step `i` is the one by which a queue accepts an event. -/
def LoggerAdapter.Accepts (s : LoggerAdapter δ ε) (i : AdapterInput δ ε) : Prop :=
  ∃ c x, i = .client c (.queue .writer) ∧ s.clients[c]? = some x ∧ x.queue.Publishes

/-- A listener was notified of every event that was accepted. -/
def AllNotified (log : List (AdapterObs δ ε)) : Prop :=
  ∀ c, ∀ event ∈ acceptedFrom c log, ∃ d listener text, .notified d c event listener text ∈ log

/-! ## The ends of one queue -/

section Ends

variable {x x' : ClientState LoggerQueue ε} {os : List (ClientObs 1 ε)}

theorem observe_pc_ne_gone {y : ClientState LoggerQueue ε} (h : y.pc ≠ .gone)
    (o : Obs (Fin 1) Box) : (y.observe o).1.pc ≠ .gone := by
  cases o <;> first | exact h | simp [ClientState.observe]

theorem observeAll_pc_ne_gone {y : ClientState LoggerQueue ε} (h : y.pc ≠ .gone)
    (qs : List (Obs (Fin 1) Box)) : (y.observeAll qs).1.pc ≠ .gone := by
  induction qs generalizing y with
  | nil => exact h
  | cons o qs ih => exact ih (observe_pc_ne_gone h o)

/-- A reader goes with its destructor only. -/
theorem alive_eq_of_step {T : SeqnumCounter} {R : ℕ} {α : Type*} {s s' : ObjectCore T R}
    {i : ObjectInput R α} {os : List (Obs (Fin R) α)} (h : ObjectStep s i s' os)
    (hi : ∀ r, i ≠ .dropReader r) (r : Fin R) : (s'.readers r).alive = (s.readers r).alive := by
  cases h with
  | offered | refused | writing | wrote | empty => rfl
  | read r' =>
    rcases eq_or_ne r r' with rfl | hne
    · simp [ObjectCore.takeGuard, ObjectCore.setReader]
    · simp [ObjectCore.takeGuard, ObjectCore.setReader, hne]
  | guard r' => exact s.setGuards_alive r' r _
  | left hleaves | teardown hleaves =>
    cases hleaves with
    | producer => rfl
    | reader r' => exact absurd rfl (hi r')

theorem queue_of_stepQueue {i : ObjectInput 1 Box}
    (h : x.stepQueue LoggerQueue.machine i = some (x', os)) : ∃ queue qs,
      LoggerQueue.machine.step x.queue i = some (queue, qs) ∧ x'.queue = queue ∧
      (x.pc ≠ .gone → x'.pc ≠ .gone) := by
  unfold ClientState.stepQueue at h
  split at h
  · cases h
  · rename_i queue qs hstep
    obtain rfl : (ClientState.observeAll { x with queue := queue } qs).1 = x' :=
      congrArg Prod.fst (Option.some.inj h)
    refine ⟨queue, qs, hstep, observeAll_queue .., fun hpc => ?_⟩
    exact observeAll_pc_ne_gone (y := { x with queue := queue }) hpc qs

theorem inUse_of_stepQueue {i : ObjectInput 1 Box} (hi : ∀ r, i ≠ .dropReader r)
    (halive : (x.queue.readers 0).alive = true) (hpc : x.pc ≠ .gone)
    (h : x.stepQueue LoggerQueue.machine i = some (x', os)) :
    (x'.queue.readers 0).alive = true ∧ x'.pc ≠ .gone := by
  obtain ⟨queue, qs, hstep, rfl, hgone⟩ := queue_of_stepQueue h
  exact ⟨(alive_eq_of_step (One2One.step_cases hstep) hi 0).trans halive, hgone hpc⟩

theorem inUse_of_producer {i : ClientInput 1 ε} (hi : i.OfProducer)
    (halive : (x.queue.readers 0).alive = true) (hpc : x.pc ≠ .gone)
    (h : (loggerClient ε).step x i = some (x', os)) :
    (x'.queue.readers 0).alive = true ∧ x'.pc ≠ .gone := by
  rcases producer_cases hi h with ⟨hqueue, hgone, -⟩ | ⟨j, hj, hstep⟩
  · rw [hqueue]
    exact ⟨halive, hgone⟩
  · apply inUse_of_stepQueue _ halive hpc hstep
    rcases hj with ⟨box, rfl⟩ | ⟨rfl, -⟩ <;> simp

theorem written_eq_of_objectStep {T : SeqnumCounter} {R : ℕ} {α : Type*} {s s' : ObjectCore T R}
    {i : ObjectInput R α} {os : List (Obs (Fin R) α)} (h : ObjectStep s i s' os)
    (hi : i ≠ .writer) : s'.written = s.written := by
  cases h with
  | offered | refused | read | empty | guard => rfl
  | writing | wrote => exact absurd rfl hi
  | left hleaves | teardown hleaves => cases hleaves <;> rfl

/-- Only the store counts. -/
theorem written_eq_of_step {queue queue' : LoggerQueue} {i : ObjectInput 1 Box}
    {qs : List (Obs (Fin 1) Box)} (h : LoggerQueue.machine.step queue i = some (queue', qs))
    (hi : ¬ (i = .writer ∧ queue.Publishes)) : queue'.written = queue.written := by
  by_cases hwriter : i = .writer
  · subst hwriter
    change queue.resumeWriter = _ at h
    unfold One2One.ObjectState.resumeWriter One2One.Writer.resume at h
    cases hpc : queue.writer.pc with
    | idle => simp [hpc] at h
    | construct event =>
      simp only [hpc, Option.some.injEq, Prod.mk.injEq] at h
      rw [← h.1]
      rfl
    | publish event =>
      refine absurd ⟨rfl, ?_⟩ hi
      simp only [LoggerQueue.Publishes, hpc]
  · exact written_eq_of_objectStep (One2One.step_cases h) hwriter

theorem written_eq_of_stepQueue {i : ObjectInput 1 Box} (hi : ¬ (i = .writer ∧ x.queue.Publishes))
    (h : x.stepQueue LoggerQueue.machine i = some (x', os)) :
    x'.queue.written = x.queue.written := by
  obtain ⟨queue, qs, hstep, rfl, -⟩ := queue_of_stepQueue h
  exact written_eq_of_step hstep hi

theorem written_eq_of_producer {i : ClientInput 1 ε} (hi : i.OfProducer)
    (hno : ¬ (i = .queue .writer ∧ x.queue.Publishes))
    (h : (loggerClient ε).step x i = some (x', os)) : x'.queue.written = x.queue.written := by
  rcases producer_cases hi h with ⟨hqueue, -, -⟩ | ⟨j, ⟨box, rfl⟩ | ⟨rfl, hwriter⟩, hstep⟩
  · rw [hqueue]
  · exact written_eq_of_stepQueue (by simp) hstep
  · exact written_eq_of_stepQueue (fun hpublishes => hno ⟨hwriter, hpublishes.2⟩) hstep

/-- An open queue has an event to read exactly when not everything written was taken. -/
theorem readable_iff_of_open {phase : Fin 1 → ℕ → Option GuardPc} {queue : LoggerQueue}
    {a : State (Fin 1) Box} (h : One2One.OpenRel queueSize phase queue a)
    (halive : (queue.readers 0).alive = true) :
    queue.Readable ↔ (queue.readers 0).taken < queue.written := by
  rw [h.core.written, h.core.taken]
  have hle := h.core.coherent.cursor_le 0
  by_cases hseqn : (queue.ring (queue.readers 0).reader.nextBucket).seqn =
      (queue.readers 0).reader.next
  · have hread : queue.tryRead 0 = some ({ queue with toObjectCore := queue.takeGuard 0 },
        [.read 0 (queue.ring (queue.readers 0).reader.nextBucket).storage]) := by
      simp only [One2One.ObjectState.tryRead, halive, hseqn, if_true]
    rcases (h.tryRead isCapacity_queueSize hread).2 with ⟨-, hlt⟩ | ⟨hempty, -⟩
    · exact iff_of_true ⟨halive, hseqn⟩ hlt
    · simp at hempty
  · have hread : queue.tryRead 0 = some (queue, [.empty 0]) := by
      simp only [One2One.ObjectState.tryRead, halive, hseqn, if_true, if_false]
    rcases (h.tryRead isCapacity_queueSize hread).2 with ⟨hempty, -⟩ | ⟨-, -, heq⟩
    · simp at hempty
    · exact iff_of_false (fun hreadable => hseqn hreadable.2) (by omega)

end Ends

/-! ## The ends of all queues -/

section Runs

variable [DecidableEq δ] {print : ε → OStringStream → OStringStream} {sstream : OStringStream}
  {listener : ℕ} {s s' : LoggerAdapter δ ε} {log os : List (AdapterObs δ ε)}
  {i : AdapterInput δ ε} {c : ℕ} {x : ClientState LoggerQueue ε}

omit [DecidableEq δ] in
theorem inUse_newClient (h : newClient ε = some x) :
    (x.queue.readers 0).alive = true ∧ x.pc ≠ .gone := by
  rw [newClient_eq, Option.some.injEq] at h
  subst h
  exact ⟨rfl, by simp [ClientState.start]⟩

omit [DecidableEq δ] in
theorem LoggerAdapter.InUse.setClient (h : s.InUse) {c : ℕ} {x : ClientState LoggerQueue ε}
    (hx : (x.queue.readers 0).alive = true ∧ x.pc ≠ .gone) : (s.setClient c x).InUse := by
  intro c' x' hx'
  change (s.clients.set c x)[c']? = some x' at hx'
  rw [List.getElem?_set] at hx'
  split_ifs at hx'
  · rwa [← Option.some.inj hx']
  · exact h c' x' hx'

theorem LoggerAdapter.InUse.step (h : s.InUse) (hs : AdapterStep print s i s' os) : s'.InUse := by
  cases hs with
  | registered x mutex hx =>
    intro c x' hx'
    rcases Nat.lt_or_ge c s.clients.length with hlt | hge
    · rw [List.getElem?_append_left hlt] at hx'
      exact h c x' hx'
    · rw [List.getElem?_append_right hge] at hx'
      have hmem := List.mem_of_getElem? hx'
      rw [List.mem_singleton.1 hmem]
      exact inUse_newClient hx
  | replaced | called | missed | notified | finished => exact h
  | client c j hj x x' os' hx hstep =>
    obtain ⟨halive, hpc⟩ := h c x hx
    exact h.setClient (inUse_of_producer hj halive hpc hstep)
  | empty d k hpc hk x x' hx hstep =>
    obtain ⟨halive, hgone⟩ := h _ x hx
    exact h.setClient (inUse_of_stepQueue (by simp) halive hgone hstep)
  | taken d k n hpc hk x x' event hx hstep =>
    obtain ⟨halive, hgone⟩ := h _ x hx
    exact h.setClient (inUse_of_stepQueue (by simp) halive hgone hstep)
  | released d k c n j pc input hpc x x' os' hx hstep =>
    obtain ⟨halive, hgone⟩ := h c x hx
    apply h.setClient
    rcases hpc with ⟨-, rfl, -⟩ | ⟨-, rfl, -⟩
    · exact inUse_of_stepQueue (by simp) halive hgone hstep
    · exact inUse_of_stepQueue (by simp) halive hgone hstep

theorem inUse_of_reaches (h : (adapterMachine print).Reaches (.start sstream listener) s log) :
    s.InUse := by
  refine h.invariant (I := fun s _ => s.InUse) ?_ fun _ _ _ _ _ hi hs =>
    hi.step (adapterStep_of_step hs)
  intro c x hx
  exact inUse_newClient (Option.mem_toList.1 (List.mem_of_getElem? hx))

/-- The events behind the boxes in the queue of the client `c`. -/
abbrev accountOf (c : ℕ) (log : List (AdapterObs δ ε)) : State (Fin 1) Box :=
  boxed (queueSize + 1) (broadcastOf queueSize (clientLog c log))

/-- The queue of every client is open. -/
theorem openRel_of_reaches (h : (adapterMachine print).Reaches (.start sstream listener) s log)
    (hx : s.clients[c]? = some x) :
    ∃ phase, One2One.OpenRel queueSize phase x.queue (accountOf c log) := by
  have hrel := (clientsOk_of_reaches h).rel hx
  rcases hrel.queue with hopen | hclosed
  · exact hopen
  · have hproducer := hrel.producer (inUse_of_reaches h c x hx).2
    rw [hclosed.spent.producer] at hproducer
    cases hproducer

/-- What the producer counts. -/
theorem written_eq_accepted (h : (adapterMachine print).Reaches (.start sstream listener) s log)
    (hx : s.clients[c]? = some x) : x.queue.written = (acceptedFrom c log).length := by
  obtain ⟨phase, hopen⟩ := openRel_of_reaches h hx
  have hok := ((clientsOk_of_reaches h).rel hx).ok
  rw [hopen.core.written, boxed_length, hok.written_eq, acceptedFrom_length]

/-- What the consumer counts. -/
theorem taken_eq_length (h : (adapterMachine print).Reaches (.start sstream listener) s log)
    (hx : s.clients[c]? = some x) : (x.queue.readers 0).taken = (takenFrom c log).length := by
  obtain ⟨phase, hopen⟩ := openRel_of_reaches h hx
  have hok := ((clientsOk_of_reaches h).rel hx).ok
  rw [hopen.core.taken, takenFrom_eq_reads h]
  exact (tracks_of_legal hok.legal).cursor 0

/-- The consumer has an event to read exactly when not everything accepted was taken. -/
theorem readable_iff (h : (adapterMachine print).Reaches (.start sstream listener) s log)
    (hx : s.clients[c]? = some x) :
    x.queue.Readable ↔ (x.queue.readers 0).taken < x.queue.written := by
  obtain ⟨phase, hopen⟩ := openRel_of_reaches h hx
  exact readable_iff_of_open hopen (inUse_of_reaches h c x hx).1

/-- The queues are empty exactly when everything accepted was taken. -/
theorem empty_iff (h : (adapterMachine print).Reaches (.start sstream listener) s log) :
    s.Empty ↔ ∀ c, (acceptedFrom c log).length ≤ (takenFrom c log).length := by
  constructor
  · intro hempty c
    cases hx : s.clients[c]? with
    | none =>
      rw [acceptedFrom_length, (clientsOk_of_reaches h c).2 hx]
      exact Nat.zero_le _
    | some x =>
      have hreadable := mt (readable_iff h hx).2 (hempty c x hx)
      rw [written_eq_accepted h hx, taken_eq_length h hx] at hreadable
      exact not_lt.1 hreadable
  · intro hle c x hx hreadable
    have hlt := (readable_iff h hx).1 hreadable
    rw [written_eq_accepted h hx, taken_eq_length h hx] at hlt
    exact absurd (hle c) (not_le.2 hlt)

/-- When no text waits in the stream, the events passed on are the events taken. -/
theorem notified_iff_taken (h : (adapterMachine print).Reaches (.start sstream listener) s log)
    (hidle : ∀ d, ¬ (s.pc d).Pending) {event : Option (Stored (LoggerEvent ε))} :
    (∃ d listener text, .notified d c event listener text ∈ log) ↔ event ∈ takenFrom c log := by
  have heq : ∀ d, (takes d log).map (fun x => (x.1, x.2.1)) =
      (notices d log).map fun x => (x.1, x.2.1) := by
    intro d
    rw [taken_events_eq h d, LoggerAdapter.pending_eq_nil (hidle d), List.map_nil, List.append_nil]
  rw [mem_takenFrom]
  constructor
  · rintro ⟨d, listener', text, hmem⟩
    have hnotice := List.mem_map_of_mem (f := fun x => (x.1, x.2.1)) (mem_notices.2 ⟨_, hmem⟩)
    rw [← heq d] at hnotice
    obtain ⟨⟨_, _, text'⟩, htake, hsame⟩ := List.mem_map.1 hnotice
    cases hsame
    exact ⟨d, text', mem_takes.1 htake⟩
  · rintro ⟨d, text, hmem⟩
    have htake := List.mem_map_of_mem (f := fun x => (x.1, x.2.1)) (mem_takes.2 hmem)
    rw [heq d] at htake
    obtain ⟨⟨_, _, text'⟩, hnotice, hsame⟩ := List.mem_map.1 htake
    cases hsame
    obtain ⟨listener', hnotified⟩ := mem_notices.1 hnotice
    exact ⟨d, listener', text', hnotified⟩

/-- When no text waits in the stream, the events that are not passed on are left in the queues. -/
theorem allNotified_iff_empty (h : (adapterMachine print).Reaches (.start sstream listener) s log)
    (hidle : ∀ d, ¬ (s.pc d).Pending) : AllNotified log ↔ s.Empty := by
  rw [empty_iff h]
  refine forall_congr' fun c => ?_
  constructor
  · intro hall
    have hnodup : (acceptedFrom c log).Nodup := (numbered_nodup _).map (Option.some_injective _)
    have hsubset : acceptedFrom c log ⊆ takenFrom c log := fun event hevent =>
      (notified_iff_taken h hidle).1 (hall event hevent)
    exact (hnodup.subperm hsubset).length_le
  · intro hle event hevent
    have heq : takenFrom c log = acceptedFrom c log := (takenFrom_isPrefix h c).eq_of_length_le hle
    rw [← heq] at hevent
    exact (notified_iff_taken h hidle).2 hevent

omit [DecidableEq δ] in
theorem exists_of_setClient {x x' y : ClientState LoggerQueue ε} {c' : ℕ}
    (hx : s.clients[c]? = some x) (heq : x'.queue.written = x.queue.written)
    (hy : (s.setClient c x').clients[c']? = some y) :
    ∃ z, s.clients[c']? = some z ∧ y.queue.written = z.queue.written := by
  change (s.clients.set c x')[c']? = some y at hy
  rw [List.getElem?_set] at hy
  split_ifs at hy with hc hlt
  · obtain rfl := Option.some.inj hy
    exact ⟨x, hc ▸ hx, heq⟩
  · exact ⟨y, hy, rfl⟩

/-- A step by which nothing is accepted leaves the counts of the producers. -/
theorem AdapterStep.written_eq (h : AdapterStep print s i s' os) (hi : ¬ s.Accepts i)
    (hx : s'.clients[c]? = some x) :
    newClient ε = some x ∨ ∃ y, s.clients[c]? = some y ∧ x.queue.written = y.queue.written := by
  cases h with
  | registered y mutex hy =>
    rcases Nat.lt_or_ge c s.clients.length with hlt | hge
    · rw [List.getElem?_append_left hlt] at hx
      exact .inr ⟨x, hx, rfl⟩
    · rw [List.getElem?_append_right hge] at hx
      rw [List.mem_singleton.1 (List.mem_of_getElem? hx)]
      exact .inl hy
  | replaced | called | missed | notified | finished => exact .inr ⟨x, hx, rfl⟩
  | client c' j hj y y' os' hy hstep =>
    refine .inr (exists_of_setClient hy (written_eq_of_producer hj ?_ hstep) hx)
    rintro ⟨rfl, hpublishes⟩
    exact hi ⟨c', y, rfl, hy, hpublishes⟩
  | empty d k hpc hk y y' hy hstep | taken d k n hpc hk y y' event hy hstep =>
    exact .inr (exists_of_setClient hy (written_eq_of_stepQueue (by simp) hstep) hx)
  | released d k c' n j pc input hpc y y' os' hy hstep =>
    have heq : y'.queue.written = y.queue.written := by
      rcases hpc with ⟨-, rfl, -⟩ | ⟨-, rfl, -⟩
      · exact written_eq_of_stepQueue (by simp) hstep
      · exact written_eq_of_stepQueue (by simp) hstep
    exact .inr (exists_of_setClient hy heq hx)

theorem acceptedFrom_length_le
    (h : (adapterMachine print).Reaches (.start sstream listener) s log) (hi : ¬ s.Accepts i)
    (hs : (adapterMachine print).step s i = some (s', os)) (c : ℕ) :
    (acceptedFrom c (log ++ os)).length ≤ (acceptedFrom c log).length := by
  have hreach := h.step i hs
  cases hx : s'.clients[c]? with
  | none =>
    rw [acceptedFrom_length, (clientsOk_of_reaches hreach c).2 hx]
    exact Nat.zero_le _
  | some x =>
    rw [← written_eq_accepted hreach hx]
    rcases (adapterStep_of_step hs).written_eq hi hx with hnew | ⟨y, hy, heq⟩
    · rw [newClient_eq, Option.some.injEq] at hnew
      subst hnew
      exact Nat.zero_le _
    · rw [heq, written_eq_accepted h hy]

/-- The queues stay empty as long as nothing is accepted. -/
theorem LoggerAdapter.Empty.step (hempty : s.Empty)
    (h : (adapterMachine print).Reaches (.start sstream listener) s log) (hi : ¬ s.Accepts i)
    (hs : (adapterMachine print).step s i = some (s', os)) : s'.Empty := by
  rw [empty_iff (h.step i hs)]
  intro c
  calc (acceptedFrom c (log ++ os)).length
    _ ≤ (acceptedFrom c log).length := acceptedFrom_length_le h hi hs c
    _ ≤ (takenFrom c log).length := (empty_iff h).1 hempty c
    _ ≤ (takenFrom c (log ++ os)).length := by
      rw [takenFrom_append, List.length_append]
      exact Nat.le_add_right _ _

end Runs

end Ihft.Logger
