import Ihft.Logger.Backlog
import Ihft.Logger.LoggerSystem

/-!
# A system with one thread

A single thread with its single client goes through its calls without waiting for anybody.  `Solo`
is what matters of such a system: the mode, how far the call has got, and how many events the queue
has accepted and `dispatch` has taken.  The system follows it step by step (`soloAt_resume`).
-/

namespace Ihft.Logger

open Observe GuardedBroadcast Channel

variable {ε : Type*}

/-! ## One client -/

/-- The operations that `try_write` has still to do. -/
def writerSteps {β : Type*} : One2One.WriterPc β → ℕ
  | .idle => 0
  | .construct _ => 2
  | .publish _ => 1

/-- Where a client with its queue stands; `guards` are the numbers and the phases of the guards
that its consumer has handed out. -/
structure ClientAt (x : ClientState LoggerQueue ε) (pc : ClientPc) (steps accepted taken : ℕ)
    (guards : List (ℕ × GuardPc)) : Prop where
  pc : x.pc = pc
  writer : writerSteps x.queue.writer.pc = steps
  accepted : x.queue.written = accepted
  taken : (x.queue.readers 0).taken = taken
  guards : (x.queue.readers 0).guards.map (fun g => (g.number, g.pc)) = guards
  owner : ∀ g ∈ (x.queue.readers 0).guards, g.owner ≠ One2One.dummyReaderId .uint64
  producer : x.queue.producer = true
  alive : (x.queue.readers 0).alive = true

section Client

variable {x : ClientState LoggerQueue ε} {pc : ClientPc} {steps accepted taken k : ℕ}
  {guards : List (ℕ × GuardPc)}

theorem writer_idle (h : ClientAt x pc 0 accepted taken guards) : x.queue.writer.pc = .idle := by
  have hsteps := h.writer
  cases hpc : x.queue.writer.pc with
  | idle => rfl
  | construct e | publish e => simp [hpc, writerSteps] at hsteps

/-- A step of the queue, seen by the client. -/
theorem stepQueue_of_step {i : ObjectInput 1 Box} {queue : LoggerQueue}
    {qs : List (Obs (Fin 1) Box)}
    (h : LoggerQueue.machine.step x.queue i = some (queue, qs)) :
    x.stepQueue LoggerQueue.machine i = some ({ x with queue := queue }.observeAll qs) := by
  unfold ClientState.stepQueue
  rw [h]

theorem tryWrite_of_step (hpc : x.pc = .constructed) {queue : LoggerQueue}
    {qs : List (Obs (Fin 1) Box)}
    (h : LoggerQueue.machine.step x.queue (.tryWrite ⟨x.allocator.activeSlab⟩) = some (queue, qs)) :
    x.tryWrite LoggerQueue.machine = some ({ x with queue := queue }.observeAll qs) := by
  simp only [ClientState.tryWrite, hpc, stepQueue_of_step h]

theorem ClientAt.construct (h : ClientAt x .idle 0 accepted taken guards) (content : ε) :
    ∃ x' os, (loggerClient ε).step x (.construct content) = some (x', os) ∧
      ClientAt x' .constructed 0 accepted taken guards := by
  have hstep : x.construct (R := 1) content = some ({ x with
      slabs := Function.update x.slabs x.allocator.activeSlab (some ⟨x.count, content⟩)
      pc := .constructed
      count := x.count + 1 }, [.constructed x.allocator.activeSlab
        (x.slabs x.allocator.activeSlab) ⟨x.count, content⟩]) := by
    simp only [ClientState.construct, h.pc]
  exact ⟨_, _, hstep, { h with pc := rfl }⟩

/-- The load of `try_write` decides whether the event is taken. -/
theorem ClientAt.tryWrite (h : ClientAt x .constructed 0 accepted taken guards) :
    ∃ x' os, (loggerClient ε).step x .tryWrite = some (x', os) ∧
      (((x.queue.ring x.queue.writer.impl.nextBucket).seqn = dummyEventSeqNum .uint64 ∧
          ClientAt x' .writing 2 accepted taken guards) ∨
        ((x.queue.ring x.queue.writer.impl.nextBucket).seqn ≠ dummyEventSeqNum .uint64 ∧
          ClientAt x' .idle 0 accepted taken guards)) := by
  have hidle := writer_idle h
  by_cases hseqn : (x.queue.ring x.queue.writer.impl.nextBucket).seqn = dummyEventSeqNum .uint64
  · have hqueue : LoggerQueue.machine.step x.queue (.tryWrite ⟨x.allocator.activeSlab⟩) =
        some ({ x.queue with writer := { x.queue.writer with
          pc := .construct ⟨x.queue.written, ⟨x.allocator.activeSlab⟩⟩ } },
          [.offered ⟨x.allocator.activeSlab⟩]) := by
      simp only [One2One.objectMachine, One2One.ObjectState.tryWrite, h.producer, if_true,
        One2One.Writer.tryWrite, hidle, hseqn]
      rfl
    exact ⟨_, _, tryWrite_of_step h.pc hqueue, .inl ⟨hseqn, { h with pc := rfl, writer := rfl }⟩⟩
  · have hqueue : LoggerQueue.machine.step x.queue (.tryWrite ⟨x.allocator.activeSlab⟩) =
        some (x.queue, [.offered ⟨x.allocator.activeSlab⟩, .refused ⟨x.allocator.activeSlab⟩]) := by
      simp only [One2One.objectMachine, One2One.ObjectState.tryWrite, h.producer, if_true,
        One2One.Writer.tryWrite, hidle, hseqn, if_false]
      rfl
    exact ⟨_, _, tryWrite_of_step h.pc hqueue, .inr ⟨hseqn, { h with pc := rfl }⟩⟩

theorem ClientAt.write (h : ClientAt x .writing 2 accepted taken guards) :
    ∃ x' os, (loggerClient ε).step x (.queue .writer) = some (x', os) ∧
      ClientAt x' .writing 1 accepted taken guards := by
  have hsteps := h.writer
  cases hpc : x.queue.writer.pc with
  | idle | publish e => simp [hpc, writerSteps] at hsteps
  | construct e =>
    have hqueue : LoggerQueue.machine.step x.queue .writer = some ({ x.queue with
        ring := One2One.setStorage x.queue.ring x.queue.writer.impl.nextBucket (some e)
        writer := { x.queue.writer with pc := .publish e } }, []) := by
      simp only [One2One.objectMachine, One2One.ObjectState.resumeWriter, One2One.Writer.resume,
        hpc]
      rfl
    exact ⟨_, _, stepQueue_of_step hqueue, { h with writer := rfl }⟩

theorem ClientAt.publish (h : ClientAt x .writing 1 accepted taken guards) :
    ∃ x' os, (loggerClient ε).step x (.queue .writer) = some (x', os) ∧
      ClientAt x' .written 0 (accepted + 1) taken guards := by
  have hsteps := h.writer
  cases hpc : x.queue.writer.pc with
  | idle | construct e => simp [hpc, writerSteps] at hsteps
  | publish e =>
    have hqueue : LoggerQueue.machine.step x.queue .writer = some ({ x.queue with
        ring := One2One.setSeqn x.queue.ring x.queue.writer.impl.nextBucket x.queue.writer.impl.seqn
        writer := ⟨x.queue.writer.impl.advance, .idle⟩
        written := x.queue.written + 1 }, [.wrote e.value]) := by
      simp only [One2One.objectMachine, One2One.ObjectState.resumeWriter, One2One.Writer.resume,
        hpc]
      rfl
    exact ⟨_, _, stepQueue_of_step hqueue,
      { h with pc := rfl, writer := rfl, accepted := congrArg (· + 1) h.accepted }⟩

theorem ClientAt.seek (h : ClientAt x .written 0 accepted taken guards) :
    ∃ x' os, (loggerClient ε).step x .seek = some (x', os) ∧
      ClientAt x' .idle 0 accepted taken guards := by
  have hstep : x.seek (R := 1) = some ({ x with
      allocator := x.allocator.seekToNextSlab
      pc := .idle }, []) := by
    simp only [ClientState.seek, h.pc]
  exact ⟨_, _, hstep, { h with pc := rfl }⟩

theorem ClientAt.tryRead (h : ClientAt x pc steps accepted taken []) (hreadable : x.queue.Readable)
    (hid : (x.queue.readers 0).reader.id ≠ One2One.dummyReaderId .uint64) :
    ∃ x' event, (loggerClient ε).step x (.queue (.tryRead 0)) =
        some (x', [.queue (.read 0 event)]) ∧
      ClientAt x' pc steps accepted (taken + 1) [(taken, .alive)] := by
  have hqueue : LoggerQueue.machine.step x.queue (.tryRead 0) =
      some ({ x.queue with toObjectCore := x.queue.takeGuard 0 },
        [.read 0 (x.queue.ring (x.queue.readers 0).reader.nextBucket).storage]) := by
    simp only [One2One.objectMachine, One2One.ObjectState.tryRead, h.alive, hreadable.2, if_true]
  have hnil : (x.queue.readers 0).guards = [] := List.map_eq_nil_iff.1 h.guards
  refine ⟨_, _, stepQueue_of_step hqueue,
    { h with taken := ?_, guards := ?_, owner := ?_, alive := ?_ }⟩
  · simp [ClientState.observeAll, ClientState.observe, ObjectCore.takeGuard, ObjectCore.setReader,
      h.taken]
  · simp [ClientState.observeAll, ClientState.observe, ObjectCore.takeGuard, ObjectCore.setReader,
      h.taken, hnil]
  · simpa [ClientState.observeAll, ClientState.observe, ObjectCore.takeGuard, ObjectCore.setReader,
      hnil] using hid
  · simp [ClientState.observeAll, ClientState.observe, ObjectCore.takeGuard, ObjectCore.setReader,
      h.alive]

theorem ClientAt.tryRead_empty (h : ClientAt x pc steps accepted taken guards)
    (hreadable : ¬ x.queue.Readable) : ∃ x', (loggerClient ε).step x (.queue (.tryRead 0)) =
        some (x', [.queue (.empty 0)]) ∧ ClientAt x' pc steps accepted taken guards := by
  have hqueue : LoggerQueue.machine.step x.queue (.tryRead 0) = some (x.queue, [.empty 0]) := by
    have hseqn : (x.queue.ring (x.queue.readers 0).reader.nextBucket).seqn ≠
        (x.queue.readers 0).reader.next := fun heq => hreadable ⟨h.alive, heq⟩
    simp only [One2One.objectMachine, One2One.ObjectState.tryRead, h.alive, hseqn, if_true,
      if_false]
  exact ⟨_, stepQueue_of_step hqueue, { h with }⟩

/-- The only guard is at the first place. -/
theorem ClientAt.guard_eq {p : GuardPc} (h : ClientAt x pc steps accepted taken [(k, p)]) :
    ∃ bucket owner, (x.queue.readers 0).guards = [⟨bucket, owner, k, p⟩] ∧
      owner ≠ One2One.dummyReaderId .uint64 ∧ guardPlace x k = 0 := by
  have hguards := h.guards
  rw [List.map_eq_singleton_iff] at hguards
  obtain ⟨⟨bucket, owner, number, q⟩, heq, hg⟩ := hguards
  obtain ⟨rfl, rfl⟩ := Prod.mk.inj hg
  refine ⟨bucket, owner, heq, h.owner ⟨bucket, owner, number, q⟩ (by rw [heq]; simp), ?_⟩
  simp [guardPlace, heq]

theorem ClientAt.destroyGuard (h : ClientAt x pc steps accepted taken [(k, .alive)]) :
    ∃ x' os, (loggerClient ε).step x (.queue (.destroyGuard 0 (guardPlace x k))) = some (x', os) ∧
      ClientAt x' pc steps accepted taken [(k, .store)] := by
  obtain ⟨bucket, owner, hguards, howner, hplace⟩ := h.guard_eq
  rw [hplace]
  have hqueue : LoggerQueue.machine.step x.queue (.destroyGuard 0 0) = some ({ x.queue with
        toObjectCore := x.queue.setGuards 0 [⟨bucket, owner, k, .store⟩]
        ring := One2One.setStorage x.queue.ring bucket none },
      [.dropped 0 k, .destroyed (some 0) (x.queue.ring bucket).storage]) := by
    simp only [One2One.objectMachine, One2One.ObjectState.destroyGuard, hguards,
      List.getElem?_cons_zero, ne_eq, howner, not_false_eq_true, if_true, List.set_cons_zero]
  refine ⟨_, _, stepQueue_of_step hqueue,
    { h with taken := ?_, guards := ?_, owner := ?_, alive := ?_ }⟩
  · simpa [ClientState.observeAll, ClientState.observe] using h.taken
  · simp [ClientState.observeAll, ClientState.observe]
  · simpa [ClientState.observeAll, ClientState.observe] using howner
  · simpa [ClientState.observeAll, ClientState.observe] using h.alive

theorem ClientAt.freeGuard (h : ClientAt x pc steps accepted taken [(k, .store)]) :
    ∃ x' os, (loggerClient ε).step x (.queue (.guard 0 (guardPlace x k))) = some (x', os) ∧
      ClientAt x' pc steps accepted taken [] := by
  obtain ⟨bucket, owner, hguards, howner, hplace⟩ := h.guard_eq
  rw [hplace]
  have hqueue : LoggerQueue.machine.step x.queue (.guard 0 0) = some ({ x.queue with
        toObjectCore := x.queue.setGuards 0 []
        ring := One2One.setSeqn x.queue.ring bucket (dummyEventSeqNum .uint64) }, [.freed k]) := by
    simp only [One2One.objectMachine, One2One.ObjectState.resumeGuard, hguards,
      List.getElem?_cons_zero, List.eraseIdx_cons_zero]
  refine ⟨_, _, stepQueue_of_step hqueue,
    { h with taken := ?_, guards := ?_, owner := ?_, alive := ?_ }⟩
  · simpa [ClientState.observeAll, ClientState.observe] using h.taken
  · simp [ClientState.observeAll, ClientState.observe]
  · simp [ClientState.observeAll, ClientState.observe]
  · simpa [ClientState.observeAll, ClientState.observe] using h.alive

end Client

/-! ## The abstract thread -/

/-- How far the only thread has got with its call. -/
inductive SoloPhase
  | idle
  | constructed
  | writing
  | publishing
  | written
  | loadSynch
  | synchDispatch
  | scan (logged : Bool) (i : ℕ)
  | notify (logged : Bool) (i : ℕ)
  | destroyGuard (logged : Bool) (i : ℕ)
  | freeGuard (logged : Bool) (i : ℕ)
  | relock (logged : Bool) (i : ℕ)
  | changing (i : ℕ)
  deriving DecidableEq, Repr

namespace SoloPhase

/-- The call of the thread. -/
def call : SoloPhase → CallPc
  | idle => .idle
  | constructed | writing | publishing | written => .logging
  | loadSynch => .loadSynch
  | synchDispatch => .synchDispatch
  | scan logged _ | notify logged _ | destroyGuard logged _ | freeGuard logged _
  | relock logged _ => .dispatching logged
  | changing i => .changing i

/-- The log call of its client. -/
def clientPc : SoloPhase → ClientPc
  | constructed => .constructed
  | writing | publishing => .writing
  | written => .written
  | _ => .idle

/-- What `try_write` has still to do. -/
def steps : SoloPhase → ℕ
  | writing => 2
  | publishing => 1
  | _ => 0

/-- Who holds the mutex of the adapter. -/
def mutex : SoloPhase → Option Unit
  | scan _ _ => some ()
  | _ => none

/-- Who holds the mutex inside `change_mode`. -/
def lock : SoloPhase → Option Unit
  | changing _ => some ()
  | _ => none

end SoloPhase

/-- The numbers of a system with one thread. -/
structure Solo where
  mode : Mode
  phase : SoloPhase
  accepted : ℕ
  taken : ℕ
  deriving DecidableEq, Repr

namespace Solo

/-- The guards that the consumer has handed out. -/
def guards (a : Solo) : List (ℕ × GuardPc) :=
  match a.phase with
  | .notify _ _ | .destroyGuard _ _ => [(a.taken - 1, .alive)]
  | .freeGuard _ _ => [(a.taken - 1, .store)]
  | _ => []

/-- Where the thread stands inside `dispatch`. -/
def AtPc (a : Solo) (pc : DispatchPc ε) : Prop :=
  match a.phase with
  | .scan _ i => pc = .scan i
  | .notify _ i => ∃ event listener, pc = .notify i 0 (a.taken - 1) event listener
  | .destroyGuard _ i => pc = .destroyGuard i 0 (a.taken - 1)
  | .freeGuard _ i => pc = .freeGuard i 0 (a.taken - 1)
  | .relock _ i => pc = .relock i
  | _ => pc = .idle

/-- The flag of the client, which `change_mode` has still to change at first. -/
def flag (a : Solo) : Bool :=
  match a.phase with
  | .changing 0 => decide (a.mode ≠ .synch)
  | _ => decide (a.mode = .synch)

/-- The call goes on. -/
def resume (a : Solo) : Solo :=
  match a.phase with
  | .idle => a
  | .constructed =>
    if a.taken + queueSize ≤ a.accepted then
      { a with phase := .idle }
    else
      { a with phase := .writing }
  | .writing => { a with phase := .publishing }
  | .publishing => { a with phase := .written, accepted := a.accepted + 1 }
  | .written => { a with phase := .loadSynch }
  | .loadSynch =>
    if a.mode = .synch then { a with phase := .synchDispatch } else { a with phase := .idle }
  | .synchDispatch => { a with phase := .scan true 0 }
  | .scan logged i =>
    if i < 1 then
      if a.taken < a.accepted then
        { a with phase := .notify logged i, taken := a.taken + 1 }
      else
        { a with phase := .scan logged (i + 1) }
    else
      { a with phase := .idle }
  | .notify logged i => { a with phase := .destroyGuard logged i }
  | .destroyGuard logged i => { a with phase := .freeGuard logged i }
  | .freeGuard logged i => { a with phase := .relock logged i }
  | .relock _ _ => { a with phase := .idle }
  | .changing i =>
    if i < 1 then { a with phase := .changing (i + 1) } else { a with phase := .idle }

/-- What the thread does next. -/
def next (a : Solo) : SystemInput Unit ε → Solo
  | .log _ _ => { a with phase := .constructed }
  | .dispatch _ => { a with phase := .scan false 0 }
  | .changeMode _ newmode =>
    if a.mode = newmode then a else { a with mode := newmode, phase := .changing 0 }
  | .resume _ => a.resume
  | .clientGuard _ | .replaceListener _ => a

/-- The step lets `try_log_event` return `write`. -/
def Logs (a : Solo) (write : Bool) : Prop :=
  match a.phase with
  | .constructed => a.taken + queueSize ≤ a.accepted ∧ write = false
  | .loadSynch => a.mode ≠ .synch ∧ write = true
  | .scan logged i => 1 ≤ i ∧ logged = true ∧ write = true
  | .relock logged _ => logged = true ∧ write = true
  | _ => False

end Solo

/-- A call begins. -/
def SystemInput.Begins : SystemInput Unit ε → Prop
  | .log _ _ | .dispatch _ | .changeMode _ _ | .clientGuard _ => True
  | .replaceListener _ | .resume _ => False

/-! ## The system follows -/

/-- The system stands where the abstract thread does. -/
structure SoloAt (s : LoggerSystem Unit ε) (a : Solo) : Prop where
  mode : s.mode = a.mode
  client : s.client () = some 0
  call : s.call () = a.phase.call
  one : ∃ x, s.adapter.clients = [x] ∧
    ClientAt x a.phase.clientPc a.phase.steps a.accepted a.taken a.guards
  pc : a.AtPc (s.adapter.pc ())
  mutex : s.adapter.mutex = a.phase.mutex
  changing : s.changing = a.phase.lock
  synch : s.synch = [a.flag]

section Follow

variable {print : ε → OStringStream → OStringStream} {sstream : OStringStream} {listener : ℕ}
  {s s' : LoggerSystem Unit ε} {log : List (AdapterObs Unit ε)} {x x' : ClientState LoggerQueue ε}
  {mode : Mode} {accepted taken i : ℕ} {logged : Bool}

/-- Nothing that was taken is still in its place. -/
theorem freed_iff_of_unguarded {phase : Fin 1 → ℕ → Option GuardPc} {queue : LoggerQueue}
    {a : State (Fin 1) Box} (h : One2One.OpenRel queueSize phase queue a)
    (hguards : (queue.readers 0).guards = []) (k : ℕ) : k ∈ a.freed ↔ k < a.cursor 0 := by
  have hnone : ∀ r p, phase r k ≠ some p := by
    intro r p hp
    obtain ⟨g, hg, -⟩ := ((h.core.guards r).phase_iff k p).1 hp
    rw [Subsingleton.elim r 0, hguards] at hg
    exact absurd hg List.not_mem_nil
  constructor
  · intro hfreed
    exact h.core.coherent.lt_of_dropped 0 k (h.core.coherent.released_of_freed k hfreed 0)
  · intro hlt
    have hdropped : k ∈ a.dropped 0 := by
      by_contra hno
      exact hnone 0 .alive ((h.core.held 0 k).2 ⟨hlt, hno⟩)
    by_contra hfreed
    have hreleased : a.Released k := fun r => by
      rw [Subsingleton.elim r 0]
      exact hdropped
    obtain ⟨r, hr⟩ := h.core.busy k (hlt.trans_le (h.core.coherent.cursor_le 0)) hreleased hfreed
    exact hr.elim (hnone r _) (hnone r _)

/-- Without guards the next bucket is free unless as many events as the queue has places wait. -/
theorem nextBucket_free_iff {phase : Fin 1 → ℕ → Option GuardPc} {queue : LoggerQueue}
    {a : State (Fin 1) Box} (h : One2One.OpenRel queueSize phase queue a)
    (hguards : (queue.readers 0).guards = []) :
    (queue.ring queue.writer.impl.nextBucket).seqn = dummyEventSeqNum .uint64 ↔
      ¬ (queue.readers 0).taken + queueSize ≤ queue.written := by
  have hpos : 0 < queueSize := by decide
  have hfreed := freed_iff_of_unguarded h hguards (a.written.length - queueSize)
  have hle := h.core.coherent.cursor_le 0
  have hocc : Occupied queueSize a a.written.length ↔
      (queue.readers 0).taken + queueSize ≤ queue.written := by
    rw [Occupied, hfreed, h.core.written, h.core.taken]
    omega
  rw [← hocc, h.ring.index.nextBucket]
  constructor
  · intro hseqn hoccupied
    rw [h.ring.full _ le_rfl (by omega) hoccupied] at hseqn
    exact seqnOf_ne_dummy _ hseqn
  · exact h.ring.vacant _ le_rfl (by omega)

theorem stepAdapter_of_step {j : AdapterInput Unit ε} {adapter : LoggerAdapter Unit ε}
    {os : List (AdapterObs Unit ε)}
    (h : (adapterMachine print).step s.adapter j = some (adapter, os)) :
    s.stepAdapter print j = some ({ s with adapter := adapter }, os.map .adapter) := by
  unfold LoggerSystem.stepAdapter
  rw [h]

/-- A step of the only client. -/
theorem stepClient_of_step {s : LoggerAdapter Unit ε} (hx : s.clients = [x]) {i : ClientInput 1 ε}
    {os : List (ClientObs 1 ε)} (h : (loggerClient ε).step x i = some (x', os)) :
    s.stepClient 0 i = some (s.setClient 0 x', os) := by
  have hget : s.clients[0]? = some x := by rw [hx]; rfl
  simp only [LoggerAdapter.stepClient, hget, h]

variable (print) in
theorem adapter_client (hx : s.adapter.clients = [x]) {i : ClientInput 1 ε} (hi : i.OfProducer)
    {os : List (ClientObs 1 ε)} (h : (loggerClient ε).step x i = some (x', os)) :
    s.stepAdapter print (.client 0 i) = some ({ s with adapter := s.adapter.setClient 0 x' },
      (os.map (.client 0)).map .adapter) := by
  apply stepAdapter_of_step
  simp only [adapterMachine, if_pos hi, stepClient_of_step hx h, Option.map_some]

theorem setClient_clients {s : LoggerAdapter Unit ε} (hx : s.clients = [x]) :
    (s.setClient 0 x').clients = [x'] := by
  simp [LoggerAdapter.setClient, hx]

theorem logged_not_mem (w : Bool) (os : List (AdapterObs Unit ε)) :
    SystemObs.logged () w ∉ os.map .adapter := by
  simp

/-- The call goes on as that of the abstract thread does. -/
def Follows (print : ε → OStringStream → OStringStream) (s : LoggerSystem Unit ε) (a : Solo) :
    Prop :=
  ∃ s' os, (systemMachine print).step s (.resume ()) = some (s', os) ∧ SoloAt s' a.resume ∧
    ∀ w, .logged () w ∈ os ↔ a.Logs w

theorem clientPc_eq (hx : s.adapter.clients = [x]) : s.clientPc 0 = some x.pc := by
  simp [LoggerSystem.clientPc, hx]

theorem SoloAt.resumeLog_eq {a : Solo} (h : SoloAt s a) (hcall : a.phase.call = .logging) :
    (systemMachine print).step s (.resume ()) = s.resumeLog print () 0 := by
  simp only [systemMachine, LoggerSystem.resume, h.call, h.client, hcall]

/-- `try_write` looks at its bucket. -/
theorem SoloAt.constructed (h : SoloAt s ⟨mode, .constructed, accepted, taken⟩)
    (hreach : (adapterMachine print).Reaches (.start sstream listener) s.adapter log) :
    Follows print s ⟨mode, .constructed, accepted, taken⟩ := by
  obtain ⟨x, hx, hclient⟩ := h.one
  obtain ⟨x', os, hstep, hload⟩ := hclient.tryWrite
  have hpc : s.clientPc 0 = some .constructed := (clientPc_eq hx).trans (congrArg some hclient.pc)
  obtain ⟨phase, hopen⟩ := openRel_of_reaches hreach (c := 0) (by rw [hx]; rfl)
  have hfree := nextBucket_free_iff hopen (List.map_eq_nil_iff.1 hclient.guards)
  rw [hclient.accepted, hclient.taken] at hfree
  have hadapter := adapter_client print (s := s) hx (i := .tryWrite) trivial hstep
  have hpc' : ({ s with adapter := s.adapter.setClient 0 x' } : LoggerSystem Unit ε).clientPc 0 =
      some x'.pc := clientPc_eq (setClient_clients hx)
  unfold Follows
  rw [h.resumeLog_eq rfl]
  simp only [LoggerSystem.resumeLog, hpc, hadapter, hpc', Option.some.injEq]
  rcases hload with ⟨hseqn, hclient'⟩ | ⟨hseqn, hclient'⟩
  · have hroom := hfree.1 hseqn
    refine ⟨_, _, if_neg (by simp [hclient'.pc]), ?_, fun w => ?_⟩
    · simp only [Solo.resume, if_neg hroom]
      exact { h with one := ⟨x', setClient_clients hx, hclient'⟩ }
    · exact iff_of_false (logged_not_mem w _) fun hlogs => hroom hlogs.1
  · have hfull := not_not.1 (mt hfree.2 hseqn)
    refine ⟨_, _, if_pos hclient'.pc, ?_, fun w => ?_⟩
    · simp only [Solo.resume, if_pos hfull]
      exact { h with call := rfl, one := ⟨x', setClient_clients hx, hclient'⟩ }
    · rw [List.mem_append, or_iff_right (logged_not_mem w _)]
      simp [Solo.Logs, hfull]

/-- `try_write` goes on. -/
theorem SoloAt.resume_writer {a : Solo} (h : SoloAt s a) (hcall : a.phase.call = .logging)
    (hx : s.adapter.clients = [x]) (hpc : x.pc = .writing) {os : List (ClientObs 1 ε)}
    (hstep : (loggerClient ε).step x (.queue .writer) = some (x', os)) :
    (systemMachine print).step s (.resume ()) =
      some ({ s with adapter := s.adapter.setClient 0 x' },
        (os.map (.client 0)).map .adapter) := by
  have hclient : s.clientPc 0 = some .writing := (clientPc_eq hx).trans (congrArg some hpc)
  rw [h.resumeLog_eq hcall]
  simp only [LoggerSystem.resumeLog, hclient]
  exact adapter_client print hx (i := .queue .writer) trivial hstep

theorem SoloAt.writing (h : SoloAt s ⟨mode, .writing, accepted, taken⟩) :
    Follows print s ⟨mode, .writing, accepted, taken⟩ := by
  obtain ⟨x, hx, hclient⟩ := h.one
  obtain ⟨x', os, hstep, hclient'⟩ := hclient.write
  refine ⟨_, _, h.resume_writer rfl hx hclient.pc hstep, ?_, fun w => ?_⟩
  · exact { h with one := ⟨x', setClient_clients hx, hclient'⟩ }
  · exact iff_of_false (logged_not_mem w _) id

theorem SoloAt.publishing (h : SoloAt s ⟨mode, .publishing, accepted, taken⟩) :
    Follows print s ⟨mode, .publishing, accepted, taken⟩ := by
  obtain ⟨x, hx, hclient⟩ := h.one
  obtain ⟨x', os, hstep, hclient'⟩ := hclient.publish
  refine ⟨_, _, h.resume_writer rfl hx hclient.pc hstep, ?_, fun w => ?_⟩
  · exact { h with one := ⟨x', setClient_clients hx, hclient'⟩ }
  · exact iff_of_false (logged_not_mem w _) id

theorem SoloAt.written (h : SoloAt s ⟨mode, .written, accepted, taken⟩) :
    Follows print s ⟨mode, .written, accepted, taken⟩ := by
  obtain ⟨x, hx, hclient⟩ := h.one
  obtain ⟨x', os, hstep, hclient'⟩ := hclient.seek
  have hpc : s.clientPc 0 = some .written := (clientPc_eq hx).trans (congrArg some hclient.pc)
  have hadapter := adapter_client print (s := s) hx (i := .seek) trivial hstep
  have hlog : s.resumeLog print () 0 =
      some (LoggerSystem.setCall { s with adapter := s.adapter.setClient 0 x' } () .loadSynch,
        (os.map (.client 0)).map .adapter) := by
    simp only [LoggerSystem.resumeLog, hpc, hadapter]
  refine ⟨_, _, (h.resumeLog_eq rfl).trans hlog, ?_, fun w => ?_⟩
  · exact { h with call := rfl, one := ⟨x', setClient_clients hx, hclient'⟩ }
  · exact iff_of_false (logged_not_mem w _) id

theorem SoloAt.loadSynch (h : SoloAt s ⟨mode, .loadSynch, accepted, taken⟩) :
    Follows print s ⟨mode, .loadSynch, accepted, taken⟩ := by
  have hresume : (systemMachine print).step s (.resume ()) = s.loadSynch () 0 := by
    simp only [systemMachine, LoggerSystem.resume, h.call, h.client, SoloPhase.call]
  have hsynch := h.synch
  by_cases hmode : mode = .synch
  · have hload : s.loadSynch () 0 = some (s.setCall () .synchDispatch, []) := by
      simp [LoggerSystem.loadSynch, hsynch, Solo.flag, hmode]
    refine ⟨_, _, hresume.trans hload, ?_, fun w => ?_⟩
    · simp only [Solo.resume, if_pos hmode]
      exact { h with call := rfl }
    · exact iff_of_false List.not_mem_nil fun hlogs => hlogs.1 hmode
  · have hload : s.loadSynch () 0 = some (s.setCall () .idle, [.logged () true]) := by
      simp [LoggerSystem.loadSynch, hsynch, Solo.flag, hmode]
    refine ⟨_, _, hresume.trans hload, ?_, fun w => ?_⟩
    · simp only [Solo.resume, if_neg hmode]
      exact { h with call := rfl }
    · simp [Solo.Logs, hmode]

/-- The call of `dispatch` takes the mutex, which is free. -/
theorem dispatch_of_free {a : Solo} (h : SoloAt s a) (hmutex : a.phase.mutex = none)
    (hlock : a.phase.lock = none) (hpc : s.adapter.pc () = .idle) (logged : Bool) :
    s.dispatch print () logged = some (LoggerSystem.setCall { s with
        adapter := { s.adapter with mutex := some () }.setPc () (.scan 0) } ()
        (.dispatching logged),
      [.adapter (.called ())]) := by
  have hadapter : (adapterMachine print).step s.adapter (.dispatch ()) =
      some ({ s.adapter with mutex := some () }.setPc () (.scan 0), [.called ()]) := by
    simp only [adapterMachine, LoggerAdapter.dispatch, h.mutex, hmutex, hpc]
  simp only [LoggerSystem.dispatch, h.changing, hlock, stepAdapter_of_step hadapter]
  rfl

theorem SoloAt.synchDispatch (h : SoloAt s ⟨mode, .synchDispatch, accepted, taken⟩) :
    Follows print s ⟨mode, .synchDispatch, accepted, taken⟩ := by
  have hresume : (systemMachine print).step s (.resume ()) = s.dispatch print () true := by
    simp only [systemMachine, LoggerSystem.resume, h.call, h.client, SoloPhase.call]
  refine ⟨_, _, hresume.trans (dispatch_of_free h rfl rfl h.pc true), ?_, fun w => ?_⟩
  · exact { h with call := rfl, pc := rfl, mutex := rfl }
  · exact iff_of_false (by simp) id

/-- A step inside `dispatch`. -/
theorem resumeDispatch_of_step {a : Solo} (h : SoloAt s a)
    (hcall : a.phase.call = .dispatching logged) (hlock : a.phase.lock = none)
    {adapter : LoggerAdapter Unit ε} {os : List (AdapterObs Unit ε)}
    (hstep : (adapterMachine print).step s.adapter (.resume ()) = some (adapter, os)) :
    (systemMachine print).step s (.resume ()) =
      if (adapter.pc ()).returned then
        some (LoggerSystem.setCall { s with adapter := adapter } () .idle,
          os.map .adapter ++ if logged then [.logged () true] else [])
      else
        some ({ s with adapter := adapter }, os.map .adapter) := by
  have hresume : (systemMachine print).step s (.resume ()) = s.resumeDispatch print () logged := by
    simp only [systemMachine, LoggerSystem.resume, h.call, h.client, hcall]
  rw [hresume]
  simp only [LoggerSystem.resumeDispatch, h.changing, hlock, ne_eq, not_true_eq_false, and_false,
    if_false, stepAdapter_of_step hstep]

variable (print) in
theorem adapter_resume_scan {s : LoggerAdapter Unit ε} (hpc : s.pc () = .scan i) :
    (adapterMachine print).step s (.resume ()) = s.scan print () i := by
  simp only [adapterMachine, LoggerAdapter.resume, hpc]

theorem scan_taken {s : LoggerAdapter Unit ε} (hx : s.clients = [x]) (hi : i < 1)
    {event : Option (Stored (LoggerEvent ε))}
    (hstep : (loggerClient ε).step x (.queue (.tryRead 0)) =
      some (x', [.queue (.read 0 event)])) : s.scan print () i = some
        ({ s.setClient 0 x' with sstream := s.format print event, mutex := none }.setPc ()
          (.notify i 0 (x.queue.readers 0).taken event s.listener),
        [.client 0 (.queue (.read 0 event)), .taken () 0 event (s.format print event).str]) := by
  have hlen : s.clients.length = 1 := by rw [hx]; rfl
  have htaken : s.guardsTaken 0 = (x.queue.readers 0).taken := by
    simp [LoggerAdapter.guardsTaken, hx]
  simp only [LoggerAdapter.scan, hlen, if_pos hi, Nat.mod_one, stepClient_of_step hx hstep,
    readEvent, List.findSome?_cons, htaken]
  rfl

theorem scan_empty {s : LoggerAdapter Unit ε} (hx : s.clients = [x]) (hi : i < 1)
    (hstep : (loggerClient ε).step x (.queue (.tryRead 0)) = some (x', [.queue (.empty 0)])) :
    s.scan print () i = some ((s.setClient 0 x').setPc () (.scan (i + 1)),
      [.client 0 (.queue (.empty 0))]) := by
  have hlen : s.clients.length = 1 := by rw [hx]; rfl
  simp only [LoggerAdapter.scan, hlen, if_pos hi, Nat.mod_one, stepClient_of_step hx hstep,
    readEvent, List.findSome?_cons, List.findSome?_nil]
  rfl

theorem scan_missed {s : LoggerAdapter Unit ε} (hx : s.clients = [x]) (hi : ¬ i < 1) :
    s.scan print () i = some ({ s with mutex := none }.setPc () .idle, [.returned () false]) := by
  have hlen : s.clients.length = 1 := by rw [hx]; rfl
  simp only [LoggerAdapter.scan, hlen, if_neg hi]

theorem SoloAt.scan (h : SoloAt s ⟨mode, .scan logged i, accepted, taken⟩)
    (hreach : (adapterMachine print).Reaches (.start sstream listener) s.adapter log) :
    Follows print s ⟨mode, .scan logged i, accepted, taken⟩ := by
  obtain ⟨x, hx, hclient⟩ := h.one
  have hget : s.adapter.clients[0]? = some x := by rw [hx]; rfl
  have hreadable := readable_iff hreach hget
  rw [hclient.taken, hclient.accepted] at hreadable
  have hscan := adapter_resume_scan print h.pc
  by_cases hi : i < 1
  · by_cases hlt : taken < accepted
    · obtain ⟨phase, hopen⟩ := openRel_of_reaches hreach hget
      obtain ⟨x', event, hstep, hclient'⟩ := hclient.tryRead (hreadable.2 hlt) (hopen.core.id 0)
      have hresume := resumeDispatch_of_step h rfl rfl (hscan.trans (scan_taken hx hi hstep))
      rw [setPc_pc_self] at hresume
      refine ⟨_, _, hresume, ?_, fun w => ?_⟩
      · simp only [Solo.resume, if_pos hi, if_pos hlt]
        rw [hclient.taken]
        exact { h with
          one := ⟨x', setClient_clients hx, hclient'⟩
          pc := ⟨event, s.adapter.listener, rfl⟩
          mutex := rfl }
      · exact iff_of_false (logged_not_mem w _) fun hlogs => absurd hlogs.1 (by omega)
    · obtain ⟨x', hstep, hclient'⟩ := hclient.tryRead_empty (mt hreadable.1 hlt)
      have hresume := resumeDispatch_of_step h rfl rfl (hscan.trans (scan_empty hx hi hstep))
      rw [setPc_pc_self] at hresume
      refine ⟨_, _, hresume, ?_, fun w => ?_⟩
      · simp only [Solo.resume, if_pos hi, if_neg hlt]
        exact { h with one := ⟨x', setClient_clients hx, hclient'⟩, pc := rfl }
      · exact iff_of_false (logged_not_mem w _) fun hlogs => absurd hlogs.1 (by omega)
  · have hresume := resumeDispatch_of_step h rfl rfl (hscan.trans (scan_missed hx hi))
    rw [setPc_pc_self] at hresume
    refine ⟨_, _, hresume, ?_, fun w => ?_⟩
    · simp only [Solo.resume, if_neg hi]
      exact { h with call := rfl, pc := rfl, mutex := rfl }
    · rw [List.mem_append, or_iff_right (logged_not_mem w _)]
      cases logged <;> simp [Solo.Logs, not_lt.1 hi]

theorem SoloAt.notify (h : SoloAt s ⟨mode, .notify logged i, accepted, taken⟩) :
    Follows print s ⟨mode, .notify logged i, accepted, taken⟩ := by
  obtain ⟨event, listener, hpc⟩ := h.pc
  have hstep : (adapterMachine print).step s.adapter (.resume ()) =
      some (s.adapter.setPc () (.destroyGuard i 0 (taken - 1)),
        [.notified () 0 event listener s.adapter.sstream.str]) := by
    simp only [adapterMachine, LoggerAdapter.resume, hpc]
  have hresume := resumeDispatch_of_step h rfl rfl hstep
  rw [setPc_pc_self] at hresume
  refine ⟨_, _, hresume, { h with pc := rfl }, fun w => ?_⟩
  exact iff_of_false (logged_not_mem w _) id

theorem stepGuard_of_step {s : LoggerAdapter Unit ε} (hx : s.clients = [x]) {k : ℕ}
    {input : ℕ → ObjectInput 1 Box} {os : List (ClientObs 1 ε)}
    (hstep : (loggerClient ε).step x (.queue (input (guardPlace x k))) = some (x', os))
    (pc : DispatchPc ε) :
    s.stepGuard () 0 k input pc = some ((s.setClient 0 x').setPc () pc, os.map (.client 0)) := by
  have hget : s.clients[0]? = some x := by rw [hx]; rfl
  simp only [LoggerAdapter.stepGuard, hget, stepClient_of_step hx hstep]

/-- One of the two steps of the destructor of the guard. -/
theorem SoloAt.resume_guard {a : Solo} (h : SoloAt s a) (hcall : a.phase.call = .dispatching logged)
    (hlock : a.phase.lock = none) (hx : s.adapter.clients = [x]) {k : ℕ}
    {input : ℕ → ObjectInput 1 Box} {os : List (ClientObs 1 ε)} {pc : DispatchPc ε}
    (hguard : (loggerClient ε).step x (.queue (input (guardPlace x k))) = some (x', os))
    (hstep : s.adapter.resume print () = s.adapter.stepGuard () 0 k input pc)
    (hpc : pc.returned = false) : (systemMachine print).step s (.resume ()) =
      some ({ s with adapter := (s.adapter.setClient 0 x').setPc () pc },
        (os.map (.client 0)).map .adapter) := by
  have hresume := resumeDispatch_of_step h hcall hlock
    (hstep.trans (stepGuard_of_step hx hguard pc))
  rw [setPc_pc_self, hpc] at hresume
  exact hresume

theorem SoloAt.destroyGuard (h : SoloAt s ⟨mode, .destroyGuard logged i, accepted, taken⟩) :
    Follows print s ⟨mode, .destroyGuard logged i, accepted, taken⟩ := by
  obtain ⟨x, hx, hclient⟩ := h.one
  obtain ⟨x', os, hguard, hclient'⟩ := hclient.destroyGuard
  have hpc : s.adapter.pc () = .destroyGuard i 0 (taken - 1) := h.pc
  have hstep : s.adapter.resume print () =
      s.adapter.stepGuard () 0 (taken - 1) (.destroyGuard 0) (.freeGuard i 0 (taken - 1)) := by
    simp only [LoggerAdapter.resume, hpc]
  refine ⟨_, _, h.resume_guard rfl rfl hx hguard hstep rfl, ?_, fun w => ?_⟩
  · exact { h with one := ⟨x', setClient_clients hx, hclient'⟩, pc := rfl }
  · exact iff_of_false (logged_not_mem w _) id

theorem SoloAt.freeGuard (h : SoloAt s ⟨mode, .freeGuard logged i, accepted, taken⟩) :
    Follows print s ⟨mode, .freeGuard logged i, accepted, taken⟩ := by
  obtain ⟨x, hx, hclient⟩ := h.one
  obtain ⟨x', os, hguard, hclient'⟩ := hclient.freeGuard
  have hpc : s.adapter.pc () = .freeGuard i 0 (taken - 1) := h.pc
  have hstep : s.adapter.resume print () =
      s.adapter.stepGuard () 0 (taken - 1) (.guard 0) (.relock i) := by
    simp only [LoggerAdapter.resume, hpc]
  refine ⟨_, _, h.resume_guard rfl rfl hx hguard hstep rfl, ?_, fun w => ?_⟩
  · exact { h with one := ⟨x', setClient_clients hx, hclient'⟩, pc := rfl }
  · exact iff_of_false (logged_not_mem w _) id

theorem SoloAt.relock (h : SoloAt s ⟨mode, .relock logged i, accepted, taken⟩) :
    Follows print s ⟨mode, .relock logged i, accepted, taken⟩ := by
  have hpc : s.adapter.pc () = .relock i := h.pc
  have hstep : (adapterMachine print).step s.adapter (.resume ()) = s.adapter.finish () i := by
    simp only [adapterMachine, LoggerAdapter.resume, hpc]
  have hfinish : s.adapter.finish () i = some ({ s.adapter with
      cindex := (s.adapter.cindex + (i + 1)) % s.adapter.clients.length }.setPc () .idle,
      [.flushed s.adapter.listener, .returned () true]) := by
    simp only [LoggerAdapter.finish, h.mutex, SoloPhase.mutex]
  have hresume := resumeDispatch_of_step h rfl rfl (hstep.trans hfinish)
  rw [setPc_pc_self] at hresume
  refine ⟨_, _, hresume, { h with call := rfl, pc := rfl }, fun w => ?_⟩
  rw [List.mem_append, or_iff_right (logged_not_mem w _)]
  cases logged <;> simp [Solo.Logs]

theorem SoloAt.changing_next (h : SoloAt s ⟨mode, .changing i, accepted, taken⟩) :
    Follows print s ⟨mode, .changing i, accepted, taken⟩ := by
  have hresume : (systemMachine print).step s (.resume ()) = s.resumeChange () i := by
    simp only [systemMachine, LoggerSystem.resume, h.call, h.client, SoloPhase.call]
  have hlen : s.synch.length = 1 := by rw [h.synch]; rfl
  by_cases hi : i < 1
  · obtain rfl : i = 0 := by omega
    have hchange : s.resumeChange () 0 = some (LoggerSystem.setCall { s with
        synch := s.synch.set 0 (decide (s.mode = Mode.synch)) } () (.changing 1), []) := by
      simp only [LoggerSystem.resumeChange, hlen, if_pos hi]
    refine ⟨_, _, hresume.trans hchange, ?_, fun w => iff_of_false List.not_mem_nil id⟩
    have hsynch : s.synch.set 0 (decide (s.mode = Mode.synch)) = [decide (mode = Mode.synch)] := by
      rw [h.synch, h.mode]
      rfl
    exact { h with call := rfl, synch := hsynch }
  · have hchange : s.resumeChange () i =
        some (LoggerSystem.setCall { s with changing := none } () .idle, []) := by
      simp only [LoggerSystem.resumeChange, hlen, if_neg hi]
    refine ⟨_, _, hresume.trans hchange, ?_, fun w => iff_of_false List.not_mem_nil id⟩
    have hsynch := h.synch
    simp only [Solo.resume, if_neg hi]
    cases i with
    | zero => exact absurd Nat.zero_lt_one hi
    | succ i => exact { h with call := rfl, changing := rfl }

/-- Every step of the only thread is enabled, and leads where the abstract thread goes. -/
theorem soloAt_resume {a : Solo} (h : SoloAt s a)
    (hreach : (adapterMachine print).Reaches (.start sstream listener) s.adapter log)
    (hphase : a.phase ≠ .idle) : Follows print s a := by
  obtain ⟨mode, phase, accepted, taken⟩ := a
  cases phase with
  | idle => exact absurd rfl hphase
  | constructed => exact h.constructed hreach
  | writing => exact h.writing
  | publishing => exact h.publishing
  | written => exact h.written
  | loadSynch => exact h.loadSynch
  | synchDispatch => exact h.synchDispatch
  | scan logged i => exact h.scan hreach
  | notify logged i => exact h.notify
  | destroyGuard logged i => exact h.destroyGuard
  | freeGuard logged i => exact h.freeGuard
  | relock logged i => exact h.relock
  | changing i => exact h.changing_next

/-! ## Calls that begin -/

theorem call_ne_idle {a : Solo} (h : SoloAt s a) (hphase : a.phase ≠ .idle) :
    s.call () ≠ .idle := by
  rw [h.call]
  intro hcall
  apply hphase
  cases hp : a.phase with
  | idle => rfl
  | _ => simp [hp, SoloPhase.call] at hcall

variable (print) in
theorem SoloAt.log_call (h : SoloAt s ⟨mode, .idle, accepted, taken⟩) (content : ε) :
    ∃ s' os, (systemMachine print).step s (.log () content) = some (s', os) ∧
      SoloAt s' ⟨mode, .constructed, accepted, taken⟩ ∧ ∀ w, .logged () w ∉ os := by
  obtain ⟨x, hx, hclient⟩ := h.one
  obtain ⟨x', os, hstep, hclient'⟩ := hclient.construct content
  have hadapter := adapter_client print (s := s) hx (i := .construct content) trivial hstep
  have hlog : (systemMachine print).step s (.log () content) =
      some (LoggerSystem.setCall { s with adapter := s.adapter.setClient 0 x' } () .logging,
        (os.map (.client 0)).map .adapter) := by
    simp only [systemMachine, LoggerSystem.log, h.call, h.client, SoloPhase.call, hadapter]
  refine ⟨_, _, hlog, ?_, fun w => logged_not_mem w _⟩
  exact { h with call := rfl, one := ⟨x', setClient_clients hx, hclient'⟩ }

variable (print) in
theorem SoloAt.changeMode (h : SoloAt s ⟨mode, .idle, accepted, taken⟩) (newmode : Mode) :
    ∃ s' os, (systemMachine print).step s (.changeMode () newmode) = some (s', os) ∧
      SoloAt s' (Solo.next ⟨mode, .idle, accepted, taken⟩ (.changeMode (ε := ε) () newmode)) := by
  by_cases hmode : mode = newmode
  · have hchange : (systemMachine print).step s (.changeMode () newmode) = some (s, []) := by
      simp only [systemMachine, LoggerSystem.changeMode, h.call, h.mutex, h.changing, h.mode, hmode,
        SoloPhase.call, SoloPhase.mutex, SoloPhase.lock, ne_eq, not_true_eq_false, if_false]
    refine ⟨_, _, hchange, ?_⟩
    simp only [Solo.next, if_pos hmode]
    exact h
  · have hchange : (systemMachine print).step s (.changeMode () newmode) =
        some (LoggerSystem.setCall { s with mode := newmode, changing := some () } () (.changing 0),
          []) := by
      simp only [systemMachine, LoggerSystem.changeMode, h.call, h.mutex, h.changing, h.mode, hmode,
        SoloPhase.call, SoloPhase.mutex, SoloPhase.lock, ne_eq, not_false_eq_true, if_true]
    refine ⟨_, _, hchange, ?_⟩
    simp only [Solo.next, if_neg hmode]
    have hsynch : s.synch = [decide (newmode ≠ .synch)] := by
      rw [h.synch]
      cases mode <;> cases newmode <;> first | rfl | exact absurd rfl hmode
    exact { h with mode := rfl, call := rfl, changing := rfl, synch := hsynch }

variable (print) in
theorem SoloAt.dispatch_call (h : SoloAt s ⟨mode, .idle, accepted, taken⟩) :
    ∃ s' os, (systemMachine print).step s (.dispatch ()) = some (s', os) ∧
      SoloAt s' ⟨mode, .scan false 0, accepted, taken⟩ := by
  have hdispatch : (systemMachine print).step s (.dispatch ()) = s.dispatch print () false := by
    simp only [systemMachine, h.call, SoloPhase.call]
  refine ⟨_, _, hdispatch.trans (dispatch_of_free h rfl rfl h.pc false), ?_⟩
  exact { h with call := rfl, pc := rfl, mutex := rfl }

/-- A listener is replaced. -/
theorem SoloAt.replaced {a : Solo} {os : List (SystemObs Unit ε)} (h : SoloAt s a)
    (hs : s.replaceListener print listener = some (s', os)) : SoloAt s' a := by
  unfold LoggerSystem.replaceListener at hs
  split at hs
  · obtain ⟨adapter, os', hstep, rfl, rfl⟩ := stepAdapter_eq_some hs
    cases adapterStep_of_step hstep with
    | replaced => exact { h with }
  · cases hs

/-- A call begins when no other one is on its way. -/
theorem call_eq_idle_of_begins {i : SystemInput Unit ε} {os : List (SystemObs Unit ε)}
    (hi : i.Begins) (hs : (systemMachine print).step s i = some (s', os)) : s.call () = .idle := by
  cases i with
  | clientGuard d =>
    simp only [systemMachine, LoggerSystem.clientGuard] at hs
    split at hs
    · assumption
    · assumption
    · cases hs
  | log d content =>
    simp only [systemMachine, LoggerSystem.log] at hs
    split at hs
    · assumption
    · assumption
    · cases hs
  | dispatch d =>
    simp only [systemMachine] at hs
    split at hs
    · assumption
    · cases hs
  | changeMode d newmode =>
    simp only [systemMachine, LoggerSystem.changeMode] at hs
    split at hs
    · assumption
    · cases hs
  | replaceListener listener | resume d => exact absurd hi id

/-- Whatever the thread does, it stands somewhere. -/
theorem soloAt_step {a : Solo} {i : SystemInput Unit ε} {os : List (SystemObs Unit ε)}
    (h : SoloAt s a)
    (hreach : (adapterMachine print).Reaches (.start sstream listener) s.adapter log)
    (hs : (systemMachine print).step s i = some (s', os)) :
    SoloAt s' (a.next i) ∧ (i.Begins → a.phase = .idle) := by
  have hbegins : i.Begins → a.phase = .idle := by
    intro hi
    by_contra hphase
    exact call_ne_idle h hphase (call_eq_idle_of_begins hi hs)
  refine ⟨?_, hbegins⟩
  obtain ⟨mode, phase, accepted, taken⟩ := a
  cases i with
  | clientGuard d =>
    obtain rfl : phase = .idle := hbegins trivial
    simp only [systemMachine, LoggerSystem.clientGuard, h.call, h.client, SoloPhase.call,
      Option.some.injEq, Prod.mk.injEq] at hs
    exact hs.1 ▸ h
  | log d content =>
    obtain rfl : phase = .idle := hbegins trivial
    obtain ⟨s₁, os₁, hstep, hat, -⟩ := h.log_call print content
    rw [hstep] at hs
    cases hs
    exact hat
  | dispatch d =>
    obtain rfl : phase = .idle := hbegins trivial
    obtain ⟨s₁, os₁, hstep, hat⟩ := h.dispatch_call print
    rw [hstep] at hs
    cases hs
    exact hat
  | changeMode d newmode =>
    obtain rfl : phase = .idle := hbegins trivial
    obtain ⟨s₁, os₁, hstep, hat⟩ := h.changeMode print newmode
    rw [hstep] at hs
    cases hs
    exact hat
  | replaceListener listener => exact h.replaced hs
  | resume d =>
    have hphase : phase ≠ .idle := by
      rintro rfl
      exact call_ne_idle_of_resume hs h.call
    obtain ⟨s₁, os₁, hstep, hat, -⟩ := soloAt_resume h hreach hphase
    rw [hstep] at hs
    cases hs
    exact hat

theorem soloAt_start : SoloAt (LoggerSystem.start () sstream listener : LoggerSystem Unit ε)
    ⟨.synch, .idle, 0, 0⟩ where
  mode := rfl
  client := rfl
  call := rfl
  one := by
    refine ⟨_, by rw [LoggerSystem.start, LoggerAdapter.start, newClient_eq]; rfl, ?_⟩
    exact ⟨rfl, rfl, rfl, rfl, rfl, fun g hg => absurd hg List.not_mem_nil, rfl, rfl⟩
  pc := rfl
  mutex := rfl
  changing := rfl
  synch := rfl

/-- In every history of the thread. -/
theorem soloAt_of_reaches {log : List (SystemObs Unit ε)}
    (h : (systemMachine print).Reaches (.start () sstream listener) s log) : ∃ a, SoloAt s a := by
  induction h with
  | start => exact ⟨_, soloAt_start⟩
  | step i before hs ih =>
    obtain ⟨a, ha⟩ := ih
    exact ⟨_, (soloAt_step ha (adapter_reaches before) hs).1⟩

/-- The call runs on, as long as the abstract thread is not idle. -/
theorem run_resume {log : List (SystemObs Unit ε)} {a : Solo} {n : ℕ} (h : SoloAt s a)
    (hreach : (systemMachine print).Reaches (.start () sstream listener) s log)
    (hn : ∀ m < n, (Solo.resume^[m] a).phase ≠ .idle) : ∃ s' os,
      (systemMachine print).run s (List.replicate n (.resume ())) = some (s', os) ∧
      SoloAt s' (Solo.resume^[n] a) ∧
      ∀ w, .logged () w ∈ os ↔ ∃ m < n, (Solo.resume^[m] a).Logs w := by
  induction n generalizing s log a with
  | zero => exact ⟨s, [], rfl, h, by simp⟩
  | succ n ih =>
    obtain ⟨s₁, os₁, hstep, hat, hlogs⟩ :=
      soloAt_resume h (adapter_reaches hreach) (hn 0 (Nat.succ_pos n))
    obtain ⟨s₂, os₂, hrun, hat', hlogs'⟩ := ih hat (hreach.step _ hstep)
      fun m hm => hn (m + 1) (Nat.succ_lt_succ hm)
    refine ⟨s₂, os₁ ++ os₂, ?_, hat', fun w => ?_⟩
    · simp only [List.replicate_succ, Machine.run, hstep, hrun]
    · rw [List.mem_append, hlogs, hlogs']
      constructor
      · rintro (hw | ⟨m, hm, hw⟩)
        · exact ⟨0, Nat.succ_pos n, hw⟩
        · exact ⟨m + 1, Nat.succ_lt_succ hm, hw⟩
      · rintro ⟨m, hm, hw⟩
        cases m with
        | zero => exact .inl hw
        | succ m => exact .inr ⟨m, Nat.lt_of_succ_lt_succ hm, hw⟩

end Follow

end Ihft.Logger
