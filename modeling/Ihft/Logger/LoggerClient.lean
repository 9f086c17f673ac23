import Ihft.Channel.ObjectStep
import Ihft.Memory.StreamFixedPoolAllocator

/-!
# The client of a logging thread

A `logger_client` owns the producer of an object queue whose events are boxes, that is pointers to
`logger_event`s in the slabs of the content allocator.  A log call constructs the event in the
active slab, offers its box to the queue and moves the pool on when the queue took it.  The machine
of a client runs the machine of its queue and keeps account of the slabs.

`toLog` reads the boxes in the observations of the queue as the events they point to.
-/

namespace Ihft.Logger

open Observe GuardedBroadcast Channel Memory StreamFixedPoolAllocator

variable {R : ℕ} {σ ε : Type*}

/-- `types::box<logger_event>`. -/
structure Box where
  slab : ℕ
  deriving DecidableEq, Repr

/-- A `logger_event`; `serial` counts the constructions, and no step depends on it. -/
structure LoggerEvent (ε : Type*) where
  serial : ℕ
  content : ε
  deriving DecidableEq, Repr

/-- How far the thread has got with its log call. -/
inductive ClientPc
  | idle
  | constructed
  | writing
  | written
  | gone
  deriving DecidableEq, Repr

/-- A `logger_client` with its queue, the pool of the queue and the events in the slabs.  `count`
is the number of events constructed so far. -/
structure ClientState (σ ε : Type*) where
  queue : σ
  allocator : StreamFixedPoolAllocator
  slabs : ℕ → Option (LoggerEvent ε)
  pc : ClientPc
  lost : ℕ
  count : ℕ

inductive ClientInput (R : ℕ) (ε : Type*)
  | construct (content : ε)
  | tryWrite
  | seek
  | queue (i : ObjectInput R Box)
  deriving DecidableEq, Repr

/-- What is seen of a client.  `before` is what the slab held when the event was constructed in it,
and `discarded` the end of an event with the temporary box of a refused write. -/
inductive ClientObs (R : ℕ) (ε : Type*)
  | constructed (slab : ℕ) (before : Option (LoggerEvent ε)) (x : LoggerEvent ε)
  | discarded (x : Option (LoggerEvent ε))
  | queue (o : Obs (Fin R) (LoggerEvent ε))
  deriving DecidableEq, Repr

/-- The event that a box taken from the queue points to. -/
def unbox (slabs : ℕ → Option (LoggerEvent ε)) (x : Option (Stored Box)) :
    Option (Stored (LoggerEvent ε)) :=
  x.bind fun y => (slabs y.value.slab).map (Stored.mk y.number)

/-- `std::destroy_at(m_ptr)` in the destructor of a box. -/
def destroyAt (slabs : ℕ → Option (LoggerEvent ε)) (box : Box) : ℕ → Option (LoggerEvent ε) :=
  Function.update slabs box.slab none

namespace ClientState

def start (queue : σ) (allocator : StreamFixedPoolAllocator) : ClientState σ ε :=
  ⟨queue, allocator, fun _ => none, .idle, 0, 0⟩

/-- What an observation of the queue means for the slabs and for the log call. -/
def observe (s : ClientState σ ε) : Obs (Fin R) Box → ClientState σ ε × List (ClientObs R ε)
  | .offered box =>
    ({ s with pc := .writing }, (s.slabs box.slab).toList.map fun x => .queue (.offered x))
  | .wrote box =>
    ({ s with pc := .written }, (s.slabs box.slab).toList.map fun x => .queue (.wrote x))
  | .refused box =>
    -- the box is still the caller's temporary, which destroys the event
    ({ s with slabs := destroyAt s.slabs box, pc := .idle, lost := s.lost + 1 },
      (s.slabs box.slab).toList.map (fun x => .queue (.refused x)) ++
        [.discarded (s.slabs box.slab)])
  | .read r x => (s, [.queue (.read r (unbox s.slabs x))])
  | .empty r => (s, [.queue (.empty r)])
  | .dropped r k => (s, [.queue (.dropped r k)])
  | .destroyed who x =>
    ({ s with slabs := x.elim s.slabs fun y => destroyAt s.slabs y.value },
      [.queue (.destroyed who (unbox s.slabs x))])
  | .freed k => (s, [.queue (.freed k)])
  | .closed => (s, [.queue .closed])
  | .disposed => (s, [.queue .disposed])

def observeAll (s : ClientState σ ε) :
    List (Obs (Fin R) Box) → ClientState σ ε × List (ClientObs R ε)
  | [] => (s, [])
  | o :: os =>
    let head := s.observe o
    let tail := head.1.observeAll os
    (tail.1, head.2 ++ tail.2)

/-- A step of the queue. -/
def stepQueue (M : Machine σ (ObjectInput R Box) (Obs (Fin R) Box)) (s : ClientState σ ε)
    (i : ObjectInput R Box) : Option (ClientState σ ε × List (ClientObs R ε)) :=
  match M.step s.queue i with
  | none => none
  | some (queue, os) => some ({ s with queue := queue }.observeAll os)

/-- `std::construct_at(client->active_event_slab(), ...)`. -/
def construct (s : ClientState σ ε) (content : ε) :
    Option (ClientState σ ε × List (ClientObs R ε)) :=
  match s.pc with
  | .idle =>
    let slab := s.allocator.activeSlab
    let x := ⟨s.count, content⟩
    some ({ s with
        slabs := Function.update s.slabs slab (some x), pc := .constructed, count := s.count + 1 },
      [.constructed slab (s.slabs slab) x])
  | _ => none

/-- `ptr->try_write(types::box<logger_event>(event))` up to the load of `try_write`. -/
def tryWrite (M : Machine σ (ObjectInput R Box) (Obs (Fin R) Box)) (s : ClientState σ ε) :
    Option (ClientState σ ε × List (ClientObs R ε)) :=
  match s.pc with
  | .constructed => s.stepQueue M (.tryWrite ⟨s.allocator.activeSlab⟩)
  | _ => none

/-- `allocator.seek_to_next_slab()` after a successful write. -/
def seek (s : ClientState σ ε) : Option (ClientState σ ε × List (ClientObs R ε)) :=
  match s.pc with
  | .written => some ({ s with allocator := s.allocator.seekToNextSlab, pc := .idle }, [])
  | _ => none

/-- The destructor of the client. -/
def drop (M : Machine σ (ObjectInput R Box) (Obs (Fin R) Box)) (s : ClientState σ ε) :
    Option (ClientState σ ε × List (ClientObs R ε)) :=
  match s.pc with
  | .idle => { s with pc := .gone }.stepQueue M .dropProducer
  | _ => none

end ClientState

/-- The client as a machine over the machine of its queue. -/
def clientMachine (ε : Type*) (M : Machine σ (ObjectInput R Box) (Obs (Fin R) Box)) :
    Machine (ClientState σ ε) (ClientInput R ε) (ClientObs R ε) where
  step s
    | .construct content => s.construct content
    | .tryWrite => s.tryWrite M
    | .seek => s.seek
    | .queue (.tryWrite _) => none
    | .queue .dropProducer => s.drop M
    | .queue i => s.stepQueue M i

/-! ## Looking through the boxes -/

/-- The observations of the queue, with the events in place of their boxes. -/
def toLog (log : List (ClientObs R ε)) : List (Obs (Fin R) (LoggerEvent ε)) :=
  log.filterMap fun
    | .queue o => some o
    | _ => none

/-- The events that were constructed. -/
def constructs (log : List (ClientObs R ε)) : List (LoggerEvent ε) :=
  log.filterMap fun
    | .constructed _ _ x => some x
    | _ => none

/-- The events that ended with the temporary box. -/
def discards (log : List (ClientObs R ε)) : List (LoggerEvent ε) :=
  log.filterMap fun
    | .discarded x => x
    | _ => none

section Append

variable (l l' : List (ClientObs R ε))

@[simp] theorem toLog_append : toLog (l ++ l') = toLog l ++ toLog l' := List.filterMap_append

@[simp] theorem constructs_append : constructs (l ++ l') = constructs l ++ constructs l' :=
  List.filterMap_append

@[simp] theorem discards_append : discards (l ++ l') = discards l ++ discards l' :=
  List.filterMap_append

end Append

theorem mem_toLog {o : Obs (Fin R) (LoggerEvent ε)} {l : List (ClientObs R ε)} :
    o ∈ toLog l ↔ .queue o ∈ l := by
  rw [toLog, List.mem_filterMap]
  constructor
  · rintro ⟨o', ho, heq⟩
    split at heq
    · cases heq
      exact ho
    · cases heq
  · exact fun h => ⟨_, h, rfl⟩

theorem mem_discards {x : LoggerEvent ε} {l : List (ClientObs R ε)} :
    x ∈ discards l ↔ .discarded (some x) ∈ l := by
  rw [discards, List.mem_filterMap]
  constructor
  · rintro ⟨o, ho, heq⟩
    split at heq
    · rwa [← heq]
    · cases heq
  · exact fun h => ⟨_, h, rfl⟩

end Ihft.Logger
