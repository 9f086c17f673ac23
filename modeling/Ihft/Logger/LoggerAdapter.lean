import Ihft.Logger.LoggerClient

/-!
# The logger adapter

The adapter owns the consumers of all clients.  A call of `dispatch` scans them under the mutex,
from the one after the last that had an event; the event it finds is formatted into the one stream
of the adapter, and the mutex is released before the listener is notified with the contents of that
stream.  Then the guard of the event is destroyed, and the cursor moves on under the mutex again.
-/

namespace Ihft.Logger

open Observe GuardedBroadcast Channel Memory

variable {δ ε : Type*}

/-- The state of a `std::ostringstream` that a printer can see and change. -/
structure OStringStream where
  flags : ℕ
  precision : ℤ
  width : ℤ
  fill : Char
  state : ℕ
  str : String
  deriving DecidableEq, Repr

/-- `queue_t` of the logger. -/
abbrev LoggerQueue := One2One.ObjectState .uint64 1 Box

abbrev LoggerQueue.machine : Machine LoggerQueue (ObjectInput 1 Box) (Obs (Fin 1) Box) :=
  One2One.objectMachine .uint64 1 Box

/-- How far a thread has got with its call of `dispatch`: it looks at the `i`-th consumer from the
cursor, or has taken an event of the client `c` with its guard `k`. -/
inductive DispatchPc (ε : Type*)
  | idle
  | scan (i : ℕ)
  | notify (i c k : ℕ) (event : Option (Stored (LoggerEvent ε))) (listener : ℕ)
  | destroyGuard (i c k : ℕ)
  | freeGuard (i c k : ℕ)
  | relock (i : ℕ)
  deriving DecidableEq, Repr

/-- The adapter with its clients and the threads in `δ` that call `dispatch`.  A listener is known
by a number. -/
structure LoggerAdapter (δ ε : Type*) where
  clients : List (ClientState LoggerQueue ε)
  cindex : ℕ
  sstream : OStringStream
  flags : ℕ
  precision : ℤ
  width : ℤ
  listener : ℕ
  mutex : Option δ
  pc : δ → DispatchPc ε

/-- `resume d` goes on with the call of `dispatch` by `d`. -/
inductive AdapterInput (δ ε : Type*)
  | registerClient
  | client (c : ℕ) (i : ClientInput 1 ε)
  | replaceListener (listener : ℕ)
  | dispatch (d : δ)
  | resume (d : δ)

/-- What is seen of the adapter.  `taken` shows the text that the event was formatted to, and
`notified` the text that the listener was given. -/
inductive AdapterObs (δ ε : Type*)
  | registered
  | client (c : ℕ) (o : ClientObs 1 ε)
  | called (d : δ)
  | taken (d : δ) (c : ℕ) (event : Option (Stored (LoggerEvent ε))) (text : String)
  | notified (d : δ) (c : ℕ) (event : Option (Stored (LoggerEvent ε))) (listener : ℕ)
      (text : String)
  | flushed (listener : ℕ)
  | returned (d : δ) (flush : Bool)
  deriving DecidableEq, Repr

/-- `QUEUE_SIZE`. -/
def queueSize : ℕ := 4 * 1024

/-- The queue and the pool of a new client, unless `make` fails. -/
def newClient (ε : Type*) : Option (ClientState LoggerQueue ε) :=
  match One2One.make .uint64 queueSize 1 with
  | some ⟨producer, [reader]⟩ =>
    some (.start (.start Box ⟨producer, [reader]⟩ true) (.ofCapacity queueSize))
  | _ => none

/-- What `try_read` of a consumer yields. -/
def readEvent (os : List (ClientObs 1 ε)) : Option (Option (Stored (LoggerEvent ε))) :=
  os.findSome? fun
    | .queue (.read _ x) => some x
    | _ => none

/-- The place of the guard `k` among the guards of the consumer. -/
def guardPlace (client : ClientState LoggerQueue ε) (k : ℕ) : ℕ :=
  (client.queue.readers 0).guards.findIdx fun g => g.number = k

namespace LoggerAdapter

variable [DecidableEq δ]

def setClient (s : LoggerAdapter δ ε) (c : ℕ) (client : ClientState LoggerQueue ε) :
    LoggerAdapter δ ε :=
  { s with clients := s.clients.set c client }

def setPc (s : LoggerAdapter δ ε) (d : δ) (pc : DispatchPc ε) : LoggerAdapter δ ε :=
  { s with pc := Function.update s.pc d pc }

/-- `register_logger_client`; the clients are appended under the mutex. -/
def registerClient (s : LoggerAdapter δ ε) :
    Option (LoggerAdapter δ ε × List (AdapterObs δ ε)) :=
  match s.mutex, newClient ε with
  | none, some client => some ({ s with clients := s.clients ++ [client] }, [.registered])
  | _, _ => none

/-- A step of the client `c`. -/
def stepClient (s : LoggerAdapter δ ε) (c : ℕ) (i : ClientInput 1 ε) :
    Option (LoggerAdapter δ ε × List (ClientObs 1 ε)) :=
  match s.clients[c]? with
  | none => none
  | some client =>
    match (clientMachine ε LoggerQueue.machine).step client i with
    | none => none
    | some (client, os) => some (s.setClient c client, os)

def replaceListener (s : LoggerAdapter δ ε) (listener : ℕ) :
    Option (LoggerAdapter δ ε × List (AdapterObs δ ε)) :=
  match s.mutex with
  | none => some ({ s with listener := listener }, [])
  | some _ => none

/-- `dispatch` up to its first lock. -/
def dispatch (s : LoggerAdapter δ ε) (d : δ) : Option (LoggerAdapter δ ε × List (AdapterObs δ ε)) :=
  match s.mutex, s.pc d with
  | none, .idle => some ({ s with mutex := some d }.setPc d (.scan 0), [.called d])
  | _, _ => none

/-- "reset state before next formatting". -/
def resetStream (s : LoggerAdapter δ ε) : OStringStream :=
  { s.sstream with flags := s.flags, precision := s.precision, width := s.width, str := "" }

/-- The stream after the event was printed to it; `print` is `print_args_to`. -/
def format (print : ε → OStringStream → OStringStream) (s : LoggerAdapter δ ε)
    (event : Option (Stored (LoggerEvent ε))) : OStringStream :=
  match event with
  | none => s.resetStream
  | some x => print x.value.content s.resetStream

/-- The number of guards handed out by the consumer of the client `c`. -/
def guardsTaken (s : LoggerAdapter δ ε) (c : ℕ) : ℕ :=
  match s.clients[c]? with
  | none => 0
  | some client => (client.queue.readers 0).taken

/-- One turn of the loop of `dispatch`, or its end. -/
def scan (print : ε → OStringStream → OStringStream) (s : LoggerAdapter δ ε) (d : δ) (i : ℕ) :
    Option (LoggerAdapter δ ε × List (AdapterObs δ ε)) :=
  if i < s.clients.length then
    let c := (s.cindex + i) % s.clients.length
    match s.stepClient c (.queue (.tryRead 0)) with
    | none => none
    | some (s', os) =>
      match readEvent os with
      | none => some (s'.setPc d (.scan (i + 1)), os.map (.client c))
      | some event =>
        let sstream := s.format print event
        -- the mutex is released with the text still in the stream
        some ({ s' with sstream := sstream, mutex := none }.setPc d
            (.notify i c (s.guardsTaken c) event s.listener),
          os.map (.client c) ++ [.taken d c event sstream.str])
  else
    some ({ s with mutex := none }.setPc d .idle, [.returned d false])

/-- One of the two steps of the destructor of the guard. -/
def stepGuard (s : LoggerAdapter δ ε) (d : δ) (c k : ℕ) (i : ℕ → ObjectInput 1 Box)
    (pc : DispatchPc ε) : Option (LoggerAdapter δ ε × List (AdapterObs δ ε)) :=
  match s.clients[c]? with
  | none => none
  | some client =>
    match s.stepClient c (.queue (i (guardPlace client k))) with
    | none => none
    | some (s, os) => some (s.setPc d pc, os.map (.client c))

/-- The second locked section of `dispatch`. -/
def finish (s : LoggerAdapter δ ε) (d : δ) (i : ℕ) :
    Option (LoggerAdapter δ ε × List (AdapterObs δ ε)) :=
  match s.mutex with
  | none => some ({ s with cindex := (s.cindex + (i + 1)) % s.clients.length }.setPc d .idle,
      [.flushed s.listener, .returned d true])
  | some _ => none

/-- The call of `dispatch` by `d` goes on. -/
def resume (print : ε → OStringStream → OStringStream) (s : LoggerAdapter δ ε) (d : δ) :
    Option (LoggerAdapter δ ε × List (AdapterObs δ ε)) :=
  match s.pc d with
  | .idle => none
  | .scan i => s.scan print d i
  | .notify i c k event listener =>
    some (s.setPc d (.destroyGuard i c k), [.notified d c event listener s.sstream.str])
  | .destroyGuard i c k => s.stepGuard d c k (.destroyGuard 0) (.freeGuard i c k)
  | .freeGuard i c k => s.stepGuard d c k (.guard 0) (.relock i)
  | .relock i => s.finish d i

/-- A new adapter, with the client of the thread that creates it. -/
def start (sstream : OStringStream) (listener : ℕ) : LoggerAdapter δ ε where
  clients := (newClient ε).toList
  cindex := 0
  sstream := sstream
  flags := sstream.flags
  precision := sstream.precision
  width := sstream.width
  listener := listener
  mutex := none
  pc _ := .idle

end LoggerAdapter

/-- The steps of a client that its own thread takes. -/
def ClientInput.OfProducer : ClientInput 1 ε → Prop
  | .construct _ | .tryWrite | .seek | .queue .writer => True
  | _ => False

instance : DecidablePred (ClientInput.OfProducer (ε := ε)) := fun i => by
  unfold ClientInput.OfProducer
  split <;> infer_instance

/-- The adapter as a machine. -/
def adapterMachine [DecidableEq δ] (print : ε → OStringStream → OStringStream) :
    Machine (LoggerAdapter δ ε) (AdapterInput δ ε) (AdapterObs δ ε) where
  step s
    | .registerClient => s.registerClient
    | .client c i =>
      if i.OfProducer then
        (s.stepClient c i).map fun x => (x.1, x.2.map (.client c))
      else
        none
    | .replaceListener listener => s.replaceListener listener
    | .dispatch d => s.dispatch d
    | .resume d => s.resume print d

end Ihft.Logger
