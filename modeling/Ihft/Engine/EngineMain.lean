import Ihft.Logger.LoggerSystem

/-!
# A run of `engine_main`

The main thread lets the user register the tasks, creates one thread for each logical cpu, switches
the logger to the asynchronous mode if one of them is the logger thread, and joins them all; when
the process exits, the handler of `atexit` deletes the adapter.  A thread registers a client, binds
itself to its cpu, and calls its task until the task returns `false` or the stop flag is cleared.
The flag is cleared by the signal handler, at any time.

What the tasks do is open: the task of the logger thread calls `dispatch` and returns `true`, any
other task logs as it likes.
-/

namespace Ihft.Engine

open Observe Logger

variable {ε : Type*}

/-- `LOGGER_TASK`. -/
def loggerTask : String := "logger"

/-- `cpus_config`: the names of the logical cpus, in the order of the map that holds them. -/
structure CpusConfig where
  names : List String
  nodup : names.Nodup

/-- The threads of the process. -/
inductive Thread
  | main
  | cpu (name : String)
  deriving DecidableEq, Repr

/-- Where the main thread is: inside `register_tasks`, at `if (not g_until)`, in the loop that
creates the threads, inside `change_mode` or `join`, after the return of `engine_main`, and after
the handler of `atexit`. -/
inductive MainPc
  | registerTasks
  | checkUntil
  | creating (names : List String)
  | joining
  | returned (joined : Bool)
  | deleted (joined : Bool)
  deriving DecidableEq, Repr

/-- Where the thread of a logical cpu is; `called` says that the task has called `dispatch`. -/
inductive ThreadPc
  | absent
  | started
  | registered
  | loop
  | task (called : Bool)
  | ended
  deriving DecidableEq, Repr

/-- The process. -/
structure EngineState (ε : Type*) where
  system : LoggerSystem Thread ε
  gUntil : Bool
  main : MainPc
  thread : String → ThreadPc

/-- The moves of the threads, and of the signal handler.  `resume d` goes on with the call of the
logger by `d`. -/
inductive EngineInput (ε : Type*)
  | signal
  | registerTasks (ok : Bool)
  | checkUntil
  | create
  | changeMode
  | join
  | atexit
  | clientGuard (name : String)
  | bind (name : String) (ok : Bool)
  | load (name : String)
  | dispatch (name : String)
  | returnTask (name : String) (ok : Bool)
  | log (d : Thread) (content : ε)
  | resume (d : Thread)

namespace EngineState

def setThread (s : EngineState ε) (name : String) (pc : ThreadPc) : EngineState ε :=
  { s with thread := Function.update s.thread name pc }

/-- A step of the logger. -/
def stepSystem (print : ε → OStringStream → OStringStream) (s : EngineState ε)
    (i : SystemInput Thread ε) : Option (EngineState ε × List (SystemObs Thread ε)) :=
  match (systemMachine print).step s.system i with
  | none => none
  | some (system, os) => some ({ s with system := system }, os)

/-- `register_tasks` returns. -/
def registerTasks (s : EngineState ε) (ok : Bool) :
    Option (EngineState ε × List (SystemObs Thread ε)) :=
  match s.main, s.system.call .main with
  | .registerTasks, .idle =>
    some ({ s with main := if ok then .checkUntil else .returned false }, [])
  | _, _ => none

/-- `if (not g_until)`. -/
def checkUntil (cfg : CpusConfig) (s : EngineState ε) :
    Option (EngineState ε × List (SystemObs Thread ε)) :=
  match s.main with
  | .checkUntil =>
    some ({ s with main := if s.gUntil then .creating cfg.names else .returned false }, [])
  | _ => none

/-- `m_threads.emplace_back`. -/
def create (s : EngineState ε) : Option (EngineState ε × List (SystemObs Thread ε)) :=
  match s.main with
  | .creating (name :: names) =>
    some ({ s with main := .creating names }.setThread name .started, [])
  | _ => none

/-- The engine is there; `change_mode` is called when one of the cpus is for the logger. -/
def changeMode (print : ε → OStringStream → OStringStream) (cfg : CpusConfig)
    (s : EngineState ε) : Option (EngineState ε × List (SystemObs Thread ε)) :=
  match s.main with
  | .creating [] =>
    if loggerTask ∈ cfg.names then
      { s with main := .joining }.stepSystem print (.changeMode .main .async)
    else
      some ({ s with main := .joining }, [])
  | _ => none

/-- `engine.join()` returns, and `engine_main` with it. -/
def join (cfg : CpusConfig) (s : EngineState ε) :
    Option (EngineState ε × List (SystemObs Thread ε)) :=
  match s.main, s.system.call .main with
  | .joining, .idle =>
    if ∀ name ∈ cfg.names, s.thread name = .ended then
      some ({ s with main := .returned true }, [])
    else
      none
  | _, _ => none

/-- `atexit_handler`. -/
def atexit (s : EngineState ε) : Option (EngineState ε × List (SystemObs Thread ε)) :=
  match s.main with
  | .returned joined => some ({ s with main := .deleted joined }, [])
  | _ => none

/-- The guard of the thread is constructed. -/
def clientGuard (print : ε → OStringStream → OStringStream) (s : EngineState ε) (name : String) :
    Option (EngineState ε × List (SystemObs Thread ε)) :=
  match s.thread name with
  | .started => (s.setThread name .registered).stepSystem print (.clientGuard (.cpu name))
  | _ => none

/-- `if (not lcpu.bind()) return`. -/
def bind (s : EngineState ε) (name : String) (ok : Bool) :
    Option (EngineState ε × List (SystemObs Thread ε)) :=
  match s.thread name with
  | .registered => some (s.setThread name (if ok then .loop else .ended), [])
  | _ => none

/-- `until.load(std::memory_order_relaxed)`. -/
def load (s : EngineState ε) (name : String) :
    Option (EngineState ε × List (SystemObs Thread ε)) :=
  match s.thread name with
  | .loop => some (s.setThread name (if s.gUntil then .task false else .ended), [])
  | _ => none

/-- The task of the logger thread calls `dispatch`. -/
def dispatch (print : ε → OStringStream → OStringStream) (s : EngineState ε) (name : String) :
    Option (EngineState ε × List (SystemObs Thread ε)) :=
  match s.thread name with
  | .task false =>
    if name = loggerTask then
      (s.setThread name (.task true)).stepSystem print (.dispatch (.cpu name))
    else
      none
  | _ => none

/-- The task returns `ok`. -/
def returnTask (s : EngineState ε) (name : String) (ok : Bool) :
    Option (EngineState ε × List (SystemObs Thread ε)) :=
  match s.thread name, s.system.call (.cpu name) with
  | .task called, .idle =>
    if name = loggerTask ∧ ¬ (called ∧ ok) then
      -- the task of the logger thread returns `true`, after its call of `dispatch`
      none
    else
      some (s.setThread name (if ok then .loop else .ended), [])
  | _, _ => none

/-- A task logs, or `register_tasks` does. -/
def log (print : ε → OStringStream → OStringStream) (s : EngineState ε) (d : Thread) (content : ε) :
    Option (EngineState ε × List (SystemObs Thread ε)) :=
  match d with
  | .main =>
    match s.main with
    | .registerTasks => s.stepSystem print (.log .main content)
    | _ => none
  | .cpu name =>
    match s.thread name with
    | .task _ => if name = loggerTask then none else s.stepSystem print (.log (.cpu name) content)
    | _ => none

def start (sstream : OStringStream) (listener : ℕ) : EngineState ε where
  system := .start .main sstream listener
  gUntil := true
  main := .registerTasks
  thread _ := .absent

end EngineState

/-- `engine_main` as a machine. -/
def engineMachine (cfg : CpusConfig) (print : ε → OStringStream → OStringStream) :
    Machine (EngineState ε) (EngineInput ε) (SystemObs Thread ε) where
  step s
    | .signal => some ({ s with gUntil := false }, [])
    | .registerTasks ok => s.registerTasks ok
    | .checkUntil => s.checkUntil cfg
    | .create => s.create
    | .changeMode => s.changeMode print cfg
    | .join => s.join cfg
    | .atexit => s.atexit
    | .clientGuard name => s.clientGuard print name
    | .bind name ok => s.bind name ok
    | .load name => s.load name
    | .dispatch name => s.dispatch print name
    | .returnTask name ok => s.returnTask name ok
    | .log d content => s.log print d content
    | .resume d => s.stepSystem print (.resume d)

end Ihft.Engine
