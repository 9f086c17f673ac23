import Ihft.Logger.Delivery

/-!
# Threads that log

A thread logs through the client that it has registered.  In the synchronous mode `try_log_event`
calls `dispatch` after every event that the queue accepted; in the asynchronous mode it is left to
another thread.  The mode is changed under the mutex of the adapter, one client after the other,
and each client keeps a flag of its own, so that a thread that logs does not take the mutex.

The machine of the system runs the machine of the adapter, and every run of the system is one of
the adapter (`adapter_reaches`).
-/

namespace Ihft.Logger

open Observe GuardedBroadcast Channel

variable {δ ε : Type*}

/-- `logger_adapter::mode_t`. -/
inductive Mode
  | synch
  | async
  deriving DecidableEq, Repr

/-- How far a thread has got with its call of the logger: `try_log_event` (`logging`, `loadSynch`,
`synchDispatch` and `dispatching true`), `dispatch` (`dispatching false`) or `change_mode`, which
has told the mode to the first `i` clients. -/
inductive CallPc
  | idle
  | logging
  | loadSynch
  | synchDispatch
  | dispatching (logged : Bool)
  | changing (i : ℕ)
  deriving DecidableEq, Repr

/-- The adapter with the threads in `δ`.  `synch` holds the flag `m_synch` of every client, and
`client d` is the `tls_client` of the thread `d`.  While `change_mode` holds the mutex, `changing`
is the thread that called it; the mutex of `adapter` is the one taken by `dispatch`. -/
structure LoggerSystem (δ ε : Type*) where
  adapter : LoggerAdapter δ ε
  mode : Mode
  synch : List Bool
  client : δ → Option ℕ
  call : δ → CallPc
  changing : Option δ

/-- `resume d` goes on with the call of `d`. -/
inductive SystemInput (δ ε : Type*)
  | clientGuard (d : δ)
  | log (d : δ) (content : ε)
  | dispatch (d : δ)
  | changeMode (d : δ) (newmode : Mode)
  | replaceListener (listener : ℕ)
  | resume (d : δ)

/-- What is seen of the system; `logged` shows what `try_log_event` returns. -/
inductive SystemObs (δ ε : Type*)
  | adapter (o : AdapterObs δ ε)
  | logged (d : δ) (write : Bool)
  deriving DecidableEq, Repr

/-- What is seen of the adapter. -/
def adapterLog (log : List (SystemObs δ ε)) : List (AdapterObs δ ε) :=
  log.filterMap fun
    | .adapter o => some o
    | _ => none

/-- The call is about to take the mutex again. -/
def DispatchPc.relocks : DispatchPc ε → Bool
  | .relock _ => true
  | _ => false

/-- The call has returned. -/
def DispatchPc.returned : DispatchPc ε → Bool
  | .idle => true
  | _ => false

namespace LoggerSystem

variable [DecidableEq δ]

def setCall (s : LoggerSystem δ ε) (d : δ) (call : CallPc) : LoggerSystem δ ε :=
  { s with call := Function.update s.call d call }

/-- A step of the adapter. -/
def stepAdapter (print : ε → OStringStream → OStringStream) (s : LoggerSystem δ ε)
    (i : AdapterInput δ ε) : Option (LoggerSystem δ ε × List (SystemObs δ ε)) :=
  match (adapterMachine print).step s.adapter i with
  | none => none
  | some (adapter, os) => some ({ s with adapter := adapter }, os.map .adapter)

/-- The constructor of a `logger_client_thread_guard`. -/
def clientGuard (print : ε → OStringStream → OStringStream) (s : LoggerSystem δ ε) (d : δ) :
    Option (LoggerSystem δ ε × List (SystemObs δ ε)) :=
  match s.call d, s.client d, s.changing with
  | .idle, some _, _ => some (s, [])
  | .idle, none, none =>
    match s.stepAdapter print .registerClient with
    | none => none
    | some (s', os) =>
      some ({ s' with
          synch := s.synch ++ [decide (s.mode = Mode.synch)]
          client := Function.update s.client d (some s.adapter.clients.length) }, os)
  | _, _, _ => none

/-- `IHFT_LOG_IMPL` up to its `try_log_event`.  A thread without a client logs nothing. -/
def log (print : ε → OStringStream → OStringStream) (s : LoggerSystem δ ε) (d : δ) (content : ε) :
    Option (LoggerSystem δ ε × List (SystemObs δ ε)) :=
  match s.call d, s.client d with
  | .idle, none => some (s, [])
  | .idle, some c =>
    match s.stepAdapter print (.client c (.construct content)) with
    | none => none
    | some (s', os) => some (s'.setCall d .logging, os)
  | _, _ => none

/-- How far the log call with the client `c` has got. -/
def clientPc (s : LoggerSystem δ ε) (c : ℕ) : Option ClientPc := s.adapter.clients[c]?.map (·.pc)

/-- `try_log_event` up to its load of `m_synch`. -/
def resumeLog (print : ε → OStringStream → OStringStream) (s : LoggerSystem δ ε) (d : δ) (c : ℕ) :
    Option (LoggerSystem δ ε × List (SystemObs δ ε)) :=
  match s.clientPc c with
  | some .constructed =>
    match s.stepAdapter print (.client c .tryWrite) with
    | none => none
    | some (s', os) =>
      if s'.clientPc c = some .idle then
        -- the queue is full
        some (s'.setCall d .idle, os ++ [.logged d false])
      else
        some (s', os)
  | some .writing => s.stepAdapter print (.client c (.queue .writer))
  | some .written =>
    match s.stepAdapter print (.client c .seek) with
    | none => none
    | some (s', os) => some (s'.setCall d .loadSynch, os)
  | _ => none

/-- `m_synch.load(std::memory_order_relaxed)`. -/
def loadSynch (s : LoggerSystem δ ε) (d : δ) (c : ℕ) :
    Option (LoggerSystem δ ε × List (SystemObs δ ε)) :=
  match s.synch[c]? with
  | some true => some (s.setCall d .synchDispatch, [])
  | some false => some (s.setCall d .idle, [.logged d true])
  | none => none

/-- `dispatch` up to its first lock; `logged` says that `try_log_event` has called it. -/
def dispatch (print : ε → OStringStream → OStringStream) (s : LoggerSystem δ ε) (d : δ)
    (logged : Bool) : Option (LoggerSystem δ ε × List (SystemObs δ ε)) :=
  match s.changing, s.stepAdapter print (.dispatch d) with
  | none, some (s', os) => some (s'.setCall d (.dispatching logged), os)
  | _, _ => none

/-- The call of `dispatch` goes on, unless it waits for the mutex. -/
def resumeDispatch (print : ε → OStringStream → OStringStream) (s : LoggerSystem δ ε) (d : δ)
    (logged : Bool) : Option (LoggerSystem δ ε × List (SystemObs δ ε)) :=
  if (s.adapter.pc d).relocks ∧ s.changing ≠ none then
    none
  else
    match s.stepAdapter print (.resume d) with
    | none => none
    | some (s', os) =>
      if (s'.adapter.pc d).returned then
        some (s'.setCall d .idle, os ++ if logged then [.logged d true] else [])
      else
        some (s', os)

/-- `change_mode` up to its first store of `m_synch`. -/
def changeMode (s : LoggerSystem δ ε) (d : δ) (newmode : Mode) :
    Option (LoggerSystem δ ε × List (SystemObs δ ε)) :=
  match s.call d, s.adapter.mutex, s.changing with
  | .idle, none, none =>
    if s.mode ≠ newmode then
      some ({ s with mode := newmode, changing := some d }.setCall d (.changing 0), [])
    else
      some (s, [])
  | _, _, _ => none

/-- One turn of the loop of `change_mode`, or its end. -/
def resumeChange (s : LoggerSystem δ ε) (d : δ) (i : ℕ) :
    Option (LoggerSystem δ ε × List (SystemObs δ ε)) :=
  if i < s.synch.length then
    some ({ s with synch := s.synch.set i (decide (s.mode = Mode.synch)) }.setCall d
      (.changing (i + 1)), [])
  else
    some ({ s with changing := none }.setCall d .idle, [])

def replaceListener (print : ε → OStringStream → OStringStream) (s : LoggerSystem δ ε)
    (listener : ℕ) : Option (LoggerSystem δ ε × List (SystemObs δ ε)) :=
  match s.changing with
  | none => s.stepAdapter print (.replaceListener listener)
  | some _ => none

/-- The call of `d` goes on. -/
def resume (print : ε → OStringStream → OStringStream) (s : LoggerSystem δ ε) (d : δ) :
    Option (LoggerSystem δ ε × List (SystemObs δ ε)) :=
  match s.call d, s.client d with
  | .logging, some c => s.resumeLog print d c
  | .loadSynch, some c => s.loadSynch d c
  | .synchDispatch, _ => s.dispatch print d true
  | .dispatching logged, _ => s.resumeDispatch print d logged
  | .changing i, _ => s.resumeChange d i
  | _, _ => none

/-- A new adapter, created by the thread `main`. -/
def start (main : δ) (sstream : OStringStream) (listener : ℕ) : LoggerSystem δ ε where
  adapter := .start sstream listener
  mode := .synch
  synch := [true]
  client := Function.update (fun _ => none) main (some 0)
  call _ := .idle
  changing := none

end LoggerSystem

/-- The system as a machine. -/
def systemMachine [DecidableEq δ] (print : ε → OStringStream → OStringStream) :
    Machine (LoggerSystem δ ε) (SystemInput δ ε) (SystemObs δ ε) where
  step s
    | .clientGuard d => s.clientGuard print d
    | .log d content => s.log print d content
    | .dispatch d =>
      match s.call d with
      | .idle => s.dispatch print d false
      | _ => none
    | .changeMode d newmode => s.changeMode d newmode
    | .replaceListener listener => s.replaceListener print listener
    | .resume d => s.resume print d

/-! ## One step -/

/-- The thread that takes the step. -/
def SystemInput.thread : SystemInput δ ε → Option δ
  | .clientGuard d | .log d _ | .dispatch d | .changeMode d _ | .resume d => some d
  | .replaceListener _ => none

/-- The thread is inside `dispatch`. -/
def CallPc.Dispatching : CallPc → Prop
  | .dispatching _ => True
  | _ => False

@[simp] theorem adapterLog_append (l l' : List (SystemObs δ ε)) :
    adapterLog (l ++ l') = adapterLog l ++ adapterLog l' :=
  List.filterMap_append

@[simp] theorem adapterLog_map (os : List (AdapterObs δ ε)) :
    adapterLog (os.map .adapter) = os := by
  simp [adapterLog, List.filterMap_map]

/-- The step `j` of the adapter belongs to the step `i`: a call of `dispatch` goes on, or a producer
does, when its thread does. -/
structure Moves (s : LoggerSystem δ ε) (i : SystemInput δ ε) (j : AdapterInput δ ε) : Prop where
  resume : ∀ d, j = .resume d → i = .resume d
  writer : ∀ c, j = .client c (.queue .writer) →
    ∃ d, i = .resume d ∧ s.call d = .logging ∧ s.client d = some c

theorem Moves.other {s : LoggerSystem δ ε} {i : SystemInput δ ε} {j : AdapterInput δ ε}
    (hresume : ∀ d, j ≠ .resume d) (hwriter : ∀ c, j ≠ .client c (.queue .writer)) : Moves s i j :=
  ⟨fun d heq => absurd heq (hresume d), fun c heq => absurd heq (hwriter c)⟩

theorem Moves.resumed (s : LoggerSystem δ ε) (d : δ) : Moves s (.resume d) (.resume d) :=
  ⟨fun _ heq => by cases heq; rfl, fun _ heq => by cases heq⟩

/-- What every step does. -/
structure SystemStep [DecidableEq δ] (print : ε → OStringStream → OStringStream)
    (s : LoggerSystem δ ε) (i : SystemInput δ ε) (s' : LoggerSystem δ ε)
    (os : List (SystemObs δ ε)) : Prop where
  /-- The adapter makes one step at most. -/
  adapter : (s'.adapter = s.adapter ∧ adapterLog os = []) ∨
    ∃ j, Moves s i j ∧ (adapterMachine print).step s.adapter j = some (s'.adapter, adapterLog os)
  /-- The calls of other threads do not go on. -/
  others : ∀ d, i.thread ≠ some d → s'.call d = s.call d ∧ s'.client d = s.client d
  /-- The adapter is left to the threads inside `dispatch`. -/
  away : (∀ d, ¬ (s.call d).Dispatching → s.adapter.pc d = .idle) →
    ∀ d, ¬ (s'.call d).Dispatching → s'.adapter.pc d = .idle

section Step

variable [DecidableEq δ] {print : ε → OStringStream → OStringStream} {s s' : LoggerSystem δ ε}
  {os : List (SystemObs δ ε)} {i : SystemInput δ ε} {d : δ}

theorem stepAdapter_eq_some {j : AdapterInput δ ε} (h : s.stepAdapter print j = some (s', os)) :
    ∃ adapter os', (adapterMachine print).step s.adapter j = some (adapter, os') ∧
      s' = { s with adapter := adapter } ∧ os = os'.map .adapter := by
  unfold LoggerSystem.stepAdapter at h
  split at h
  · cases h
  · rename_i adapter os' hstep
    cases h
    exact ⟨adapter, os', hstep, rfl, rfl⟩

/-- Only a thread inside `dispatch` moves there. -/
theorem pc_of_step {a a' : LoggerAdapter δ ε} {j : AdapterInput δ ε} {os : List (AdapterObs δ ε)}
    (h : (adapterMachine print).step a j = some (a', os)) (hdispatch : j ≠ .dispatch d)
    (hresume : j ≠ .resume d) : a'.pc d = a.pc d := by
  have hne : ∀ d', j = .dispatch d' ∨ j = .resume d' → d ≠ d' := by
    rintro d' (rfl | rfl) rfl
    · exact hdispatch rfl
    · exact hresume rfl
  cases adapterStep_of_step h with
  | registered | client | replaced => rfl
  | called d' mutex hpc => exact Function.update_of_ne (hne d' (.inl rfl)) ..
  | empty d' | taken d' | missed d' | notified d' | released d' | finished d' =>
    exact Function.update_of_ne (hne d' (.inr rfl)) ..

theorem setCall_call_self (call : CallPc) : (s.setCall d call).call d = call :=
  Function.update_self ..

theorem setCall_call_of_ne {d' : δ} (h : d' ≠ d) (call : CallPc) :
    (s.setCall d call).call d' = s.call d' :=
  Function.update_of_ne h ..

omit [DecidableEq δ] in
theorem not_dispatching {call : CallPc} (hcall : s.call d = call) (h : ¬ call.Dispatching) :
    ¬ (s.call d).Dispatching := by
  rwa [hcall]

/-- A step that leaves the adapter alone. -/
theorem SystemStep.quiet (hi : i.thread = some d) (hadapter : s'.adapter = s.adapter)
    (hos : adapterLog os = []) (hcall : ∀ d' ≠ d, s'.call d' = s.call d')
    (hclient : s'.client = s.client) (hd : ¬ (s.call d).Dispatching) :
    SystemStep print s i s' os := by
  refine ⟨.inl ⟨hadapter, hos⟩, fun d' hd' => ⟨hcall d' ?_, congrFun hclient d'⟩, ?_⟩
  · rintro rfl
    exact hd' hi
  · intro haway d' hd'
    rw [hadapter]
    by_cases heq : d' = d
    · exact heq ▸ haway d hd
    · rw [hcall d' heq] at hd'
      exact haway d' hd'

/-- A step of the adapter that its thread takes. -/
theorem SystemStep.ofAdapter {j : AdapterInput δ ε} (hi : i.thread = some d)
    (hmoves : Moves s i j)
    (hstep : (adapterMachine print).step s.adapter j = some (s'.adapter, adapterLog os))
    (hcall : ∀ d' ≠ d, s'.call d' = s.call d') (hclient : ∀ d' ≠ d, s'.client d' = s.client d')
    (hj : ∀ d' ≠ d, j ≠ .dispatch d' ∧ j ≠ .resume d')
    (hd : ¬ (s'.call d).Dispatching →
      (¬ (s.call d).Dispatching → s.adapter.pc d = .idle) → s'.adapter.pc d = .idle) :
    SystemStep print s i s' os := by
  refine ⟨.inr ⟨j, hmoves, hstep⟩, fun d' hd' => ?_, ?_⟩
  · have hne : d' ≠ d := by
      rintro rfl
      exact hd' hi
    exact ⟨hcall d' hne, hclient d' hne⟩
  · intro haway d' hd'
    by_cases heq : d' = d
    · subst heq
      exact hd hd' (haway d')
    · rw [pc_of_step hstep (hj d' heq).1 (hj d' heq).2]
      rw [hcall d' heq] at hd'
      exact haway d' hd'

/-- A step of the adapter that a thread outside `dispatch` takes. -/
theorem SystemStep.outside {j : AdapterInput δ ε} {s₁ s₂ : LoggerSystem δ ε}
    {os₁ os₂ : List (SystemObs δ ε)} (hi : i.thread = some d) (hmoves : Moves s i j)
    (hj : ∀ d, j ≠ .dispatch d ∧ j ≠ .resume d) (hd : ¬ (s.call d).Dispatching)
    (h : s.stepAdapter print j = some (s₁, os₁)) (hadapter : s₂.adapter = s₁.adapter)
    (hcall : ∀ d' ≠ d, s₂.call d' = s.call d') (hclient : ∀ d' ≠ d, s₂.client d' = s.client d')
    (hos : adapterLog os₂ = adapterLog os₁) : SystemStep print s i s₂ os₂ := by
  obtain ⟨adapter, os', hstep, rfl, rfl⟩ := stepAdapter_eq_some h
  refine .ofAdapter hi hmoves ?_ hcall hclient (fun d' _ => hj d') fun _ hidle => ?_
  · rw [hos, hadapter, adapterLog_map]
    exact hstep
  · rw [hadapter, pc_of_step hstep (hj d).1 (hj d).2]
    exact hidle hd

/-- A step of its client that the thread of a log call takes. -/
theorem SystemStep.ofClient {c : ℕ} {j : ClientInput 1 ε} {s₁ s₂ : LoggerSystem δ ε}
    {os₁ os₂ : List (SystemObs δ ε)} (hcall : s.call d = .logging) (hd : s.client d = some c)
    (h : s.stepAdapter print (.client c j) = some (s₁, os₁)) (hadapter : s₂.adapter = s₁.adapter)
    (hothers : ∀ d' ≠ d, s₂.call d' = s.call d') (hclient : s₂.client = s.client)
    (hos : adapterLog os₂ = adapterLog os₁) : SystemStep print s (.resume d) s₂ os₂ := by
  have hmoves : Moves s (.resume d) (.client c j) := by
    refine ⟨fun _ heq => (by cases heq), fun c' heq => ⟨d, rfl, hcall, ?_⟩⟩
    rw [hd, (AdapterInput.client.inj heq).1]
  exact .outside rfl hmoves (by simp) (not_dispatching hcall id) h hadapter hothers
    (fun d' _ => congrFun hclient d') hos

theorem systemStep_of_resumeLog {c : ℕ} (hcall : s.call d = .logging) (hd : s.client d = some c)
    (h : s.resumeLog print d c = some (s', os)) : SystemStep print s (.resume d) s' os := by
  unfold LoggerSystem.resumeLog at h
  split at h
  · split at h
    · cases h
    · rename_i s₁ os₁ hs₁
      obtain ⟨adapter, os', -, rfl, rfl⟩ := stepAdapter_eq_some hs₁
      split_ifs at h
      · cases h
        refine .ofClient hcall hd hs₁ rfl (fun d' hne => setCall_call_of_ne hne _) rfl ?_
        rw [adapterLog_append]
        exact List.append_nil _
      · cases h
        exact .ofClient hcall hd hs₁ rfl (fun _ _ => rfl) rfl rfl
  · obtain ⟨adapter, os', -, rfl, rfl⟩ := stepAdapter_eq_some h
    exact .ofClient hcall hd h rfl (fun _ _ => rfl) rfl rfl
  · split at h
    · cases h
    · rename_i s₁ os₁ hs₁
      obtain ⟨adapter, os', -, rfl, rfl⟩ := stepAdapter_eq_some hs₁
      cases h
      exact .ofClient hcall hd hs₁ rfl (fun d' hne => setCall_call_of_ne hne _) rfl rfl
  · cases h

theorem systemStep_of_clientGuard (h : s.clientGuard print d = some (s', os)) :
    SystemStep print s (.clientGuard d) s' os := by
  unfold LoggerSystem.clientGuard at h
  split at h
  · rename_i hcall _
    cases h
    exact .quiet rfl rfl rfl (fun _ _ => rfl) rfl (not_dispatching hcall id)
  · rename_i hcall _ _
    split at h
    · cases h
    · rename_i s₁ os₁ hs₁
      obtain ⟨adapter, os', -, rfl, rfl⟩ := stepAdapter_eq_some hs₁
      cases h
      exact .outside rfl (.other (by simp) (by simp)) (by simp) (not_dispatching hcall id) hs₁ rfl
        (fun _ _ => rfl) (fun d' hne => Function.update_of_ne hne ..) rfl
  · cases h

theorem systemStep_of_log {content : ε} (h : s.log print d content = some (s', os)) :
    SystemStep print s (.log d content) s' os := by
  unfold LoggerSystem.log at h
  split at h
  · rename_i hcall _
    cases h
    exact .quiet rfl rfl rfl (fun _ _ => rfl) rfl (not_dispatching hcall id)
  · rename_i c hcall _
    split at h
    · cases h
    · rename_i s₁ os₁ hs₁
      obtain ⟨adapter, os', -, rfl, rfl⟩ := stepAdapter_eq_some hs₁
      cases h
      exact .outside rfl (.other (by simp) (by simp)) (by simp) (not_dispatching hcall id) hs₁ rfl
        (fun d' hne => setCall_call_of_ne hne _) (fun _ _ => rfl) rfl
  · cases h

theorem systemStep_of_loadSynch {c : ℕ} (hcall : s.call d = .loadSynch)
    (h : s.loadSynch d c = some (s', os)) : SystemStep print s (.resume d) s' os := by
  unfold LoggerSystem.loadSynch at h
  split at h
  · cases h
    exact .quiet rfl rfl rfl (fun d' hne => setCall_call_of_ne hne _) rfl (not_dispatching hcall id)
  · cases h
    exact .quiet rfl rfl rfl (fun d' hne => setCall_call_of_ne hne _) rfl (not_dispatching hcall id)
  · cases h

theorem systemStep_of_changeMode {newmode : Mode} (h : s.changeMode d newmode = some (s', os)) :
    SystemStep print s (.changeMode d newmode) s' os := by
  unfold LoggerSystem.changeMode at h
  split at h
  · rename_i hcall _ _
    split at h
    · cases h
      exact .quiet rfl rfl rfl (fun d' hne => setCall_call_of_ne hne _) rfl
        (not_dispatching hcall id)
    · cases h
      exact .quiet rfl rfl rfl (fun _ _ => rfl) rfl (not_dispatching hcall id)
  · cases h

theorem systemStep_of_resumeChange {k : ℕ} (hcall : s.call d = .changing k)
    (h : s.resumeChange d k = some (s', os)) : SystemStep print s (.resume d) s' os := by
  unfold LoggerSystem.resumeChange at h
  split at h
  · cases h
    exact .quiet rfl rfl rfl (fun d' hne => setCall_call_of_ne hne _) rfl (not_dispatching hcall id)
  · cases h
    exact .quiet rfl rfl rfl (fun d' hne => setCall_call_of_ne hne _) rfl (not_dispatching hcall id)

theorem systemStep_of_replaceListener {listener : ℕ}
    (h : s.replaceListener print listener = some (s', os)) :
    SystemStep print s (.replaceListener listener) s' os := by
  unfold LoggerSystem.replaceListener at h
  split at h
  · obtain ⟨adapter, os', hstep, rfl, rfl⟩ := stepAdapter_eq_some h
    refine ⟨.inr ⟨.replaceListener listener, .other (by simp) (by simp), ?_⟩,
      fun _ _ => ⟨rfl, rfl⟩, fun haway d hd => ?_⟩
    · rw [adapterLog_map]
      exact hstep
    · change adapter.pc d = _
      rw [pc_of_step hstep (by simp) (by simp)]
      exact haway d hd
  · cases h

theorem systemStep_of_dispatch {logged : Bool} (hi : i.thread = some d)
    (h : s.dispatch print d logged = some (s', os)) : SystemStep print s i s' os := by
  unfold LoggerSystem.dispatch at h
  split at h
  · rename_i s₁ os₁ _ hs₁
    obtain ⟨adapter, os', hstep, rfl, rfl⟩ := stepAdapter_eq_some hs₁
    cases h
    refine .ofAdapter (j := .dispatch d) hi (.other (by simp) (by simp)) ?_
      (fun d' hne => setCall_call_of_ne hne _) (fun _ _ => rfl)
      (fun d' hne => ⟨by simp [Ne.symm hne], by simp⟩) ?_
    · rw [adapterLog_map]
      exact hstep
    · intro hd
      rw [setCall_call_self] at hd
      exact absurd trivial hd
  · cases h

theorem returned_iff {pc : DispatchPc ε} : pc.returned = true ↔ pc = .idle := by
  cases pc <;> simp [DispatchPc.returned]

theorem systemStep_of_resumeDispatch {logged : Bool} (hcall : s.call d = .dispatching logged)
    (h : s.resumeDispatch print d logged = some (s', os)) :
    SystemStep print s (.resume d) s' os := by
  unfold LoggerSystem.resumeDispatch at h
  split at h
  · cases h
  split at h
  · cases h
  · rename_i s₁ os₁ hs₁
    obtain ⟨adapter, os', hstep, rfl, rfl⟩ := stepAdapter_eq_some hs₁
    have hj : ∀ d' ≠ d, AdapterInput.resume (ε := ε) d ≠ .dispatch d' ∧
        AdapterInput.resume (ε := ε) d ≠ .resume d' :=
      fun d' hne => ⟨by simp, by simp [Ne.symm hne]⟩
    split at h
    · rename_i hreturned
      cases h
      refine .ofAdapter (j := .resume d) rfl (.resumed s d) ?_
        (fun d' hne => setCall_call_of_ne hne _)
        (fun _ _ => rfl) hj fun _ _ => returned_iff.1 hreturned
      have hnone : adapterLog (if logged = true then [SystemObs.logged (ε := ε) d true] else []) =
          [] := by
        cases logged <;> rfl
      rw [adapterLog_append, adapterLog_map, hnone, List.append_nil]
      exact hstep
    · cases h
      refine .ofAdapter (j := .resume d) rfl (.resumed s d) ?_ (fun _ _ => rfl)
        (fun _ _ => rfl) hj ?_
      · rw [adapterLog_map]
        exact hstep
      · intro hd
        rw [hcall] at hd
        exact absurd trivial hd

/-- The machine of the system, inverted once. -/
theorem systemStep_of_step (h : (systemMachine print).step s i = some (s', os)) :
    SystemStep print s i s' os := by
  cases i with
  | clientGuard d => exact systemStep_of_clientGuard h
  | log d content => exact systemStep_of_log h
  | dispatch d =>
    simp only [systemMachine] at h
    split at h
    · exact systemStep_of_dispatch rfl h
    · cases h
  | changeMode d newmode => exact systemStep_of_changeMode h
  | replaceListener listener => exact systemStep_of_replaceListener h
  | resume d =>
    change s.resume print d = _ at h
    unfold LoggerSystem.resume at h
    split at h
    · rename_i c hcall hclient
      exact systemStep_of_resumeLog hcall hclient h
    · rename_i c hcall _
      exact systemStep_of_loadSynch hcall h
    · exact systemStep_of_dispatch rfl h
    · rename_i logged hcall
      exact systemStep_of_resumeDispatch hcall h
    · rename_i k hcall
      exact systemStep_of_resumeChange hcall h
    · cases h

/-- The constructor of a guard is no call of the logger. -/
theorem call_eq_of_clientGuard
    (h : (systemMachine print).step s (.clientGuard d) = some (s', os)) : s'.call = s.call := by
  change s.clientGuard print d = _ at h
  unfold LoggerSystem.clientGuard at h
  split at h
  · cases h
    rfl
  · split at h
    · cases h
    · rename_i s₁ os₁ hs₁
      obtain ⟨adapter, os', hstep, rfl, rfl⟩ := stepAdapter_eq_some hs₁
      cases h
      rfl
  · cases h

theorem call_ne_idle_of_resume (h : (systemMachine print).step s (.resume d) = some (s', os)) :
    s.call d ≠ .idle := by
  intro hidle
  change s.resume print d = _ at h
  simp [LoggerSystem.resume, hidle] at h

end Step

/-! ## Runs -/

section Runs

variable [DecidableEq δ] {print : ε → OStringStream → OStringStream} {main : δ}
  {sstream : OStringStream} {listener : ℕ} {s : LoggerSystem δ ε} {log : List (SystemObs δ ε)}

/-- Every run of the system is one of its adapter. -/
theorem adapter_reaches (h : (systemMachine print).Reaches (.start main sstream listener) s log) :
    (adapterMachine print).Reaches (.start sstream listener) s.adapter (adapterLog log) := by
  refine h.project LoggerSystem.adapter adapterLog rfl adapterLog_append fun s i s' os hs => ?_
  exact (systemStep_of_step hs).adapter.imp_right fun ⟨j, _, hstep⟩ => ⟨j, hstep⟩

/-- A thread that is not inside `dispatch` has nothing to do with the adapter. -/
theorem pc_eq_idle_of_reaches
    (h : (systemMachine print).Reaches (.start main sstream listener) s log) {d : δ}
    (hd : ¬ (s.call d).Dispatching) : s.adapter.pc d = .idle :=
  h.invariant (I := fun s _ => ∀ d, ¬ (s.call d).Dispatching → s.adapter.pc d = .idle)
    (fun _ _ => rfl) (fun _ _ _ _ _ hi hs => (systemStep_of_step hs).away hi) d hd

end Runs

end Ihft.Logger
