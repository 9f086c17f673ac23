import Ihft.Engine.EngineMain
import Ihft.Logger.Backlog

/-!
# The end of a run

When the threads are joined, no call of the logger is on its way, so every event that was taken out
of a queue has been passed on.  An event is lost exactly when it is still in its queue then: the
engine waits for its threads, but it does not drain the queues, and the threads leave their loops in
any order.  Nothing is lost when the logger thread is the last to act, that is when it leaves with
all queues empty and no event is accepted after that.
-/

namespace Ihft.Engine

open Observe Logger

variable {ε : Type*}

/-! ## One step -/

section Step

variable {cfg : CpusConfig} {print : ε → OStringStream → OStringStream} {s s' : EngineState ε}
  {i : EngineInput ε} {os : List (SystemObs Thread ε)} {name : String}

theorem stepSystem_eq_some {j : SystemInput Thread ε}
    (h : s.stepSystem print j = some (s', os)) : ∃ system,
      (systemMachine print).step s.system j = some (system, os) ∧
      s' = { s with system := system } := by
  unfold EngineState.stepSystem at h
  split at h
  · cases h
  · rename_i system os' hstep
    cases h
    exact ⟨system, hstep, rfl⟩

/-- What a step can do: the logger makes one step at most. -/
inductive EngineStep (cfg : CpusConfig) (print : ε → OStringStream → OStringStream)
    (s : EngineState ε) : EngineInput ε → EngineState ε → List (SystemObs Thread ε) → Prop
  | signal : EngineStep cfg print s .signal { s with gUntil := false } []
  | registered (ok : Bool) (hmain : s.main = .registerTasks) (hcall : s.system.call .main = .idle) :
    EngineStep cfg print s (.registerTasks ok)
      { s with main := if ok then .checkUntil else .returned false } []
  | checked (hmain : s.main = .checkUntil) : EngineStep cfg print s .checkUntil
      { s with main := if s.gUntil then .creating cfg.names else .returned false } []
  | created (name : String) (names : List String) (hmain : s.main = .creating (name :: names)) :
    EngineStep cfg print s .create ({ s with main := .creating names }.setThread name .started) []
  | changing (system : LoggerSystem Thread ε) (os : List (SystemObs Thread ε))
    (hmain : s.main = .creating [])
    (hstep : (systemMachine print).step s.system (.changeMode .main .async) = some (system, os)) :
    EngineStep cfg print s .changeMode { s with main := .joining, system := system } os
  | unchanged (hmain : s.main = .creating []) :
    EngineStep cfg print s .changeMode { s with main := .joining } []
  | joined (hmain : s.main = .joining) (hcall : s.system.call .main = .idle)
    (hended : ∀ name ∈ cfg.names, s.thread name = .ended) :
    EngineStep cfg print s .join { s with main := .returned true } []
  | deleted (joined : Bool) (hmain : s.main = .returned joined) :
    EngineStep cfg print s .atexit { s with main := .deleted joined } []
  | guarded (name : String) (system : LoggerSystem Thread ε) (os : List (SystemObs Thread ε))
    (hthread : s.thread name = .started)
    (hstep : (systemMachine print).step s.system (.clientGuard (.cpu name)) = some (system, os)) :
    EngineStep cfg print s (.clientGuard name)
      { s.setThread name .registered with system := system } os
  | bound (name : String) (ok : Bool) (hthread : s.thread name = .registered) :
    EngineStep cfg print s (.bind name ok) (s.setThread name (if ok then .loop else .ended)) []
  | loaded (name : String) (hthread : s.thread name = .loop) : EngineStep cfg print s (.load name)
      (s.setThread name (if s.gUntil then .task false else .ended)) []
  | dispatched (name : String) (system : LoggerSystem Thread ε) (os : List (SystemObs Thread ε))
    (hthread : s.thread name = .task false) (hname : name = loggerTask)
    (hstep : (systemMachine print).step s.system (.dispatch (.cpu name)) = some (system, os)) :
    EngineStep cfg print s (.dispatch name)
      { s.setThread name (.task true) with system := system } os
  | taskReturned (name : String) (ok called : Bool) (hthread : s.thread name = .task called)
    (hcall : s.system.call (.cpu name) = .idle) (hname : name = loggerTask → ok = true) :
    EngineStep cfg print s (.returnTask name ok)
      (s.setThread name (if ok then .loop else .ended)) []
  | mainLogged (content : ε) (system : LoggerSystem Thread ε) (os : List (SystemObs Thread ε))
    (hmain : s.main = .registerTasks)
    (hstep : (systemMachine print).step s.system (.log .main content) = some (system, os)) :
    EngineStep cfg print s (.log .main content) { s with system := system } os
  | taskLogged (name : String) (called : Bool) (content : ε) (system : LoggerSystem Thread ε)
    (os : List (SystemObs Thread ε)) (hthread : s.thread name = .task called)
    (hstep : (systemMachine print).step s.system (.log (.cpu name) content) = some (system, os)) :
    EngineStep cfg print s (.log (.cpu name) content) { s with system := system } os
  | resumed (d : Thread) (system : LoggerSystem Thread ε) (os : List (SystemObs Thread ε))
    (hstep : (systemMachine print).step s.system (.resume d) = some (system, os)) :
    EngineStep cfg print s (.resume d) { s with system := system } os

theorem engineStep_of_registerTasks {ok : Bool} (h : s.registerTasks ok = some (s', os)) :
    EngineStep cfg print s (.registerTasks ok) s' os := by
  unfold EngineState.registerTasks at h
  split at h
  · rename_i hmain hcall
    cases h
    exact .registered ok hmain hcall
  · cases h

theorem engineStep_of_checkUntil (h : s.checkUntil cfg = some (s', os)) :
    EngineStep cfg print s .checkUntil s' os := by
  unfold EngineState.checkUntil at h
  split at h
  · rename_i hmain
    cases h
    exact .checked hmain
  · cases h

theorem engineStep_of_create (h : s.create = some (s', os)) :
    EngineStep cfg print s .create s' os := by
  unfold EngineState.create at h
  split at h
  · rename_i name names hmain
    cases h
    exact .created name names hmain
  · cases h

theorem engineStep_of_changeMode (h : s.changeMode print cfg = some (s', os)) :
    EngineStep cfg print s .changeMode s' os := by
  unfold EngineState.changeMode at h
  split at h
  · rename_i hmain
    split at h
    · obtain ⟨system, hstep, rfl⟩ := stepSystem_eq_some h
      exact .changing system os hmain hstep
    · cases h
      exact .unchanged hmain
  · cases h

theorem engineStep_of_join (h : s.join cfg = some (s', os)) :
    EngineStep cfg print s .join s' os := by
  unfold EngineState.join at h
  split at h
  · rename_i hmain hcall
    split at h
    · rename_i hended
      cases h
      exact .joined hmain hcall hended
    · cases h
  · cases h

theorem engineStep_of_atexit (h : s.atexit = some (s', os)) :
    EngineStep cfg print s .atexit s' os := by
  unfold EngineState.atexit at h
  split at h
  · rename_i joined hmain
    cases h
    exact .deleted joined hmain
  · cases h

theorem engineStep_of_clientGuard (h : s.clientGuard print name = some (s', os)) :
    EngineStep cfg print s (.clientGuard name) s' os := by
  unfold EngineState.clientGuard at h
  split at h
  · rename_i hthread
    obtain ⟨system, hstep, rfl⟩ := stepSystem_eq_some h
    exact .guarded name system os hthread hstep
  · cases h

theorem engineStep_of_bind {ok : Bool} (h : s.bind name ok = some (s', os)) :
    EngineStep cfg print s (.bind name ok) s' os := by
  unfold EngineState.bind at h
  split at h
  · rename_i hthread
    cases h
    exact .bound name ok hthread
  · cases h

theorem engineStep_of_load (h : s.load name = some (s', os)) :
    EngineStep cfg print s (.load name) s' os := by
  unfold EngineState.load at h
  split at h
  · rename_i hthread
    cases h
    exact .loaded name hthread
  · cases h

theorem engineStep_of_dispatch (h : s.dispatch print name = some (s', os)) :
    EngineStep cfg print s (.dispatch name) s' os := by
  unfold EngineState.dispatch at h
  split at h
  · rename_i hthread
    split at h
    · rename_i hname
      obtain ⟨system, hstep, rfl⟩ := stepSystem_eq_some h
      exact .dispatched name system os hthread hname hstep
    · cases h
  · cases h

theorem engineStep_of_returnTask {ok : Bool} (h : s.returnTask name ok = some (s', os)) :
    EngineStep cfg print s (.returnTask name ok) s' os := by
  unfold EngineState.returnTask at h
  split at h
  · rename_i called hthread hcall
    split at h
    · cases h
    · rename_i hname
      cases h
      refine .taskReturned name ok called hthread hcall fun heq => ?_
      by_contra hok
      exact hname ⟨heq, fun hboth => hok hboth.2⟩
  · cases h

theorem engineStep_of_log {d : Thread} {content : ε} (h : s.log print d content = some (s', os)) :
    EngineStep cfg print s (.log d content) s' os := by
  unfold EngineState.log at h
  cases d with
  | main =>
    simp only at h
    split at h
    · rename_i hmain
      obtain ⟨system, hstep, rfl⟩ := stepSystem_eq_some h
      exact .mainLogged content system os hmain hstep
    · cases h
  | cpu name =>
    simp only at h
    split at h
    · rename_i called hthread
      split at h
      · cases h
      · obtain ⟨system, hstep, rfl⟩ := stepSystem_eq_some h
        exact .taskLogged name called content system os hthread hstep
    · cases h

/-- The machine, inverted once. -/
theorem engineStep_of_step (h : (engineMachine cfg print).step s i = some (s', os)) :
    EngineStep cfg print s i s' os := by
  cases i with
  | signal =>
    cases h
    exact .signal
  | registerTasks ok => exact engineStep_of_registerTasks h
  | checkUntil => exact engineStep_of_checkUntil h
  | create => exact engineStep_of_create h
  | changeMode => exact engineStep_of_changeMode h
  | join => exact engineStep_of_join h
  | atexit => exact engineStep_of_atexit h
  | clientGuard name => exact engineStep_of_clientGuard h
  | bind name ok => exact engineStep_of_bind h
  | load name => exact engineStep_of_load h
  | dispatch name => exact engineStep_of_dispatch h
  | returnTask name ok => exact engineStep_of_returnTask h
  | log d content => exact engineStep_of_log h
  | resume d =>
    obtain ⟨system, hstep, rfl⟩ := stepSystem_eq_some h
    exact .resumed d system os hstep

/-- The logger makes one step at most. -/
theorem EngineStep.system_cases (h : EngineStep cfg print s i s' os) :
    (s'.system = s.system ∧ os = []) ∨ ∃ j, (∀ d, j = .resume d → i = .resume d) ∧
      (systemMachine print).step s.system j = some (s'.system, os) := by
  cases h with
  | signal | registered | checked | created | unchanged | joined | deleted | bound | loaded
  | taskReturned => exact .inl ⟨rfl, rfl⟩
  | changing system os hmain hstep | guarded name system os hthread hstep
  | dispatched name system os hthread hname hstep | mainLogged content system os hmain hstep
  | taskLogged name called content system os hthread hstep =>
    exact .inr ⟨_, by simp, hstep⟩
  | resumed d system os hstep => exact .inr ⟨_, fun d' heq => by cases heq; rfl, hstep⟩

/-- The step `i` is the one by which a queue accepts an event. -/
def EngineState.Accepts (s : EngineState ε) : EngineInput ε → Prop
  | .resume d => s.system.call d = .logging ∧ ∃ c ∈ s.system.client d,
      ∃ x ∈ s.system.adapter.clients[c]?, x.queue.Publishes
  | _ => False

instance (s : EngineState ε) (i : EngineInput ε) : Decidable (s.Accepts i) := by
  unfold EngineState.Accepts
  split <;> infer_instance

/-- The adapter makes one step at most. -/
theorem EngineStep.adapter_cases (h : EngineStep cfg print s i s' os) :
    (s'.system.adapter = s.system.adapter ∧ adapterLog os = []) ∨
    ∃ j, (∀ d, j = .resume d → i = .resume d) ∧ (s.system.adapter.Accepts j → s.Accepts i) ∧
      (adapterMachine print).step s.system.adapter j = some (s'.system.adapter, adapterLog os) := by
  rcases h.system_cases with ⟨heq, rfl⟩ | ⟨j, hj, hstep⟩
  · exact .inl ⟨congrArg _ heq, rfl⟩
  · refine (systemStep_of_step hstep).adapter.imp_right ?_
    rintro ⟨k, hmoves, hk⟩
    refine ⟨k, fun d heq => hj d (hmoves.resume d heq), ?_, hk⟩
    rintro ⟨c, x, heq, hx, hpublishes⟩
    obtain ⟨d, hd, hcall, hclient⟩ := hmoves.writer c heq
    rw [hj d hd]
    exact ⟨hcall, c, hclient, x, hx, hpublishes⟩

end Step

/-! ## The life of the threads -/

/-- The code of the thread `d` that may call the logger is running. -/
def EngineState.Running (s : EngineState ε) : Thread → Prop
  | .main => s.main = .registerTasks ∨ s.main = .joining
  | .cpu name => ∃ called, s.thread name = .task called

/-- The threads are joined. -/
def MainPc.Joined : MainPc → Prop
  | .returned joined | .deleted joined => joined = true
  | _ => False

/-- The cpus that have no thread yet; none is created when `engine_main` returns early. -/
def MainPc.uncreated (cfg : CpusConfig) : MainPc → List String
  | .registerTasks | .checkUntil => cfg.names
  | .creating names => names
  | _ => []

/-- A thread is created for each cpu, once, and for no other. -/
structure Lifecycle (cfg : CpusConfig) (s : EngineState ε) : Prop where
  joined : s.main.Joined → ∀ name ∈ cfg.names, s.thread name = .ended
  foreign : ∀ name ∉ cfg.names, s.thread name = .absent
  sublist : (s.main.uncreated cfg).Sublist cfg.names
  absent : ∀ name ∈ s.main.uncreated cfg, s.thread name = .absent

/-- The calls of the logger are made by code that is running. -/
def CallsOk (s : EngineState ε) : Prop := ∀ d, s.system.call d ≠ .idle → s.Running d

section Life

variable {cfg : CpusConfig} {print : ε → OStringStream → OStringStream} {s s' : EngineState ε}
  {i : EngineInput ε} {os : List (SystemObs Thread ε)} {name : String} {pc : ThreadPc}

/-- The main thread goes on. -/
theorem Lifecycle.setMain (h : Lifecycle cfg s) (hthread : s'.thread = s.thread)
    (hjoined : s'.main.Joined → ∀ name ∈ cfg.names, s.thread name = .ended)
    (hsublist : (s'.main.uncreated cfg).Sublist (s.main.uncreated cfg)) : Lifecycle cfg s' := by
  refine ⟨?_, ?_, hsublist.trans h.sublist, ?_⟩
  · rw [hthread]
    exact hjoined
  · rw [hthread]
    exact h.foreign
  · rw [hthread]
    exact fun name hname => h.absent name (hsublist.subset hname)

theorem Lifecycle.congr (h : Lifecycle cfg s) (hmain : s'.main = s.main)
    (hthread : s'.thread = s.thread) : Lifecycle cfg s' := by
  apply h.setMain hthread
  · rw [hmain]
    exact h.joined
  · rw [hmain]

/-- A thread that is there and has not ended goes on. -/
theorem Lifecycle.setThread (h : Lifecycle cfg s) (name : String)
    (habsent : s.thread name ≠ .absent) (hended : s.thread name ≠ .ended) (hmain : s'.main = s.main)
    (hthread : s'.thread = Function.update s.thread name pc) : Lifecycle cfg s' := by
  have hmem : name ∈ cfg.names := by
    by_contra hnot
    exact habsent (h.foreign name hnot)
  refine ⟨fun hjoined => ?_, fun name' hname' => ?_, ?_, fun name' hname' => ?_⟩
  · rw [hmain] at hjoined
    exact absurd (h.joined hjoined name hmem) hended
  · rw [hthread, Function.update_of_ne]
    · exact h.foreign name' hname'
    · rintro rfl
      exact hname' hmem
  · rw [hmain]
    exact h.sublist
  · rw [hmain] at hname'
    rw [hthread, Function.update_of_ne]
    · exact h.absent name' hname'
    · rintro rfl
      exact habsent (h.absent name' hname')

theorem lifecycle_start (sstream : OStringStream) (listener : ℕ) :
    Lifecycle cfg (EngineState.start (ε := ε) sstream listener) :=
  ⟨fun hjoined => absurd hjoined id, fun _ _ => rfl, List.Sublist.refl _, fun _ _ => rfl⟩

theorem Lifecycle.create {names : List String} (h : Lifecycle cfg s)
    (hmain : s.main = .creating (name :: names)) :
    Lifecycle cfg ({ s with main := .creating names }.setThread name .started) := by
  have hsublist := h.sublist
  have habsent := h.absent
  rw [hmain] at hsublist habsent
  have hmem : name ∈ cfg.names := hsublist.subset List.mem_cons_self
  have hnew : name ∉ names := (List.nodup_cons.1 (hsublist.nodup cfg.nodup)).1
  refine ⟨fun hjoined => absurd hjoined id, fun name' hname' => ?_,
    (List.sublist_cons_self name names).trans hsublist, fun name' hname' => ?_⟩
  · refine (Function.update_of_ne ?_ ..).trans (h.foreign name' hname')
    rintro rfl
    exact hname' hmem
  · refine (Function.update_of_ne ?_ ..).trans (habsent name' (List.mem_cons_of_mem name hname'))
    rintro rfl
    exact hnew hname'

theorem Lifecycle.step (h : Lifecycle cfg s) (hs : EngineStep cfg print s i s' os) :
    Lifecycle cfg s' := by
  cases hs with
  | signal | mainLogged | taskLogged | resumed => exact h.congr rfl rfl
  | registered ok hmain hcall =>
    cases ok with
    | true => exact h.setMain rfl (fun hjoined => absurd hjoined id) (by rw [hmain]; exact .refl _)
    | false => exact h.setMain rfl (fun hjoined => by cases hjoined) (List.nil_sublist _)
  | checked hmain =>
    cases s.gUntil with
    | true => exact h.setMain rfl (fun hjoined => absurd hjoined id) (by rw [hmain]; exact .refl _)
    | false => exact h.setMain rfl (fun hjoined => by cases hjoined) (List.nil_sublist _)
  | created name names hmain => exact h.create hmain
  | changing system os hmain | unchanged hmain =>
    exact h.setMain rfl (fun hjoined => absurd hjoined id) (List.nil_sublist _)
  | joined hmain hcall hended => exact h.setMain rfl (fun _ => hended) (List.nil_sublist _)
  | deleted joined hmain =>
    refine h.setMain rfl (fun hjoined => h.joined ?_) (List.nil_sublist _)
    rw [hmain]
    exact hjoined
  | guarded name system os hthread | dispatched name system os hthread =>
    exact h.setThread name (by simp [hthread]) (by simp [hthread]) rfl rfl
  | bound name ok hthread | loaded name hthread | taskReturned name ok called hthread =>
    exact h.setThread name (by simp [hthread]) (by simp [hthread]) rfl rfl

/-! ## The calls of the threads -/

/-- A thread that is in no call goes on. -/
theorem CallsOk.quiet (h : CallsOk s) (d : Thread) (hcall : s.system.call d = .idle)
    (hsystem : s'.system.call = s.system.call) (hothers : ∀ d' ≠ d, s.Running d' → s'.Running d') :
    CallsOk s' := by
  intro d' hd'
  rw [hsystem] at hd'
  have hne : d' ≠ d := by
    rintro rfl
    exact hd' hcall
  exact hothers d' hne (h d' hd')

/-- A thread that is running goes on with its call. -/
theorem CallsOk.system (h : CallsOk s) (d : Thread) {j : SystemInput Thread ε}
    (hj : j.thread = some d) (hstep : (systemMachine print).step s.system j = some (s'.system, os))
    (hd : s'.Running d) (hothers : ∀ d' ≠ d, s.Running d' → s'.Running d') : CallsOk s' := by
  intro d' hd'
  by_cases heq : d' = d
  · exact heq ▸ hd
  · rw [((systemStep_of_step hstep).others d' _).1] at hd'
    · exact hothers d' heq (h d' hd')
    · rw [hj]
      exact fun hsame => heq (Option.some.inj hsame).symm

theorem CallsOk.idle (h : CallsOk s) {d : Thread} (hd : ¬ s.Running d) :
    s.system.call d = .idle := by
  by_contra hcall
  exact hd (h d hcall)

theorem not_running_main (hregister : s.main ≠ .registerTasks) (hjoining : s.main ≠ .joining) :
    ¬ s.Running .main := fun hrunning => hrunning.elim hregister hjoining

theorem not_running_cpu (hthread : s.thread name = pc) (hpc : ∀ called, pc ≠ .task called) :
    ¬ s.Running (.cpu name) := fun ⟨called, htask⟩ => hpc called (hthread.symm.trans htask)

/-- Only the main thread moves. -/
theorem running_of_ne_main (hthread : s'.thread = s.thread) (d : Thread) (hd : d ≠ .main)
    (h : s.Running d) : s'.Running d := by
  cases d with
  | main => exact absurd rfl hd
  | cpu name =>
    obtain ⟨called, htask⟩ := h
    exact ⟨called, hthread ▸ htask⟩

/-- Only the thread of one cpu moves. -/
theorem running_of_ne_cpu (hmain : s'.main = s.main)
    (hthread : s'.thread = Function.update s.thread name pc) (d : Thread) (hd : d ≠ .cpu name)
    (h : s.Running d) : s'.Running d := by
  cases d with
  | main => exact h.imp hmain.trans hmain.trans
  | cpu name' =>
    obtain ⟨called, htask⟩ := h
    refine ⟨called, ?_⟩
    rw [hthread, Function.update_of_ne fun heq => hd (congrArg _ heq)]
    exact htask

theorem CallsOk.step (h : CallsOk s) (hlife : Lifecycle cfg s)
    (hs : EngineStep cfg print s i s' os) : CallsOk s' := by
  cases hs with
  | signal => exact h
  | registered ok hmain hcall => exact h.quiet .main hcall rfl (running_of_ne_main rfl)
  | checked hmain | unchanged hmain | deleted joined hmain =>
    have hcall := h.idle (not_running_main (by simp [hmain]) (by simp [hmain]))
    exact h.quiet .main hcall rfl (running_of_ne_main rfl)
  | created name names hmain =>
    have habsent : s.thread name = .absent := by
      apply hlife.absent
      rw [hmain]
      exact List.mem_cons_self
    have hcall := h.idle (not_running_cpu habsent (by simp))
    refine h.quiet (.cpu name) hcall rfl fun d hd hrunning => ?_
    cases d with
    | main => exact absurd hrunning (not_running_main (by simp [hmain]) (by simp [hmain]))
    | cpu name' =>
      have hframe : ∀ d ≠ Thread.cpu name,
          EngineState.Running { s with main := .creating names } d →
          EngineState.Running ({ s with main := .creating names }.setThread name .started) d :=
        running_of_ne_cpu rfl rfl
      exact hframe _ hd hrunning
  | changing system os hmain hstep =>
    exact h.system .main rfl hstep (.inr rfl) (running_of_ne_main rfl)
  | joined hmain hcall hended => exact h.quiet .main hcall rfl (running_of_ne_main rfl)
  | guarded name system os hthread hstep =>
    have hcall := h.idle (not_running_cpu hthread (by simp))
    exact h.quiet (.cpu name) hcall (call_eq_of_clientGuard hstep) (running_of_ne_cpu rfl rfl)
  | bound name ok hthread | loaded name hthread =>
    have hcall := h.idle (not_running_cpu hthread (by simp))
    exact h.quiet (.cpu name) hcall rfl (running_of_ne_cpu rfl rfl)
  | taskReturned name ok called hthread hcall =>
    exact h.quiet (.cpu name) hcall rfl (running_of_ne_cpu rfl rfl)
  | dispatched name system os hthread hname hstep =>
    exact h.system (.cpu name) rfl hstep ⟨true, Function.update_self ..⟩ (running_of_ne_cpu rfl rfl)
  | mainLogged content system os hmain hstep =>
    exact h.system .main rfl hstep (.inl hmain) fun _ _ => id
  | taskLogged name called content system os hthread hstep =>
    exact h.system (.cpu name) rfl hstep ⟨called, hthread⟩ fun _ _ => id
  | resumed d system os hstep =>
    exact h.system d rfl hstep (h d (call_ne_idle_of_resume hstep)) fun _ _ => id

end Life

/-! ## Whole runs -/

/-- The logger thread leaves its loop, or does not come to it. -/
def EngineState.LoggerLeaves (s : EngineState ε) : EngineInput ε → Prop
  | .load name => name = loggerTask ∧ s.gUntil = false
  | .bind name ok => name = loggerTask ∧ ok = false
  | _ => False

instance (s : EngineState ε) (i : EngineInput ε) : Decidable (s.LoggerLeaves i) := by
  unfold EngineState.LoggerLeaves
  split <;> infer_instance

/-- The logger thread leaves with all queues empty only, and no event is accepted when it has
left. -/
structure EngineState.LoggerLast (s : EngineState ε) (i : EngineInput ε) : Prop where
  leaves : s.LoggerLeaves i → s.system.adapter.Empty
  after : s.thread loggerTask = .ended → ¬ s.Accepts i

theorem EngineState.loggerLast_iff {s : EngineState ε} {i : EngineInput ε} :
    s.LoggerLast i ↔ (s.LoggerLeaves i → s.system.adapter.Empty) ∧
      (s.thread loggerTask = .ended → ¬ s.Accepts i) :=
  ⟨fun h => ⟨h.leaves, h.after⟩, fun h => ⟨h.1, h.2⟩⟩

instance (s : EngineState ε) (i : EngineInput ε) : Decidable (s.LoggerLast i) :=
  decidable_of_iff' _ EngineState.loggerLast_iff

/-- No event is taken while a text waits in the stream. -/
def EngineState.Undisturbed (s : EngineState ε) (i : EngineInput ε) : Prop :=
  ∀ d, i = .resume d → Logger.Undisturbed s.system.adapter (.resume d)

section Runs

variable {cfg : CpusConfig} {print : ε → OStringStream → OStringStream} {sstream : OStringStream}
  {listener : ℕ} {s s' : EngineState ε} {log os : List (SystemObs Thread ε)} {i : EngineInput ε}

theorem system_of_reaches (h : (engineMachine cfg print).Reaches (.start sstream listener) s log) :
    (systemMachine print).Reaches (.start .main sstream listener) s.system log := by
  refine h.project EngineState.system id rfl (fun _ _ => rfl) fun s i s' os hs => ?_
  exact (engineStep_of_step hs).system_cases.imp_right fun ⟨j, _, hstep⟩ => ⟨j, hstep⟩

/-- Every run of the engine is one of the adapter. -/
theorem adapter_of_reaches (h : (engineMachine cfg print).Reaches (.start sstream listener) s log) :
    (adapterMachine print).Reaches (.start sstream listener) s.system.adapter (adapterLog log) :=
  adapter_reaches (system_of_reaches h)

theorem adapter_of_reachesWhile
    (h : (engineMachine cfg print).ReachesWhile EngineState.Undisturbed (.start sstream listener) s
      log) :
    (adapterMachine print).ReachesWhile Logger.Undisturbed (.start sstream listener)
      s.system.adapter (adapterLog log) := by
  refine h.project (fun s => s.system.adapter) adapterLog rfl adapterLog_append
    fun s i s' os hok hs => (engineStep_of_step hs).adapter_cases.imp_right ?_
  rintro ⟨j, hresume, -, hstep⟩
  refine ⟨j, fun d heq => ?_, hstep⟩
  exact hok d (hresume d heq) d rfl

theorem lifecycle_of_reaches
    (h : (engineMachine cfg print).Reaches (.start sstream listener) s log) :
    Lifecycle cfg s ∧ CallsOk s := by
  refine h.invariant (I := fun s _ => Lifecycle cfg s ∧ CallsOk s) ?_ ?_
  · exact ⟨lifecycle_start sstream listener, fun d hd => absurd rfl hd⟩
  · rintro s log i s' os ⟨hlife, hcalls⟩ hs
    exact ⟨hlife.step (engineStep_of_step hs), hcalls.step hlife (engineStep_of_step hs)⟩

/-- When the threads are joined, no call of the logger is on its way. -/
theorem pc_eq_idle_of_joined
    (h : (engineMachine cfg print).Reaches (.start sstream listener) s log)
    (hmain : s.main = .deleted true) (d : Thread) : s.system.adapter.pc d = .idle := by
  obtain ⟨hlife, hcalls⟩ := lifecycle_of_reaches h
  have hended := hlife.joined (by rw [hmain]; rfl)
  apply pc_eq_idle_of_reaches (system_of_reaches h)
  rw [hcalls.idle]
  · exact id
  cases d with
  | main => exact not_running_main (by simp [hmain]) (by simp [hmain])
  | cpu name =>
    by_cases hname : name ∈ cfg.names
    · exact not_running_cpu (hended name hname) (by simp)
    · exact not_running_cpu (hlife.foreign name hname) (by simp)

/-- A logger thread that ends leaves its loop with this step. -/
theorem EngineStep.logger_ended (h : EngineStep cfg print s i s' os)
    (hended : s'.thread loggerTask = .ended) :
    s.thread loggerTask = .ended ∨ (s.LoggerLeaves i ∧ s'.system = s.system) := by
  have hframe : ∀ name pc, Function.update s.thread name pc loggerTask = .ended →
      s.thread loggerTask = .ended ∨ (name = loggerTask ∧ pc = .ended) := by
    intro name pc heq
    by_cases hname : loggerTask = name
    · subst hname
      rw [Function.update_self] at heq
      exact .inr ⟨rfl, heq⟩
    · rw [Function.update_of_ne hname] at heq
      exact .inl heq
  cases h with
  | signal | registered | checked | changing | unchanged | joined | deleted | mainLogged
  | taskLogged | resumed => exact .inl hended
  | created name names hmain | guarded name system os hthread
  | dispatched name system os hthread => exact (hframe _ _ hended).imp_right fun h => by cases h.2
  | bound name ok hthread =>
    refine (hframe _ _ hended).imp_right ?_
    rintro ⟨rfl, hok⟩
    cases ok with
    | true => cases hok
    | false => exact ⟨⟨rfl, rfl⟩, rfl⟩
  | loaded name hthread =>
    refine (hframe _ _ hended).imp_right ?_
    rintro ⟨rfl, huntil⟩
    split_ifs at huntil with hflag
    exact ⟨⟨rfl, Bool.eq_false_iff.2 hflag⟩, rfl⟩
  | taskReturned name ok called hthread hcall hname =>
    refine (hframe _ _ hended).imp_right ?_
    rintro ⟨rfl, hok⟩
    rw [hname rfl] at hok
    cases hok

/-- The queues are empty when the logger thread has left, if it was the last to act. -/
theorem empty_of_ended
    (h : (engineMachine cfg print).ReachesWhile EngineState.LoggerLast (.start sstream listener) s
      log) (hended : s.thread loggerTask = .ended) : s.system.adapter.Empty := by
  refine h.invariant (I := fun s _ => s.thread loggerTask = .ended → s.system.adapter.Empty) ?_ ?_
    hended
  · exact fun hended => by cases hended
  · intro s log i s' os hreach hempty hok hs hended
    have hstep := engineStep_of_step hs
    rcases hstep.logger_ended hended with hold | ⟨hleaves, hsame⟩
    · rcases hstep.adapter_cases with ⟨hsame, -⟩ | ⟨j, -, haccepts, hj⟩
      · rw [hsame]
        exact hempty hold
      · exact (hempty hold).step (adapter_of_reaches hreach)
          (fun hj => hok.after hold (haccepts hj)) hj
    · rw [hsame]
      exact hok.leaves hleaves

/-- After a run of `engine_main` whose threads were joined, every event that was accepted has been
passed to a listener if and only if the queues are empty.  That is so when the logger thread was the
last to act.  As long as no event was taken while a text waited in the stream, every event was
passed on as its own text. -/
theorem no_event_lost (h : (engineMachine cfg print).Reaches (.start sstream listener) s log)
    (hmain : s.main = .deleted true) :
    (AllNotified (adapterLog log) ↔ s.system.adapter.Empty) ∧
    (loggerTask ∈ cfg.names →
      (engineMachine cfg print).ReachesWhile EngineState.LoggerLast (.start sstream listener) s
        log →
      AllNotified (adapterLog log)) ∧
    ((engineMachine cfg print).ReachesWhile EngineState.Undisturbed (.start sstream listener) s
        log →
      ∀ d c event listener' text, .notified d c event listener' text ∈ adapterLog log →
        IsText print sstream event text) := by
  have hpc := pc_eq_idle_of_joined h hmain
  have hiff : AllNotified (adapterLog log) ↔ s.system.adapter.Empty := by
    refine allNotified_iff_empty (adapter_of_reaches h) fun d => ?_
    rw [hpc d]
    exact id
  refine ⟨hiff, fun hlogger hlast => ?_, fun hundisturbed d c event listener' text hmem => ?_⟩
  · have hjoined := (lifecycle_of_reaches h).1.joined (by rw [hmain]; rfl)
    exact hiff.2 (empty_of_ended hlast (hjoined loggerTask hlogger))
  · have hadapter := adapter_of_reachesWhile hundisturbed
    have htaken := taken_of_notified hadapter hmem
    obtain ⟨x, rfl⟩ := exists_of_taken hadapter.reaches htaken
    exact (streamOk_of_reaches hadapter.reaches).texts d c x text htaken

end Runs

/-! ## Two runs -/

/-- Two cpus, one of them for the logger. -/
def twoCpus : CpusConfig := ⟨["logger", "worker"], by decide⟩

/-- The threads are created, and the mode of the logger is changed. -/
def createThreads : List (EngineInput String) :=
  [.registerTasks true, .checkUntil, .create, .create, .changeMode, .resume .main, .resume .main,
    .clientGuard "logger", .clientGuard "worker", .bind "logger" true, .bind "worker" true]

/-- The task of the worker logs an event. -/
def workerLogs : List (EngineInput String) :=
  .load "worker" :: .log (.cpu "worker") "last" :: List.replicate 5 (.resume (.cpu "worker")) ++
    [.returnTask "worker" true]

/-- The task of the logger passes the event of the worker on. -/
def loggerDispatches : List (EngineInput String) :=
  .load "logger" :: .dispatch "logger" :: List.replicate 7 (.resume (.cpu "logger")) ++
    [.returnTask "logger" true]

/-- The worker logs, the logger passes the event on, and both leave. -/
theorem no_event_lost_in_order : ∃ (s : EngineState String) (log : List (SystemObs Thread String)),
    (engineMachine twoCpus printText).ReachesWhile EngineState.LoggerLast (.start plainStream 0) s
        log ∧
      s.main = .deleted true ∧ acceptedFrom 2 (adapterLog log) = [some ⟨0, ⟨0, "last"⟩⟩] ∧
      AllNotified (adapterLog log) := by
  have hrun : (engineMachine twoCpus printText).run (.start plainStream 0)
    (createThreads ++ workerLogs ++ loggerDispatches ++
      [.signal, .load "worker", .load "logger", .join, .atexit]) = some (_, _) := rfl
  have hlast : Machine.ReachesWhile _ EngineState.LoggerLast _ _ _ := .of_run hrun (by decide)
  obtain ⟨-, hall, -⟩ := no_event_lost (.of_run hrun) rfl
  exact ⟨_, _, hlast, rfl, rfl, hall (by decide) hlast⟩

/-- The signal comes, the logger thread leaves, and the worker logs once more: the queue accepts the
event, and nobody passes it on. -/
theorem last_event_lost : ∃ (s : EngineState String) (log : List (SystemObs Thread String)),
    (engineMachine twoCpus printText).Reaches (.start plainStream 0) s log ∧
      loggerTask ∈ twoCpus.names ∧ s.main = .deleted true ∧
      .logged (.cpu "worker") true ∈ log ∧ ¬ AllNotified (adapterLog log) := by
  have hrun : (engineMachine twoCpus printText).run (.start plainStream 0)
    (createThreads ++ [.load "worker", .signal, .load "logger",
      .log (.cpu "worker") "last"] ++ List.replicate 5 (.resume (.cpu "worker")) ++
      [.returnTask "worker" true, .load "worker", .join, .atexit]) = some (_, _) := rfl
  refine ⟨_, _, .of_run hrun, by decide, rfl, by decide, fun hall => ?_⟩
  obtain ⟨d, listener, text, hmem⟩ := hall 2 (some ⟨0, ⟨0, "last"⟩⟩) (by decide)
  have hnone : some ⟨0, ⟨0, "last"⟩⟩ ∈ noticedFrom 2 (adapterLog _) :=
    List.mem_filterMap.2 ⟨_, hmem, if_pos rfl⟩
  revert hnone
  decide

end Ihft.Engine
