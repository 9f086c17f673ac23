import Ihft.Engine.CpusConfig
import Ihft.Engine.LogicalCpu

/-!
# The creation of the engine

`engine::create` compares the registered tasks with the configured cpus, and starts one thread for
each cpu.  What a task is stays open.
-/

namespace Ihft.Engine

variable {τ : Type*}

/-! ## The tasks -/

/-- `task_storage`: the tasks by their names. -/
abbrev TaskStorage (τ : Type*) := Multimap String τ

namespace TaskStorage

def empty : TaskStorage τ := Multimap.empty

def addTask (storage : TaskStorage τ) (name : String) (task : τ) : TaskStorage τ :=
  storage.emplace name task

def replaceTask (storage : TaskStorage τ) (name : String) (task : τ) : TaskStorage τ :=
  (storage.eraseIf fun item => item.1 = name).emplace name task

variable (storage : TaskStorage τ) (name : String) (task : τ)

theorem count_replaceTask (k : String) :
    (storage.replaceTask name task).count k = if k = name then 1 else storage.count k := by
  rw [replaceTask, Multimap.count_emplace, Multimap.count_eraseIf_key]
  by_cases h : k = name
  · rw [if_pos h, if_pos h.symm, if_pos h]
  · rw [if_neg h, if_neg fun heq => h heq.symm, if_neg h]
    rfl

theorem mem_replaceTask : (name, task) ∈ (storage.replaceTask name task).entries :=
  (Multimap.mem_emplace _ _ _).2 (.inl rfl)

end TaskStorage

/-! ## The engine -/

/-- A thread that the constructor has started, by what it has captured. -/
structure Started (τ : Type*) where
  name : String
  cpu : UInt32
  task : τ

/-- The body of a thread up to its loop, with the cpu that it has bound and the task that it calls
there; a thread that cannot bind itself returns. -/
def Started.loop (t : Started τ) (inherited : String) (answer : BindAnswer) :
    Option (LogicalCpu × τ) :=
  let (lcpu, ok) := (LogicalCpu.new t.cpu.toNat t.name inherited).bind answer
  if ok then some (lcpu, t.task) else none

/-- What `create` comes to. -/
inductive CreateResult (τ : Type*)
  | error (message : String)
  | aborted
  | engine (threads : List (Started τ))

/-- `error`. -/
def createError : String := "Invalid configuration. "

/-- The loop of `create` over the tasks, from a state of the set of their names. -/
def checkTasks (cfg : Name2Cpu) (task : List String) : List (String × τ) → Except String Unit
  | [] => .ok ()
  | (name, _) :: tasks =>
    if name ∈ task then .error (createError ++ "duplicated tasks: " ++ name)
    else
      match cfg.find name with
      | none => .error (createError ++ "task: [" ++ name ++ "] doesn't have logical cpu.")
      | some _ => checkTasks cfg (name :: task) tasks

/-- The loop of the constructor over the cpus, with the threads that it has started. -/
def startThreads (storage : TaskStorage τ) (threads : List (Started τ)) :
    List (String × UInt32) → CreateResult τ
  | [] => .engine threads
  | (name, cpu) :: cpus =>
    match storage.find name with
    | none => .aborted
    | some task => startThreads storage (threads ++ [⟨name, cpu, task⟩]) cpus

/-- `engine::create`. -/
def create (cfg : Name2Cpu) (storage : TaskStorage τ) : CreateResult τ :=
  let cpus := cfg.entries.length
  let tasks := storage.entries.length
  if cpus ≠ tasks then
    .error (createError ++ "cpus: [" ++ toString cpus ++ "] != tasks[" ++ toString tasks ++ "]")
  else
    match checkTasks cfg [] storage.entries with
    | .error message => .error message
    | .ok () => startThreads storage [] cfg.entries

/-- `engine_main` from the registered tasks on; `dispatch` is the task of the logger thread. -/
def createEngine (cfg : Name2Cpu) (storage : TaskStorage τ) (dispatch : τ) : CreateResult τ :=
  let storage := if (cfg.find loggerTask).isSome then storage.replaceTask loggerTask dispatch
    else storage
  create cfg storage

/-! ## What the checks accept -/

section Checks

variable {cfg : Name2Cpu} {storage : TaskStorage τ}

theorem checkTasks_ok {task : List String} {tasks : List (String × τ)} :
    checkTasks cfg task tasks = .ok () ↔ (tasks.map Prod.fst).Nodup ∧
      (∀ name ∈ tasks.map Prod.fst, name ∉ task) ∧ ∀ name ∈ tasks.map Prod.fst, name ∈ cfg.keys := by
  induction tasks generalizing task with
  | nil => simp [checkTasks]
  | cons e tasks ih =>
    obtain ⟨name, t⟩ := e
    rw [checkTasks, List.map_cons, List.nodup_cons, List.forall_mem_cons, List.forall_mem_cons]
    split_ifs with hdup
    · exact iff_of_false (by simp) fun h => h.2.1.1 hdup
    · cases hfind : cfg.find name with
      | none => exact iff_of_false (by simp) fun h => cfg.find_eq_none.1 hfind h.2.2.1
      | some cpu =>
        have hcfg : name ∈ cfg.keys := cfg.find_isSome.1 (by rw [hfind]; rfl)
        simp only [ih, List.mem_cons, not_or]
        constructor
        · rintro ⟨hnodup, htask, hkeys⟩
          exact ⟨⟨fun hmem => (htask name hmem).1 rfl, hnodup⟩,
            ⟨hdup, fun k hk => (htask k hk).2⟩, hcfg, hkeys⟩
        · rintro ⟨⟨hnew, hnodup⟩, ⟨-, htask⟩, -, hkeys⟩
          exact ⟨hnodup, fun k hk => ⟨fun heq => hnew (heq ▸ hk), htask k hk⟩, hkeys⟩

/-- Every configured name has exactly one task, and there is no other task. -/
def OneEach (cfg : Name2Cpu) (storage : TaskStorage τ) : Prop :=
  ∀ name, storage.count name = if name ∈ cfg.keys then 1 else 0

theorem oneEach_iff_perm : OneEach cfg storage ↔ (storage.entries.map Prod.fst).Perm cfg.keys := by
  rw [List.perm_iff_count]
  refine forall_congr' fun name => ?_
  rw [cfg.keys_nodup.count]
  rfl

/-- As many different names as there are cpus, all of them configured, are all the configured
names. -/
theorem oneEach_iff_checks : OneEach cfg storage ↔
    cfg.entries.length = storage.entries.length ∧ checkTasks cfg [] storage.entries = .ok () := by
  have hlength : storage.entries.length = (storage.entries.map Prod.fst).length :=
    (List.length_map _).symm
  have hkeys : cfg.entries.length = cfg.keys.length := (List.length_map _).symm
  rw [oneEach_iff_perm, checkTasks_ok, hlength, hkeys]
  constructor
  · intro hperm
    exact ⟨hperm.length_eq.symm, hperm.nodup_iff.2 cfg.keys_nodup, by simp,
      fun name hname => hperm.mem_iff.1 hname⟩
  · rintro ⟨heq, hnodup, -, hsub⟩
    exact (List.subperm_of_subset hnodup hsub).perm_of_length_le heq.le

end Checks

/-! ## The threads -/

section Threads

variable {cfg : Name2Cpu} {storage : TaskStorage τ} {threads : List (Started τ)}

/-- One thread for each configured name, which binds itself to the cpu of the name and runs the one
task under the name there. -/
structure Assigned (cfg : Name2Cpu) (storage : TaskStorage τ) (threads : List (Started τ)) :
    Prop where
  cpus : threads.map (fun t => (t.name, t.cpu)) = cfg.entries
  task : ∀ t ∈ threads, ∀ task, (t.name, task) ∈ storage.entries ↔ task = t.task
  loops : ∀ t ∈ threads, ∀ inherited, (t.loop inherited ⟨true, true⟩).isSome
  runs : ∀ t ∈ threads, ∀ inherited answer lcpu task,
    t.loop inherited answer = some (lcpu, task) → task = t.task ∧ lcpu.affinity = some t.cpu.toNat

theorem Assigned.names (h : Assigned cfg storage threads) :
    threads.map Started.name = cfg.config.names := by
  have hnames := congrArg (List.map Prod.fst) h.cpus
  rwa [List.map_map] at hnames

/-- A thread in its loop is bound to its cpu. -/
theorem loop_runs {t : Started τ} {inherited : String} {answer : BindAnswer} {lcpu : LogicalCpu}
    {task : τ} (h : t.loop inherited answer = some (lcpu, task)) :
    task = t.task ∧ lcpu.affinity = some t.cpu.toNat := by
  have hbind := LogicalCpu.bind_snd (.new t.cpu.toNat t.name inherited) answer
  have haffinity := LogicalCpu.bind_affinity (.new t.cpu.toNat t.name inherited) answer
  change (if ((LogicalCpu.new t.cpu.toNat t.name inherited).bind answer).2 then
    some (((LogicalCpu.new t.cpu.toNat t.name inherited).bind answer).1, t.task) else none) =
      some (lcpu, task) at h
  rw [hbind] at h
  split_ifs at h with hok
  cases h
  rw [Bool.and_eq_true] at hok
  exact ⟨rfl, by rw [haffinity, if_pos hok.1]; rfl⟩

/-- The constructor finds a task for every name that there is one for. -/
theorem startThreads_engine (threads : List (Started τ)) {cpus : List (String × UInt32)}
    (h : ∀ e ∈ cpus, e.1 ∈ storage.entries.map Prod.fst) :
    ∃ started : List (Started τ), startThreads storage threads cpus = .engine (threads ++ started) ∧
      started.map (fun t => (t.name, t.cpu)) = cpus ∧
      ∀ t ∈ started, storage.find t.name = some t.task := by
  induction cpus generalizing threads with
  | nil => exact ⟨[], by rw [startThreads, List.append_nil], rfl, by simp⟩
  | cons e cpus ih =>
    obtain ⟨name, cpu⟩ := e
    obtain ⟨hname, hcpus⟩ := List.forall_mem_cons.1 h
    unfold startThreads
    cases hfind : storage.find name with
    | none => exact absurd hname (OrderedMap.lookup_eq_none.1 hfind)
    | some task =>
      obtain ⟨started, heq, hmap, htask⟩ := ih (threads ++ [⟨name, cpu, task⟩]) hcpus
      refine ⟨⟨name, cpu, task⟩ :: started, ?_, by rw [List.map_cons, hmap], ?_⟩
      · rw [List.append_cons]
        exact heq
      · exact List.forall_mem_cons.2 ⟨hfind, htask⟩

/-- With one task for each name the engine is there, and every thread has its task. -/
theorem OneEach.create_engine (h : OneEach cfg storage) :
    ∃ threads, create cfg storage = .engine threads ∧ Assigned cfg storage threads := by
  obtain ⟨hlength, hchecks⟩ := oneEach_iff_checks.1 h
  have hperm := oneEach_iff_perm.1 h
  obtain ⟨threads, hstart, hcpus, htask⟩ := startThreads_engine []
    fun e he => hperm.mem_iff.2 (List.mem_map_of_mem (f := Prod.fst) he)
  refine ⟨threads, ?_, hcpus, fun t ht task => ?_, fun _ _ _ => rfl, fun _ _ _ _ _ _ => loop_runs⟩
  · rw [create, if_neg (not_not.2 hlength), hchecks]
    exact hstart
  · rw [← OrderedMap.lookup_eq_some (hperm.nodup_iff.2 cfg.keys_nodup)]
    have hfind := htask t ht
    rw [Multimap.find] at hfind
    rw [hfind, Option.some.injEq, eq_comm]

/-- Anything else is an error. -/
theorem create_error (h : ¬ OneEach cfg storage) :
    ∃ message, create cfg storage = .error message := by
  rw [create]
  by_cases hlength : cfg.entries.length = storage.entries.length
  · rw [if_neg (not_not.2 hlength)]
    cases hchecks : checkTasks cfg [] storage.entries with
    | error message => exact ⟨message, rfl⟩
    | ok _ => exact absurd (oneEach_iff_checks.2 ⟨hlength, hchecks⟩) h
  · exact ⟨_, if_pos hlength⟩

end Threads

/-! ## The assignment of the tasks -/

section Assignment

variable {cfg : Name2Cpu} {storage : TaskStorage τ}

/-- Whatever tasks there are for the logger, in the end there is one. -/
theorem oneEach_replaceTask (dispatch : τ) (hlogger : loggerTask ∈ cfg.keys)
    (h : ∀ name, name ≠ loggerTask → storage.count name = if name ∈ cfg.keys then 1 else 0) :
    OneEach cfg (storage.replaceTask loggerTask dispatch) := by
  intro name
  rw [TaskStorage.count_replaceTask]
  by_cases heq : name = loggerTask
  · rw [if_pos heq, heq, if_pos hlogger]
  · rw [if_neg heq, h name heq]

end Assignment

/-- The engine is there exactly if every configured name has one task and there is no other task,
and then every name has its thread; the constructor never aborts.  In `engine_main` the number of
tasks for the logger does not matter, its thread calls `dispatch`. -/
theorem create_assigns (cfg : Name2Cpu) (storage : TaskStorage τ) :
    ((∃ threads, create cfg storage = .engine threads) ↔ OneEach cfg storage) ∧
    (∀ threads, create cfg storage = .engine threads → Assigned cfg storage threads) ∧
    (¬ OneEach cfg storage → ∃ message, create cfg storage = .error message) ∧
    create cfg storage ≠ .aborted ∧
    ∀ dispatch, loggerTask ∈ cfg.keys →
      (∀ name, name ≠ loggerTask → storage.count name = if name ∈ cfg.keys then 1 else 0) →
      ∃ threads, createEngine cfg storage dispatch = .engine threads ∧
        Assigned cfg (storage.replaceTask loggerTask dispatch) threads ∧
        ∀ t ∈ threads, t.name = loggerTask → t.task = dispatch := by
  have hmain : ∀ dispatch, loggerTask ∈ cfg.keys →
      (∀ name, name ≠ loggerTask → storage.count name = if name ∈ cfg.keys then 1 else 0) →
      ∃ threads, createEngine cfg storage dispatch = .engine threads ∧
        Assigned cfg (storage.replaceTask loggerTask dispatch) threads ∧
        ∀ t ∈ threads, t.name = loggerTask → t.task = dispatch := by
    intro dispatch hlogger hothers
    obtain ⟨threads, hcreate, hassigned⟩ :=
      (oneEach_replaceTask dispatch hlogger hothers).create_engine
    refine ⟨threads, ?_, hassigned, fun t ht hname => ?_⟩
    · rw [createEngine, if_pos (cfg.find_isSome.2 hlogger)]
      exact hcreate
    · have hmem := storage.mem_replaceTask loggerTask dispatch
      rw [hassigned.task t ht dispatch |>.1 (by rwa [hname])]
  by_cases h : OneEach cfg storage
  · obtain ⟨threads, hcreate, hassigned⟩ := h.create_engine
    refine ⟨iff_of_true ⟨threads, hcreate⟩ h, fun threads' hcreate' => ?_, fun hnot => absurd h hnot,
      by simp [hcreate], hmain⟩
    rw [hcreate, CreateResult.engine.injEq] at hcreate'
    rwa [← hcreate']
  · obtain ⟨message, hcreate⟩ := create_error h
    exact ⟨iff_of_false (by simp [hcreate]) h, by simp [hcreate], fun _ => ⟨message, hcreate⟩,
      by simp [hcreate], hmain⟩

/-- A cpu for the logger, and another one. -/
def alphaCpus : Name2Cpu := (OrderedMap.empty.assign loggerTask 5).assign "alpha" 3

/-- Two tasks for the logger, and one for the other cpu. -/
def threeTasks : TaskStorage ℕ :=
  ((TaskStorage.empty.addTask loggerTask 10).addTask "alpha" 20).addTask loggerTask 30

theorem create_assigns_logger :
    ∃ threads, createEngine alphaCpus threeTasks 40 = .engine threads ∧
      Assigned alphaCpus (threeTasks.replaceTask loggerTask 40) threads ∧
      ∀ t ∈ threads, t.name = loggerTask → t.task = 40 := by
  refine (create_assigns alphaCpus threeTasks).2.2.2.2 40 (by decide) fun name hname => ?_
  have hkeys : alphaCpus.keys = ["alpha", loggerTask] := by decide
  have hcount : threeTasks.count name = List.count name ["alpha", loggerTask, loggerTask] := rfl
  rw [hcount, hkeys]
  by_cases halpha : name = "alpha"
  · rw [halpha]
    decide
  · simp [halpha, hname, List.count_eq_zero]

end Ihft.Engine
