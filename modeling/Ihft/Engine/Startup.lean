import Ihft.Platform.Trait
import Ihft.Engine.Shutdown
import Ihft.Engine.Create

/-!
# From the start of the process to its threads

Before `engine_main` creates a thread it checks the system, reads the configuration, asks the kernel
command line about every configured cpu, and lets the user register the tasks on the first cpu.  The
command line was read before, into sets with a bit for each cpu; asking for a cpu that has no bit
ends the process.
-/

namespace Ihft.Engine

open Observe Logger Misc ConfigHelper TomlNode Ihft.Platform

/-! ## The queries about the cpus -/

namespace CpusConfig

/-- `platform::trait`: its queries can end the process. -/
def trait (totalCpus : UInt32) (cmdline : Cmdline) : Platform (Except OutOfRange) where
  getTotalCpus := totalCpus
  getCpuIsolationStatus id := cmdline.isIsolated id.toBitVec
  getCpuNohzFullStatus id := cmdline.isNohzFulled id.toBitVec
  getCpuRcuNocbsStatus id := cmdline.isRcuNocbsed id.toBitVec

/-- On a machine of so few cpus every query returns. -/
theorem trait_returns {totalCpus : UInt32} (cmdline : Cmdline) (h : totalCpus.toNat ≤ maxCpus) :
    Returns (trait totalCpus cmdline) := by
  have hquery : ∀ option, ∀ id < totalCpus, ∃ b, cmdline.query option id.toBitVec = .ok b := by
    intro option id hid
    have hlt : id.toBitVec.toNat < maxCpus := (UInt32.lt_iff_toNat_lt.1 hid).trans_le h
    exact ⟨_, Cmdline.query_of_lt cmdline option hlt⟩
  exact ⟨hquery _, hquery _, hquery _⟩

end CpusConfig

/-! ## `engine_main` up to its threads -/

/-- The machine, with the command line as it was read before `main`. -/
structure Host where
  totalCpus : UInt32
  files : SystemFiles
  procCmdline : List Char
  gCmdline : Cmdline
  read : ∃ fuel, Cmdline.new fuel procCmdline = pure gCmdline

/-- What is found under the path of the configuration. -/
inductive ConfigFile
  | missing
  | notRegular
  | malformed (error : String)
  | document (cfg : Document)

/-- A call of `engine_main`: the arguments, the file system, what the callback and the kernel
answer, and whether the stop flag is still set when the callback has returned. -/
structure Invocation (τ : Type*) where
  program : String
  args : List String
  file : String → ConfigFile
  atPath : TomlNode → String → Option TomlNode
  atPathOk : AtPath atPath
  setupSigaction : Bool
  blockSignals : Bool
  threadName : String
  bindMain : BindAnswer
  registerTasks : Name2Cpu → Option (TaskStorage τ)
  gUntil : Bool
  dispatch : τ

inductive ExitCode
  | success
  | failure
  deriving DecidableEq, Repr

/-- What is written to `std::cerr`, line by line, and the calls of `invalid_cfg`. -/
inductive Report
  | line (text : String)
  | invalidCfg
  deriving DecidableEq, Repr

/-- What `engine_main` comes to: it has returned, it was ended by an exception or by `abort`, or it
has created the threads and waits for them. -/
inductive MainResult (τ : Type*)
  | returned (code : ExitCode) (cerr : List Report)
  | terminated
  | aborted
  | joining (threads : List (Started τ)) (cerr : List Report)

def checkSystem (files : SystemFiles) : ExitCode × List Report :=
  if !isScalingGovernorUsePerformanceMode files then
    (.failure, [.line "Is CPU scaling governor doesn't use performance mode.",
      .line ("Exec from root: find /sys/devices/system/cpu -name scaling_governor -exec sh -c " ++
        "'echo performan")])
  else if isHyperThreadingActive files then
    (.failure, [.line "Hyper threading is active. Disable it in BIOS"])
  else if isSwapActive files then
    (.failure, [.line "Swap is active. Disable it: sudo swapoff -a"])
  else if isTransparentHugepagesActive files then
    (.failure, [.line "Transparent hugepages is active.",
      .line "Exec from root: echo never > /sys/kernel/mm/transparent_hugepage/enabled"])
  else
    (.success, [])

variable {τ : Type*}

namespace Invocation

/-- The lambda `usage`. -/
def usage (call : Invocation τ) : List Report :=
  [.line ("Usage: " ++ call.program ++ " <path/to/config>"), .invalidCfg]

/-- `engine_main` from the block on that registers the tasks. -/
def createThreads (call : Invocation τ) (pathToConfig : String) (cpuCfg : Name2Cpu)
    (cerr : List Report) : MainResult τ :=
  match cpuCfg.entries with
  | [] =>
    .returned .failure (cerr ++ [.line ("cpu configuration can't be empty: " ++ pathToConfig)])
  | (_, cpuId) :: _ =>
    if !((LogicalCpu.new cpuId.toNat "main" call.threadName).bind call.bindMain).2 then
      .returned .failure (cerr ++ [.line "runtime error: can't bind thread into core"])
    else
      match call.registerTasks cpuCfg with
      | none => .returned .failure (cerr ++ [.line "can't register tasks"])
      | some storage =>
        if !call.gUntil then
          .returned .success cerr
        else
          match createEngine cpuCfg storage call.dispatch with
          | .error error => .returned .failure (cerr ++ call.usage ++ [.line error])
          | .aborted => .aborted
          | .engine threads => .joining threads cerr

/-- `engine_main` from the parsed document on. -/
def configure (call : Invocation τ) (host : Host) (pathToConfig : String) (cfg : Document) :
    MainResult τ :=
  match CpusConfig.parse (CpusConfig.trait host.totalCpus host.gCmdline) call.atPath cfg with
  | .error _ => .terminated
  | .ok (.error error) => .returned .failure (call.usage ++ [.line error])
  | .ok (.ok cpuCfg) =>
    if !call.setupSigaction then
      .returned .failure [.line "can't setup signal handler for SIGINT"]
    else if !call.blockSignals then
      call.createThreads pathToConfig cpuCfg [.line "can't block signals: SIGUSR1, SIGUSR2"]
    else
      call.createThreads pathToConfig cpuCfg []

def engineMain (call : Invocation τ) (host : Host) : MainResult τ :=
  let (code, cerr) := checkSystem host.files
  if code = .failure then
    .returned .failure cerr
  else
    match call.args with
    | [] => .returned .failure call.usage
    | pathToConfig :: _ =>
      match call.file pathToConfig with
      | .missing | .notRegular => .returned .failure call.usage
      | .malformed error => .returned .failure (call.usage ++ [.line error])
      | .document cfg => call.configure host pathToConfig cfg

end Invocation

/-! ## What has to be there -/

/-- The system is set up for low latency. -/
structure Quiet (files : SystemFiles) : Prop where
  governors : ∀ entries, files.cpufreq = some entries → (∃ entry ∈ entries, isGovernor entry) ∧
    ∀ entry ∈ entries, isGovernor entry → "performance".toList = entry.2.value
  singleThreaded : (tokens files.smtActive.contents).head? = some ['0']
  noSwap : ∃ header, Lines.lines files.swaps.contents = [header]
  noHugepages : files.transparentHugepage = none ∨
    "[never]".toList ∈ tokens files.transparentHugepage.contents

/-- The cpu is there, and the command line lists it for all three options. -/
structure SetApart (host : Host) (cpu : UInt32) : Prop where
  lt : cpu < host.totalCpus
  listed : ∀ option, Cmdline.ListedFor option host.procCmdline cpu.toBitVec

/-- The tasks with that of the logger thread put in. -/
def prepared (call : Invocation τ) (cpuCfg : Name2Cpu) (storage : TaskStorage τ) : TaskStorage τ :=
  if (cpuCfg.find loggerTask).isSome then storage.replaceTask loggerTask call.dispatch else storage

/-- The main thread could bind itself, and the callback has registered one task for each name. -/
structure Registered (call : Invocation τ) (cpuCfg : Name2Cpu) (storage : TaskStorage τ) :
    Prop where
  bound : (call.bindMain.setCpu && call.bindMain.setName) = true
  registered : call.registerTasks cpuCfg = some storage
  running : call.gUntil = true
  oneEach : OneEach cpuCfg (prepared call cpuCfg storage)

/-- The configuration names different cpus that are set apart. -/
structure Configured (host : Host) (cfg : Document) : Prop where
  nonempty : CpusConfig.cpuEntries cfg ≠ []
  setApart : ∀ cpu ∈ CpusConfig.loadedCpus cfg, SetApart host cpu
  distinct : (CpusConfig.loadedCpus cfg).Nodup

/-- Everything that `engine_main` asks for is there. -/
structure Ready (call : Invocation τ) (host : Host) (cfg : Document) (storage : TaskStorage τ) :
    Prop where
  quiet : Quiet host.files
  file : ∃ pathToConfig args, call.args = pathToConfig :: args ∧
    call.file pathToConfig = .document cfg
  configured : Configured host cfg
  sigaction : call.setupSigaction = true
  registered : Registered call (CpusConfig.loaded cfg) storage

theorem quiet_iff {files : SystemFiles} : Quiet files ↔
    isScalingGovernorUsePerformanceMode files = true ∧ isHyperThreadingActive files = false ∧
      isSwapActive files = false ∧ isTransparentHugepagesActive files = false := by
  rw [isScalingGovernorUsePerformanceMode_iff, isHyperThreadingActive_eq_false,
    isSwapActive_eq_false, isTransparentHugepagesActive_eq_false]
  exact ⟨fun h => ⟨h.governors, h.singleThreaded, h.noSwap, h.noHugepages⟩,
    fun h => ⟨h.1, h.2.1, h.2.2.1, h.2.2.2⟩⟩

/-- The checks pass on a quiet system; each of them says what is wrong. -/
theorem checkSystem_cases (files : SystemFiles) :
    (Quiet files ∧ checkSystem files = (.success, [])) ∨
      ¬ Quiet files ∧ ∃ text cerr, checkSystem files = (.failure, .line text :: cerr) := by
  rw [quiet_iff, checkSystem]
  cases isScalingGovernorUsePerformanceMode files with
  | false => exact .inr ⟨by simp, _, _, rfl⟩
  | true =>
    cases isHyperThreadingActive files with
    | true => exact .inr ⟨by simp, _, _, rfl⟩
    | false =>
      cases isSwapActive files with
      | true => exact .inr ⟨by simp, _, _, rfl⟩
      | false =>
        cases isTransparentHugepagesActive files with
        | true => exact .inr ⟨by simp, _, _, rfl⟩
        | false => exact .inl ⟨by simp, rfl⟩

/-- The checks of `parse` on the command line of the machine. -/
theorem passes_iff {host : Host} {cpu : UInt32} :
    CpusConfig.Passes (CpusConfig.trait host.totalCpus host.gCmdline) cpu ↔ SetApart host cpu := by
  have hlisted : ∀ option, host.gCmdline.query option cpu.toBitVec = .ok true ↔
      Cmdline.ListedFor option host.procCmdline cpu.toBitVec :=
    fun option => Cmdline.query_iff host.read
  constructor
  · intro h
    refine ⟨h.lt, fun option => (hlisted option).1 ?_⟩
    cases option with
    | isolcpus => exact h.isolation
    | nohzFull => exact h.nohzFull
    | rcuNocbs => exact h.rcuNocbs
  · exact fun h => ⟨h.lt, (hlisted _).2 (h.listed _), (hlisted _).2 (h.listed _),
      (hlisted _).2 (h.listed _)⟩

/-! ## What comes of a call -/

section Calls

variable {call : Invocation τ} {host : Host} {pathToConfig : String} {cfg : Document}
  {cpuCfg : Name2Cpu} {cerr cerr' : List Report} {threads : List (Started τ)}

/-- `engine_main` has given up: with a message, or because the stop flag was cleared. -/
structure Refused (call : Invocation τ) (code : ExitCode) (cerr : List Report) : Prop where
  message : code = .failure → cerr ≠ []
  stopped : code = .success → call.gUntil = false

/-- No thread was created.  Only on a machine of many cpus an exception can be the reason. -/
def Stops (call : Invocation τ) (host : Host) (result : MainResult τ) : Prop :=
  (∃ code cerr, result = .returned code cerr ∧ Refused call code cerr) ∨
    result = .terminated ∧ maxCpus < host.totalCpus.toNat

theorem refused_of_failure {call : Invocation τ} (h : cerr ≠ []) : Refused call .failure cerr :=
  ⟨fun _ => h, fun hcode => by cases hcode⟩

theorem stops_of_failure {call : Invocation τ} (h : cerr ≠ []) :
    Stops call host (.returned .failure cerr) := .inl ⟨_, _, rfl, refused_of_failure h⟩

/-- The block that registers the tasks and creates the threads. -/
theorem createThreads_cases (hne : cpuCfg.entries ≠ []) :
    (∃ storage threads, call.createThreads pathToConfig cpuCfg cerr = .joining threads cerr ∧
      Registered call cpuCfg storage ∧ Assigned cpuCfg (prepared call cpuCfg storage) threads) ∨
    (¬ ∃ storage, Registered call cpuCfg storage) ∧
      ∃ code cerr', call.createThreads pathToConfig cpuCfg cerr = .returned code cerr' ∧
        Refused call code cerr' := by
  unfold Invocation.createThreads
  obtain ⟨⟨name, cpuId⟩, entries, hentries⟩ := List.exists_cons_of_ne_nil hne
  rw [hentries]
  simp only [LogicalCpu.bind_snd]
  cases hbind : call.bindMain.setCpu && call.bindMain.setName with
  | false =>
    refine .inr ⟨?_, _, _, rfl, refused_of_failure (by simp)⟩
    rintro ⟨storage, h⟩
    simpa [hbind] using h.bound
  | true =>
    cases hregister : call.registerTasks cpuCfg with
    | none =>
      refine .inr ⟨?_, _, _, rfl, refused_of_failure (by simp)⟩
      rintro ⟨storage, h⟩
      simpa [hregister] using h.registered
    | some storage =>
      cases huntil : call.gUntil with
      | false =>
        refine .inr ⟨?_, _, _, rfl, by simp, fun _ => huntil⟩
        rintro ⟨storage', h⟩
        simpa [huntil] using h.running
      | true =>
        have hcreate : createEngine cpuCfg storage call.dispatch =
            create cpuCfg (prepared call cpuCfg storage) := rfl
        by_cases heach : OneEach cpuCfg (prepared call cpuCfg storage)
        · obtain ⟨threads, hengine, hassigned⟩ := heach.create_engine
          refine .inl ⟨storage, threads, ?_, ⟨hbind, hregister, huntil, heach⟩, hassigned⟩
          simp only [hcreate, hengine]
          rfl
        · obtain ⟨message, herror⟩ := create_error heach
          refine .inr ⟨?_, .failure, cerr ++ call.usage ++ [.line message], ?_,
            refused_of_failure (by simp)⟩
          · rintro ⟨storage', h⟩
            obtain rfl := Option.some.inj (hregister.symm.trans h.registered)
            exact heach h.oneEach
          · simp only [hcreate, herror]
            rfl

/-- The checks of `parse` accept the configurations that name such cpus. -/
theorem parse_configured (hat : AtPath call.atPath) :
    CpusConfig.parse (CpusConfig.trait host.totalCpus host.gCmdline) call.atPath cfg =
      .ok (.ok cpuCfg) ↔ cpuCfg = CpusConfig.loaded cfg ∧ Configured host cfg := by
  refine (CpusConfig.parse_ok hat).trans ?_
  constructor
  · rintro ⟨-, hne, hcfg, haccepted⟩
    exact ⟨hcfg, hne, fun cpu hcpu => passes_iff.1 (haccepted.passes cpu hcpu), haccepted.nodup⟩
  · rintro ⟨hcfg, hne, hapart, hdistinct⟩
    exact ⟨CpusConfig.found_of_nonempty hne, hne, hcfg,
      fun cpu hcpu => passes_iff.2 (hapart cpu hcpu), hdistinct⟩

theorem loaded_ne_nil (h : Configured host cfg) : (CpusConfig.loaded cfg).entries ≠ [] := by
  rw [CpusConfig.loaded, ne_eq, List.map_eq_nil_iff]
  exact h.nonempty

/-- `engine_main` from the parsed document on. -/
theorem configure_cases (call : Invocation τ) (host : Host) (pathToConfig : String)
    (cfg : Document) :
    (∃ storage threads cerr, call.configure host pathToConfig cfg = .joining threads cerr ∧
      Configured host cfg ∧ call.setupSigaction = true ∧
      Registered call (CpusConfig.loaded cfg) storage ∧
      Assigned (CpusConfig.loaded cfg) (prepared call (CpusConfig.loaded cfg) storage) threads) ∨
    (¬ ∃ storage, Configured host cfg ∧ call.setupSigaction = true ∧
      Registered call (CpusConfig.loaded cfg) storage) ∧
      Stops call host (call.configure host pathToConfig cfg) := by
  have hparse := @parse_configured τ call host cfg (CpusConfig.loaded cfg) call.atPathOk
  unfold Invocation.configure
  by_cases hconfigured : Configured host cfg
  · rw [hparse.2 ⟨rfl, hconfigured⟩]
    cases hsigaction : call.setupSigaction with
    | false => exact .inr ⟨by simp, stops_of_failure (by simp)⟩
    | true =>
      have hblock : ∀ cerr,
          (∃ storage threads cerr', call.createThreads pathToConfig (CpusConfig.loaded cfg) cerr =
              .joining threads cerr' ∧ Configured host cfg ∧ true = true ∧
            Registered call (CpusConfig.loaded cfg) storage ∧ Assigned (CpusConfig.loaded cfg)
              (prepared call (CpusConfig.loaded cfg) storage) threads) ∨
          (¬ ∃ storage, Configured host cfg ∧ true = true ∧
            Registered call (CpusConfig.loaded cfg) storage) ∧
            Stops call host (call.createThreads pathToConfig (CpusConfig.loaded cfg) cerr) := by
        intro cerr
        rcases @createThreads_cases τ call pathToConfig _ cerr (loaded_ne_nil hconfigured) with
          ⟨storage, threads, hjoining, hregistered, hassigned⟩ | ⟨hnot, hend⟩
        · exact .inl ⟨storage, threads, cerr, hjoining, hconfigured, rfl, hregistered, hassigned⟩
        · exact .inr ⟨fun ⟨storage, h⟩ => hnot ⟨storage, h.2.2⟩, .inl hend⟩
      cases call.blockSignals with
      | false => exact hblock _
      | true => exact hblock _
  · refine .inr ⟨fun ⟨_, h, _⟩ => hconfigured h, ?_⟩
    cases hresult : CpusConfig.parse (CpusConfig.trait host.totalCpus host.gCmdline) call.atPath
      cfg with
    | error e =>
      refine .inr ⟨rfl, ?_⟩
      by_contra hfew
      have hreturns := CpusConfig.trait_returns host.gCmdline (not_lt.1 hfew)
      obtain ⟨parsed, hparsed⟩ := CpusConfig.parse_returns hreturns call.atPath cfg
      rw [hresult] at hparsed
      cases hparsed
    | ok parsed =>
      cases parsed with
      | error error => exact stops_of_failure (by simp)
      | ok cpuCfg => exact absurd ((parse_configured call.atPathOk).1 hresult).2 hconfigured

/-- `engine_main` creates its threads when everything is there, and stops otherwise. -/
theorem engineMain_cases (call : Invocation τ) (host : Host) :
    (∃ cfg storage threads cerr, call.engineMain host = .joining threads cerr ∧
      Ready call host cfg storage ∧
      Assigned (CpusConfig.loaded cfg) (prepared call (CpusConfig.loaded cfg) storage) threads) ∨
    (¬ ∃ cfg storage, Ready call host cfg storage) ∧ Stops call host (call.engineMain host) := by
  rcases checkSystem_cases host.files with ⟨hquiet, hcheck⟩ | ⟨hnot, text, cerr, hcheck⟩
  · cases hargs : call.args with
    | nil =>
      have hmain : call.engineMain host = .returned .failure call.usage := by
        rw [Invocation.engineMain, hcheck, hargs]
        rfl
      refine .inr ⟨?_, hmain ▸ stops_of_failure (List.cons_ne_nil _ _)⟩
      rintro ⟨cfg, storage, h⟩
      obtain ⟨path, args, heq, -⟩ := h.file
      cases hargs.symm.trans heq
    | cons pathToConfig args =>
      have hmain : call.engineMain host = match call.file pathToConfig with
          | .missing | .notRegular => .returned .failure call.usage
          | .malformed error => .returned .failure (call.usage ++ [.line error])
          | .document cfg => call.configure host pathToConfig cfg := by
        rw [Invocation.engineMain, hcheck, hargs]
        rfl
      have hfile : ∀ cfg storage, Ready call host cfg storage →
          call.file pathToConfig = .document cfg := by
        intro cfg storage h
        obtain ⟨path, args', heq, hdocument⟩ := h.file
        cases hargs.symm.trans heq
        exact hdocument
      rw [hmain]
      cases hpath : call.file pathToConfig with
      | missing | notRegular =>
        refine .inr ⟨?_, stops_of_failure (List.cons_ne_nil _ _)⟩
        rintro ⟨cfg, storage, h⟩
        cases hpath.symm.trans (hfile cfg storage h)
      | malformed error =>
        refine .inr ⟨?_, stops_of_failure (List.cons_ne_nil _ _)⟩
        rintro ⟨cfg, storage, h⟩
        cases hpath.symm.trans (hfile cfg storage h)
      | document cfg =>
        rcases configure_cases call host pathToConfig cfg with
          ⟨storage, threads, cerr, hjoining, hconfigured, hsigaction, hregistered, hassigned⟩ |
          ⟨hnot, hstops⟩
        · exact .inl ⟨cfg, storage, threads, cerr, hjoining,
            ⟨hquiet, ⟨pathToConfig, args, hargs, hpath⟩, hconfigured, hsigaction, hregistered⟩,
            hassigned⟩
        · refine .inr ⟨?_, hstops⟩
          rintro ⟨cfg', storage, h⟩
          cases hpath.symm.trans (hfile cfg' storage h)
          exact hnot ⟨storage, h.configured, h.sigaction, h.registered⟩
  · have hmain : call.engineMain host = .returned .failure (.line text :: cerr) := by
      rw [Invocation.engineMain, hcheck]
      rfl
    exact .inr ⟨fun ⟨_, _, h⟩ => hnot h.quiet, hmain ▸ stops_of_failure (List.cons_ne_nil _ _)⟩

end Calls

/-! ## The threads that were created -/

section Threads

variable {call : Invocation τ} {host : Host} {cfg : Document} {storage : TaskStorage τ}
  {threads : List (Started τ)}

/-- Every thread has its own cpu, set apart for it, and its own task; the thread of the logger
dispatches.  In a run of the engine no other thread is ever there. -/
structure Placed (call : Invocation τ) (host : Host) (cfg : Document) (storage : TaskStorage τ)
    (threads : List (Started τ)) : Prop where
  assigned : Assigned (CpusConfig.loaded cfg)
    (prepared call (CpusConfig.loaded cfg) storage) threads
  setApart : ∀ t ∈ threads, SetApart host t.cpu
  distinct : (threads.map Started.cpu).Nodup
  logger : ∀ t ∈ threads, t.name = loggerTask → t.task = call.dispatch
  runs : ∀ {ε : Type} (print : ε → OStringStream → OStringStream) (sstream : OStringStream)
    (listener : ℕ) (s : EngineState ε) (log : List (SystemObs Thread ε)),
    (engineMachine (CpusConfig.loaded cfg).config print).Reaches (.start sstream listener) s log →
      ∀ name, s.thread name ≠ .absent → ∃ t ∈ threads, t.name = name

theorem cpus_eq (h : Assigned (CpusConfig.loaded cfg) storage threads) :
    threads.map Started.cpu = CpusConfig.loadedCpus cfg := by
  have hcpus := congrArg (List.map Prod.snd) h.cpus
  rwa [List.map_map, CpusConfig.loaded_snd] at hcpus

theorem Ready.placed (hready : Ready call host cfg storage)
    (h : Assigned (CpusConfig.loaded cfg) (prepared call (CpusConfig.loaded cfg) storage) threads) :
    Placed call host cfg storage threads := by
  have hcpus := cpus_eq h
  have hnames := h.names
  refine ⟨h, fun t ht => ?_, ?_, fun t ht hlogger => ?_, fun print sstream listener s log hrun name
    hname => ?_⟩
  · apply hready.configured.setApart
    rw [← hcpus]
    exact List.mem_map_of_mem ht
  · rw [hcpus]
    exact hready.configured.distinct
  · have hkey : loggerTask ∈ (CpusConfig.loaded cfg).keys := by
      have hmem : t.name ∈ threads.map Started.name := List.mem_map_of_mem ht
      rwa [hnames, hlogger] at hmem
    refine ((h.task t ht call.dispatch).1 ?_).symm
    rw [prepared, if_pos ((CpusConfig.loaded cfg).find_isSome.2 hkey), hlogger]
    exact storage.mem_replaceTask loggerTask call.dispatch
  · have hmem : name ∈ (CpusConfig.loaded cfg).config.names := by
      by_contra hforeign
      exact hname ((lifecycle_of_reaches hrun).1.foreign name hforeign)
    rw [← hnames, List.mem_map] at hmem
    exact hmem

end Threads

/-- `engine_main` creates its threads exactly if everything it asks for is there.  Then every thread
has its own task and its own cpu, which is below the number of cpus and listed for all three options
of the command line, and in every run of the engine there are no other threads.  Otherwise it
returns with a message, unless the stop flag was cleared; only on a machine with more cpus than
there are bits an exception can end the process, and it never aborts. -/
theorem engineMain_starts (call : Invocation τ) (host : Host) :
    ((∃ threads cerr, call.engineMain host = .joining threads cerr) ↔
      ∃ cfg storage, Ready call host cfg storage) ∧
    (∀ threads cerr, call.engineMain host = .joining threads cerr →
      ∃ cfg storage, Ready call host cfg storage ∧ Placed call host cfg storage threads) ∧
    ((¬ ∃ cfg storage, Ready call host cfg storage) → Stops call host (call.engineMain host)) := by
  rcases engineMain_cases call host with
    ⟨cfg, storage, threads, cerr, hmain, hready, hassigned⟩ | ⟨hnot, hstops⟩
  · refine ⟨iff_of_true ⟨threads, cerr, hmain⟩ ⟨cfg, storage, hready⟩, fun threads' cerr' h => ?_,
      fun hnot => absurd ⟨cfg, storage, hready⟩ hnot⟩
    cases hmain.symm.trans h
    exact ⟨cfg, storage, hready, hready.placed hassigned⟩
  · have hno : ∀ threads cerr, call.engineMain host ≠ .joining threads cerr := by
      intro threads cerr h
      rw [h] at hstops
      rcases hstops with ⟨code, cerr', heq, -⟩ | ⟨heq, -⟩
      · cases heq
      · cases heq
    exact ⟨iff_of_false (fun ⟨threads, cerr, h⟩ => hno threads cerr h) hnot,
      fun threads cerr h => absurd h (hno threads cerr), fun _ => hstops⟩

/-- A machine of four cpus, the last two of them set apart. -/
def fourCpus : Host where
  totalCpus := 4
  files := ⟨none, some "0\n".toList, some "Filename\n".toList, some "always [never]\n".toList, none⟩
  procCmdline := "quiet isolcpus=2-3 nohz_full=2-3 rcu_nocbs=1-3".toList
  gCmdline := Cmdline.empty.setAll fun option =>
    option.listed "quiet isolcpus=2-3 nohz_full=2-3 rcu_nocbs=1-3".toList
  read := by
    have hfit : ListsFit "quiet isolcpus=2-3 nohz_full=2-3 rcu_nocbs=1-3".toList := by decide
    exact (Cmdline.new_eq_pure_iff hfit.terminate).2 ⟨hfit, rfl⟩

/-- A call with one task and the logger. -/
def oneTask : Invocation ℕ where
  program := "engine"
  args := ["nested.toml"]
  file path := if path = "nested.toml" then .document (CpusConfig.withLogger 3 2) else .missing
  atPath := dottedPath
  atPathOk := atPath_dottedPath
  setupSigaction := true
  blockSignals := true
  threadName := "engine"
  bindMain := ⟨true, true⟩
  registerTasks _ := some (TaskStorage.empty.addTask "alpha" 20)
  gUntil := true
  dispatch := 40

/-- The thread of the logger dispatches on the cpu that is set apart for it. -/
theorem engineMain_starts_logger : ∃ threads cerr,
    oneTask.engineMain fourCpus = .joining threads cerr ∧
      ∃ t ∈ threads, t.name = loggerTask ∧ t.cpu = 2 ∧ t.task = 40 := by
  have hfit : ListsFit fourCpus.procCmdline := by decide
  have hcpus : CpusConfig.loadedCpus (CpusConfig.withLogger 3 2) = [3, 2] := by decide
  have hready : Ready oneTask fourCpus (CpusConfig.withLogger 3 2)
      (TaskStorage.empty.addTask "alpha" 20) := by
    refine ⟨?_, ⟨"nested.toml", [], rfl, rfl⟩, ?_, rfl, ⟨rfl, rfl, rfl, ?_⟩⟩
    · exact ⟨fun entries hentries => (by cases hentries), by decide, ⟨"Filename".toList, by decide⟩,
        .inr (by decide)⟩
    · refine ⟨by decide, fun cpu hcpu => ?_, by rw [hcpus]; decide⟩
      rw [hcpus] at hcpu
      have hlt : cpu < 4 := by
        rcases List.mem_pair.1 hcpu with rfl | rfl <;> decide
      refine ⟨hlt, fun option => (Cmdline.listedFor_iff hfit.terminate).2 ?_⟩
      rcases List.mem_pair.1 hcpu with rfl | rfl <;> cases option <;> decide
    · rw [oneEach_iff_perm]
      decide
  obtain ⟨threads, cerr, hmain⟩ := (engineMain_starts oneTask fourCpus).1.2 ⟨_, _, hready⟩
  obtain ⟨cfg, storage, hready', hplaced⟩ :=
    (engineMain_starts oneTask fourCpus).2.1 threads cerr hmain
  obtain ⟨path, args, hargs, hfile⟩ := hready'.file
  cases hargs
  cases hfile
  have hmem : (loggerTask, (2 : UInt32)) ∈ threads.map fun t => (t.name, t.cpu) := by
    rw [hplaced.assigned.cpus]
    decide
  obtain ⟨t, ht, heq⟩ := List.mem_map.1 hmem
  simp only [Prod.mk.injEq] at heq
  exact ⟨threads, cerr, hmain, t, ht, heq.1, heq.2, hplaced.logger t ht heq.1⟩

end Ihft.Engine
