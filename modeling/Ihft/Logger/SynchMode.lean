import Ihft.Logger.SoloThread

/-!
# The synchronous mode

A log call in the synchronous mode takes one event out of the queue after it has put its own in.
So it keeps an empty queue empty, but it does not make up for a backlog that the asynchronous mode
has left: with a backlog the event may be refused, and if it is not, another one is passed on in its
place.
-/

namespace Ihft.Logger

open Observe GuardedBroadcast Channel

variable {ε : Type*}

/-- A log call with the observations `os` was synchronous: its event was accepted, and all events
accepted so far have been passed on, in order. -/
structure Synchronous (s : LoggerSystem Unit ε) (log os : List (SystemObs Unit ε)) : Prop where
  accepted : .logged () true ∈ os
  empty : s.adapter.Empty
  notified : noticedFrom 0 (adapterLog (log ++ os)) = acceptedFrom 0 (adapterLog (log ++ os))

/-- The mode is changed to the synchronous one with an empty queue only. -/
def SwitchesEmpty (s : LoggerSystem Unit ε) (i : SystemInput Unit ε) : Prop :=
  i = .changeMode () .synch → s.adapter.Empty

instance (s : LoggerSystem Unit ε) (i : SystemInput Unit ε) : Decidable (SwitchesEmpty s i) :=
  match i with
  | .changeMode () .synch => decidable_of_iff s.adapter.Empty (by simp [SwitchesEmpty])
  | .changeMode () .async | .clientGuard _ | .log .. | .dispatch _ | .replaceListener _
  | .resume _ => isTrue (by simp [SwitchesEmpty])

/-! ## The abstract thread in the synchronous mode -/

namespace Solo

variable {a : Solo}

/-- In the synchronous mode at most the event of the call is left in the queue. -/
def Level (a : Solo) : Prop :=
  a.mode = .synch → a.accepted ≤ a.taken + match a.phase with
    | .written | .loadSynch | .synchDispatch | .scan true 0 => 1
    | _ => 0

theorem Level.resume (h : a.Level) : a.resume.Level := by
  obtain ⟨mode, phase, accepted, taken⟩ := a
  unfold Level at h ⊢
  cases phase with
  | scan logged i => cases logged <;> cases i <;> grind [Solo.resume]
  | _ => grind [Solo.resume]

theorem Level.next (h : a.Level) {i : SystemInput Unit ε} (hi : i.Begins → a.phase = .idle)
    (hswitch : i = .changeMode () .synch → a.accepted ≤ a.taken) : (a.next i).Level := by
  obtain ⟨mode, phase, accepted, taken⟩ := a
  cases i with
  | resume d => exact h.resume
  | clientGuard d | replaceListener listener => exact h
  | log d content | dispatch d =>
    obtain rfl : phase = .idle := hi trivial
    exact h
  | changeMode d newmode =>
    obtain rfl : phase = .idle := hi trivial
    by_cases hmode : mode = newmode
    · simp only [Solo.next, if_pos hmode]
      exact h
    · simp only [Solo.next, if_neg hmode]
      rintro rfl
      exact hswitch rfl

/-- The steps of a log call in the synchronous mode, when the queue has a place left. -/
theorem log_call {accepted taken : ℕ} (hle : taken ≤ accepted)
    (hroom : ¬ taken + queueSize ≤ accepted) :
    (∀ m < 11, (Solo.resume^[m] ⟨.synch, .constructed, accepted, taken⟩).phase ≠ .idle) ∧
      (Solo.resume^[10] ⟨.synch, .constructed, accepted, taken⟩).Logs true ∧
      Solo.resume^[11] ⟨.synch, .constructed, accepted, taken⟩ =
        ⟨.synch, .idle, accepted + 1, taken + 1⟩ := by
  have hlt : taken < accepted + 1 := Nat.lt_succ_of_le hle
  refine ⟨fun m hm => ?_, ?_, ?_⟩
  · interval_cases m <;> simp [Solo.resume, hroom, hlt]
  · simp [Solo.resume, Solo.Logs, hroom, hlt]
  · simp [Solo.resume, hroom, hlt]

/-- A log call of a full queue. -/
theorem log_call_full (mode : Mode) {accepted taken : ℕ} (hfull : taken + queueSize ≤ accepted) :
    Solo.resume ⟨mode, .constructed, accepted, taken⟩ = ⟨mode, .idle, accepted, taken⟩ ∧
      ¬ Solo.Logs ⟨mode, .constructed, accepted, taken⟩ true := by
  simp [Solo.resume, Solo.Logs, hfull]

end Solo

/-! ## Histories of one thread -/

section Runs

variable {print : ε → OStringStream → OStringStream} {sstream : OStringStream} {listener : ℕ}
  {s s' : LoggerSystem Unit ε} {log os : List (SystemObs Unit ε)} {a : Solo}

theorem solo_counts (h : (systemMachine print).Reaches (.start () sstream listener) s log)
    (ha : SoloAt s a) : (acceptedFrom 0 (adapterLog log)).length = a.accepted ∧
      (takenFrom 0 (adapterLog log)).length = a.taken := by
  obtain ⟨x, hx, hclient⟩ := ha.one
  have hget : s.adapter.clients[0]? = some x := by rw [hx]; rfl
  have hreach := adapter_reaches h
  exact ⟨(written_eq_accepted hreach hget).symm.trans hclient.accepted,
    (taken_eq_length hreach hget).symm.trans hclient.taken⟩

theorem solo_taken_le (h : (systemMachine print).Reaches (.start () sstream listener) s log)
    (ha : SoloAt s a) : a.taken ≤ a.accepted := by
  obtain ⟨haccepted, htaken⟩ := solo_counts h ha
  rw [← haccepted, ← htaken]
  exact (takenFrom_isPrefix (adapter_reaches h) 0).length_le

theorem solo_empty_iff (h : (systemMachine print).Reaches (.start () sstream listener) s log)
    (ha : SoloAt s a) : s.adapter.Empty ↔ a.accepted ≤ a.taken := by
  obtain ⟨haccepted, htaken⟩ := solo_counts h ha
  rw [empty_iff (adapter_reaches h), ← haccepted, ← htaken]
  refine ⟨fun hempty => hempty 0, fun hle c => ?_⟩
  cases c with
  | zero => exact hle
  | succ c =>
    -- there is no other client
    obtain ⟨x, hx, -⟩ := ha.one
    have hnone : s.adapter.clients[c + 1]? = none := by rw [hx]; rfl
    rw [acceptedFrom_length, (clientsOk_of_reaches (adapter_reaches h) (c + 1)).2 hnone]
    exact Nat.zero_le _

/-- Between two calls everything that was taken has been passed on. -/
theorem solo_notified_iff (h : (systemMachine print).Reaches (.start () sstream listener) s log)
    (ha : SoloAt s a) (hphase : a.phase = .idle) :
    noticedFrom 0 (adapterLog log) = acceptedFrom 0 (adapterLog log) ↔ a.accepted ≤ a.taken := by
  have hreach := adapter_reaches h
  have hwhile := hreach.reachesWhile fun s i s' os hstep => nonOverlapping_of_subsingleton hstep
  obtain ⟨haccepted, htaken⟩ := solo_counts h ha
  have hidle : ∀ d, s.adapter.pc d = .idle := by
    rintro ⟨⟩
    have hpc := ha.pc
    simpa only [Solo.AtPc, hphase] using hpc
  have hsettled := (deliveryOk_of_reaches hwhile).settled hidle 0
  rw [← hsettled, ← haccepted, ← htaken]
  constructor
  · intro heq
    rw [heq]
  · exact (takenFrom_isPrefix hreach 0).eq_of_length_le

theorem solo_idle (ha : SoloAt s a) (hcall : s.call () = .idle) : a.phase = .idle := by
  by_contra hphase
  exact call_ne_idle ha hphase hcall

theorem soloAt_run {is : List (SystemInput Unit ε)}
    (h : (systemMachine print).Reaches (.start () sstream listener) s log)
    (hrun : (systemMachine print).run s is = some (s', os)) :
    (systemMachine print).Reaches (.start () sstream listener) s' (log ++ os) :=
  h.trans (.of_run hrun)

/-- In a history whose changes to the synchronous mode find the queue empty. -/
theorem level_of_reachesWhile
    (h : (systemMachine print).ReachesWhile SwitchesEmpty (.start () sstream listener) s log) :
    ∃ a, SoloAt s a ∧ a.Level := by
  induction h with
  | start => exact ⟨_, soloAt_start, fun _ => le_rfl⟩
  | step i before hok hs ih =>
    obtain ⟨a, ha, hlevel⟩ := ih
    obtain ⟨hat, hbegins⟩ := soloAt_step ha (adapter_reaches before.reaches) hs
    refine ⟨_, hat, hlevel.next hbegins fun hi => ?_⟩
    exact (solo_empty_iff before.reaches ha).1 (hok hi)

/-- A log call runs to its end. -/
theorem run_log {accepted taken n : ℕ}
    (h : (systemMachine print).Reaches (.start () sstream listener) s log)
    (ha : SoloAt s ⟨.synch, .idle, accepted, taken⟩) (content : ε)
    (hn : ∀ m < n, (Solo.resume^[m] ⟨.synch, .constructed, accepted, taken⟩).phase ≠ .idle) :
    ∃ s' os, (systemMachine print).run s (.log () content :: List.replicate n (.resume ())) =
        some (s', os) ∧
      SoloAt s' (Solo.resume^[n] ⟨.synch, .constructed, accepted, taken⟩) ∧
      (.logged () true ∈ os ↔
        ∃ m < n, (Solo.resume^[m] ⟨.synch, .constructed, accepted, taken⟩).Logs true) := by
  obtain ⟨s₁, os₁, hstep, hat, hno⟩ := ha.log_call print content
  obtain ⟨s₂, os₂, hrun, hat', hlogs⟩ := run_resume hat (h.step _ hstep) hn
  refine ⟨s₂, os₁ ++ os₂, ?_, hat', ?_⟩
  · simp only [Machine.run, hstep, hrun]
  · rw [List.mem_append, or_iff_right (hno true), hlogs]

/-- A log call in the synchronous mode returns, and it was synchronous if and only if the queue was
empty before it.  That is so in every history in which the mode is changed to the synchronous one
with an empty queue only. -/
theorem log_synchronous (h : (systemMachine print).Reaches (.start () sstream listener) s log)
    (hcall : s.call () = .idle) (hmode : s.mode = .synch) (content : ε) :
    (∃ n s' os, (systemMachine print).run s (.log () content :: List.replicate n (.resume ())) =
        some (s', os) ∧
      s'.call () = .idle ∧ (Synchronous s' log os ↔ s.adapter.Empty)) ∧
    ((systemMachine print).ReachesWhile SwitchesEmpty (.start () sstream listener) s log →
      s.adapter.Empty) := by
  constructor
  · obtain ⟨⟨mode, phase, accepted, taken⟩, ha⟩ := soloAt_of_reaches h
    obtain rfl : mode = .synch := ha.mode.symm.trans hmode
    obtain rfl : phase = .idle := solo_idle ha hcall
    have hle : taken ≤ accepted := solo_taken_le h ha
    have hempty : s.adapter.Empty ↔ accepted ≤ taken := solo_empty_iff h ha
    by_cases hfull : taken + queueSize ≤ accepted
    · -- the event is refused
      obtain ⟨hresume, hlogs⟩ := Solo.log_call_full .synch hfull
      obtain ⟨s', os, hrun, hat, hlogged⟩ := run_log (n := 1) h ha content (by simp)
      refine ⟨1, s', os, hrun, ?_, ?_⟩
      · rw [hat.call, Function.iterate_one, hresume]
        rfl
      · have hpos : 0 < queueSize := by decide
        rw [hempty]
        refine iff_of_false (fun hs => hlogs ?_) (by omega)
        obtain ⟨m, hm, hw⟩ := hlogged.1 hs.accepted
        obtain rfl : m = 0 := by omega
        exact hw
    · obtain ⟨hbusy, hlogs, hresume⟩ := Solo.log_call hle hfull
      obtain ⟨s', os, hrun, hat, hlogged⟩ := run_log h ha content hbusy
      rw [hresume] at hat
      have hreach := soloAt_run h hrun
      refine ⟨11, s', os, hrun, hat.call, ?_⟩
      rw [hempty]
      constructor
      · intro hs
        exact Nat.le_of_succ_le_succ ((solo_empty_iff hreach hat).1 hs.empty)
      · intro hle'
        have hle' : accepted + 1 ≤ taken + 1 := Nat.succ_le_succ hle'
        exact ⟨hlogged.2 ⟨10, by omega, hlogs⟩, (solo_empty_iff hreach hat).2 hle',
          (solo_notified_iff hreach hat rfl).2 hle'⟩
  · intro hwhile
    obtain ⟨a, ha, hlevel⟩ := level_of_reachesWhile hwhile
    have hle := hlevel (ha.mode.symm.trans hmode)
    rw [solo_idle ha hcall] at hle
    exact (solo_empty_iff h ha).2 hle

end Runs

/-- An event of the asynchronous mode, passed on by a call of `dispatch` before the mode is changed
back. -/
def drained : List (SystemInput Unit String) :=
  .changeMode () .async :: List.replicate 2 (.resume ()) ++
    .log () "first" :: List.replicate 5 (.resume ()) ++
    .dispatch () :: List.replicate 5 (.resume ()) ++
    .changeMode () .synch :: List.replicate 2 (.resume ())

/-- With the queue drained before, the second event is logged synchronously. -/
theorem log_synchronous_drained : ∃ s log n s' os,
    (systemMachine printText).ReachesWhile SwitchesEmpty (.start () plainStream 0) s log ∧
      noticedFrom 0 (adapterLog log) = [some ⟨0, ⟨0, "first"⟩⟩] ∧
      (systemMachine printText).run s (.log () "second" :: List.replicate n (.resume ())) =
        some (s', os) ∧
      s'.call () = .idle ∧ Synchronous s' log os := by
  have hwhile := Machine.ReachesWhile.of_run (show (systemMachine printText).run
    (LoggerSystem.start () plainStream 0) drained = some (_, _) from rfl)
    (show Machine.meets _ SwitchesEmpty _ _ = true from rfl)
  obtain ⟨⟨n, s', os, hrun, hcall, hiff⟩, hempty⟩ :=
    log_synchronous hwhile.reaches rfl rfl "second"
  exact ⟨_, _, n, s', os, hwhile, rfl, hrun, hcall, hiff.2 (hempty hwhile)⟩

/-- Two events are logged in the asynchronous mode. -/
def backlog : List (SystemInput Unit String) :=
  .changeMode () .async :: List.replicate 2 (.resume ()) ++
    .log () "first" :: List.replicate 5 (.resume ()) ++
    .log () "second" :: List.replicate 5 (.resume ()) ++
    .changeMode () .synch :: List.replicate 2 (.resume ())

/-- After a change to the synchronous mode with two events in the queue, a log call passes on the
first of them instead of its own. -/
theorem backlog_not_synchronous : ∃ (s s' : LoggerSystem Unit String) (log os : List _),
    (systemMachine printText).Reaches (.start () plainStream 0) s log ∧
      s.call () = .idle ∧ s.mode = .synch ∧
      (systemMachine printText).run s (.log () "third" :: List.replicate 11 (.resume ())) =
        some (s', os) ∧
      s'.call () = .idle ∧
      noticedFrom 0 (adapterLog (log ++ os)) = [some ⟨0, ⟨0, "first"⟩⟩] ∧
      ¬ Synchronous s' log os := by
  have hrun := Machine.Reaches.of_run (show (systemMachine printText).run
    (LoggerSystem.start () plainStream 0) backlog = some (_, _) from rfl)
  refine ⟨_, _, _, _, hrun, rfl, rfl, rfl, rfl, rfl, fun h => ?_⟩
  have hnotified := h.notified
  revert hnotified
  decide

end Ihft.Logger
