import Mathlib.Tactic

/-!
# Logical cpus

A `logical_cpu_impl` binds its thread to a cpu and names it, and gives the thread back when it is
destroyed.  One flag, written by every `bind`, says whether there is something to give back.
-/

namespace Ihft.Engine

/-- What the two platform calls of a `bind` answer; the second one is not made if the first one
fails. -/
structure BindAnswer where
  setCpu : Bool
  setName : Bool
  deriving DecidableEq, Repr

/-- A `logical_cpu_impl` with the thread that it binds; the affinity `none` is the default one. -/
structure LogicalCpu where
  binded : Bool
  cpuId : ℕ
  cpuName : String
  affinity : Option ℕ
  threadName : String
  deriving DecidableEq, Repr

namespace LogicalCpu

/-- The constructor, in a thread with the default affinity. -/
def new (cpuId : ℕ) (cpuName threadName : String) : LogicalCpu :=
  ⟨false, cpuId, cpuName, none, threadName⟩

/-- `platform::set_current_thread_cpu(m_cpu_id)`. -/
def setCurrentThreadCpu (s : LogicalCpu) (ok : Bool) : LogicalCpu × Bool :=
  (if ok then { s with affinity := some s.cpuId } else s, ok)

/-- `platform::set_current_thread_name(m_cpu_name.c_str())`. -/
def setCurrentThreadName (s : LogicalCpu) (ok : Bool) : LogicalCpu × Bool :=
  (if ok then { s with threadName := s.cpuName } else s, ok)

/-- `platform::reset_current_thread_cpu()`. -/
def resetCurrentThreadCpu (s : LogicalCpu) (ok : Bool) : LogicalCpu × Bool :=
  (if ok then { s with affinity := none } else s, ok)

def bind (s : LogicalCpu) (answer : BindAnswer) : LogicalCpu × Bool :=
  let (s, ok) := s.setCurrentThreadCpu answer.setCpu
  let (s, ok) := if ok then s.setCurrentThreadName answer.setName else (s, false)
  ({ s with binded := ok }, ok)

/-- The destructor; `reset` is the answer to `reset_current_thread_cpu`, if it is called. -/
def destroy (s : LogicalCpu) (reset : Bool) : LogicalCpu :=
  if s.binded then
    let (s, ok) := s.resetCurrentThreadCpu reset
    { s with binded := !ok }
  else
    s

/-- The calls of `bind`, one after the other. -/
def bindAll (s : LogicalCpu) (answers : List BindAnswer) : LogicalCpu :=
  answers.foldl (fun s answer => (s.bind answer).1) s

/-! ## The flag and the affinity -/

section Calls

variable (s : LogicalCpu) (answer : BindAnswer) (answers : List BindAnswer)

theorem bind_snd : (s.bind answer).2 = (answer.setCpu && answer.setName) := by
  cases hcpu : answer.setCpu <;> simp [bind, setCurrentThreadCpu, setCurrentThreadName, hcpu]

theorem bind_binded : (s.bind answer).1.binded = (answer.setCpu && answer.setName) := by
  rw [← bind_snd s]
  rfl

@[simp] theorem bind_cpuId : (s.bind answer).1.cpuId = s.cpuId := by
  cases hcpu : answer.setCpu <;> cases hname : answer.setName <;>
    simp [bind, setCurrentThreadCpu, setCurrentThreadName, hcpu, hname]

theorem bind_affinity :
    (s.bind answer).1.affinity = if answer.setCpu then some s.cpuId else s.affinity := by
  cases hcpu : answer.setCpu <;> cases hname : answer.setName <;>
    simp [bind, setCurrentThreadCpu, setCurrentThreadName, hcpu, hname]

theorem bindAll_append (answers' : List BindAnswer) :
    s.bindAll (answers ++ answers') = (s.bindAll answers).bindAll answers' := by
  simp [bindAll]

@[simp] theorem bindAll_cpuId : (s.bindAll answers).cpuId = s.cpuId := by
  induction answers generalizing s with
  | nil => rfl
  | cons answer answers ih => exact (ih _).trans (bind_cpuId s answer)

/-- The affinity is that of the cpu as soon as one call has set it. -/
theorem bindAll_affinity : (s.bindAll answers).affinity =
    if ∃ answer ∈ answers, answer.setCpu then some s.cpuId else s.affinity := by
  induction answers using List.reverseRecOn with
  | nil => simp [bindAll]
  | append_singleton answers answer ih =>
    rw [bindAll_append]
    change ((s.bindAll answers).bind answer).1.affinity = _
    rw [bind_affinity, ih, bindAll_cpuId]
    cases hcpu : answer.setCpu <;> simp [or_and_right, exists_or, hcpu]

/-- The flag is that of the last call. -/
theorem bindAll_binded (hs : s.binded = false) : (s.bindAll answers).binded = true ↔
    ∃ answer, answers.getLast? = some answer ∧ answer.setCpu ∧ answer.setName := by
  induction answers using List.reverseRecOn with
  | nil => simp [bindAll, hs]
  | append_singleton answers answer ih =>
    rw [bindAll_append]
    change ((s.bindAll answers).bind answer).1.binded = true ↔ _
    rw [bind_binded]
    simp

theorem destroy_affinity (reset : Bool) : (s.destroy reset).affinity =
    if s.binded ∧ reset then none else s.affinity := by
  cases hbinded : s.binded <;> cases reset <;> simp [destroy, resetCurrentThreadCpu, hbinded]

end Calls

/-- The thread has the default affinity after the destructor, unless it is the reset that fails. -/
def GivesBack (s : LogicalCpu) : Prop :=
  ∀ reset : Bool, (s.binded → reset) → (s.destroy reset).affinity = none

theorem givesBack_of_binded {s : LogicalCpu} (h : s.binded = true) : s.GivesBack := by
  intro reset hreset
  rw [destroy_affinity, if_pos ⟨h, hreset h⟩]

theorem givesBack_of_not_binded {s : LogicalCpu} (h : s.binded = false) :
    s.GivesBack ↔ s.affinity = none := by
  have hdestroy : ∀ reset, (s.destroy reset).affinity = s.affinity := fun reset => by
    rw [destroy_affinity, h, if_neg (by simp)]
  constructor
  · intro hgives
    rw [← hdestroy true]
    exact hgives true fun _ => rfl
  · intro haffinity reset _
    rw [hdestroy, haffinity]

/-- The thread is given back exactly if no call of `bind` has set its cpu, or the last one was a
success. -/
theorem givesBack_iff (cpuId : ℕ) (cpuName threadName : String) (answers : List BindAnswer) :
    GivesBack ((new cpuId cpuName threadName).bindAll answers) ↔
      (∀ answer ∈ answers, ¬ answer.setCpu) ∨
      ∃ answer, answers.getLast? = some answer ∧ answer.setCpu ∧ answer.setName := by
  have hflag := bindAll_binded (new cpuId cpuName threadName) answers rfl
  have haffinity := bindAll_affinity (new cpuId cpuName threadName) answers
  cases hbinded : ((new cpuId cpuName threadName).bindAll answers).binded with
  | true => exact iff_of_true (givesBack_of_binded hbinded) (.inr (hflag.1 hbinded))
  | false =>
    have hlast := hflag.not.1 (by rw [hbinded]; exact Bool.false_ne_true)
    rw [givesBack_of_not_binded hbinded, haffinity, or_iff_left hlast]
    by_cases hset : ∃ answer ∈ answers, answer.setCpu
    · rw [if_pos hset]
      obtain ⟨answer, hmem, hcpu⟩ := hset
      exact iff_of_false (by simp) fun hnone => hnone answer hmem hcpu
    · rw [if_neg hset]
      exact iff_of_true rfl fun answer hmem hcpu => hset ⟨answer, hmem, hcpu⟩

/-- The cpu is set, the name is not, and nothing is given back. -/
theorem bind_keeps_cpu :
    let s := (new 7 "omega" "main").bind ⟨true, false⟩
    s.2 = false ∧ (s.1.destroy true).affinity = some 7 ∧
      ¬ GivesBack ((new 7 "omega" "main").bindAll [⟨true, false⟩]) := by
  refine ⟨rfl, rfl, fun h => ?_⟩
  exact absurd (h true fun _ => rfl) (by decide)

end LogicalCpu

end Ihft.Engine
