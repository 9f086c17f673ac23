import Mathlib.Data.List.Basic
import Mathlib.Tactic

/-!
# Observed machines and specifications

A `Machine` takes one step at a time and emits observations; a step may be disabled.  A `Spec` is
a deterministic acceptor of observations: `allowed` says which observation may come next and `next`
is the state after it, so the specification state is a function of the log.  `Simulates` is the
forward simulation between the two, and `Simulates.reaches` carries it over whole runs: every log
of the machine is legal, and the reached states stay related.
-/

namespace Observe

/-- A machine: the state and the observations after an input, `none` when it is not enabled. -/
structure Machine (σ ι ο : Type*) where
  step : σ → ι → Option (σ × List ο)

namespace Machine

variable {σ ι ο : Type*} (M : Machine σ ι ο)

/-- Execute a list of inputs, collecting the observations. -/
def run : σ → List ι → Option (σ × List ο)
  | s, [] => some (s, [])
  | s, i :: is =>
    match M.step s i with
    | none => none
    | some (s', os) =>
      match run s' is with
      | none => none
      | some (s'', os') => some (s'', os ++ os')

/-- `M.Reaches s₀ s log`: some run from `s₀` ends in `s` having emitted `log`. -/
inductive Reaches (s₀ : σ) : σ → List ο → Prop
  | start : Reaches s₀ s₀ []
  | step {s s' : σ} {log os : List ο} (i : ι) (before : Reaches s₀ s log)
      (h : M.step s i = some (s', os)) : Reaches s₀ s' (log ++ os)

variable {M} {s₀ s s' s'' : σ} {log log' os : List ο}

theorem Reaches.trans (h : M.Reaches s₀ s log) (h' : M.Reaches s s' log') :
    M.Reaches s₀ s' (log ++ log') := by
  induction h' with
  | start => simpa using h
  | step i _ hi ih =>
    rw [← List.append_assoc]
    exact .step i ih hi

theorem Reaches.one {i : ι} (h : M.step s i = some (s', os)) : M.Reaches s s' os := by
  simpa using Reaches.step i .start h

theorem run_cons_eq_some {i : ι} {is : List ι} (h : M.run s (i :: is) = some (s', log)) :
    ∃ s₁ os₁ os₂, M.step s i = some (s₁, os₁) ∧ M.run s₁ is = some (s', os₂) ∧
      log = os₁ ++ os₂ := by
  simp only [run] at h
  split at h
  · cases h
  · rename_i s₁ os₁ hstep
    split at h
    · cases h
    · rename_i s₂ os₂ hrest
      cases h
      exact ⟨s₁, os₁, os₂, hstep, hrest, rfl⟩

theorem run_cons {i : ι} {is : List ι} (h : M.step s₀ i = some (s, log))
    (h' : M.run s is = some (s', log')) : M.run s₀ (i :: is) = some (s', log ++ log') := by
  simp only [run, h, h']

theorem run_append {is is' : List ι} (h : M.run s₀ is = some (s, log))
    (h' : M.run s is' = some (s', log')) : M.run s₀ (is ++ is') = some (s', log ++ log') := by
  induction is generalizing s₀ log with
  | nil =>
    simp only [run, Option.some.injEq, Prod.mk.injEq] at h
    obtain ⟨rfl, rfl⟩ := h
    simpa using h'
  | cons i is ih =>
    obtain ⟨s₁, os₁, os₂, hstep, hrest, rfl⟩ := run_cons_eq_some h
    rw [List.cons_append, List.append_assoc]
    exact run_cons hstep (ih hrest)

theorem run_one {i : ι} (h : M.step s₀ i = some (s, log)) : M.run s₀ [i] = some (s, log) := by
  simp [run, h]

theorem Reaches.of_run {is : List ι} (h : M.run s₀ is = some (s, log)) : M.Reaches s₀ s log := by
  induction is generalizing s₀ log with
  | nil =>
    simp only [run, Option.some.injEq, Prod.mk.injEq] at h
    obtain ⟨rfl, rfl⟩ := h
    exact .start
  | cons i is ih =>
    obtain ⟨s₁, os₁, os₂, hstep, hrest, rfl⟩ := run_cons_eq_some h
    exact (Reaches.one hstep).trans (ih hrest)

/-- What holds at the start and is kept by every step holds along every run. -/
theorem Reaches.invariant {I : σ → List ο → Prop} (h : M.Reaches s₀ s log) (h₀ : I s₀ [])
    (hstep : ∀ s log i s' os, I s log → M.step s i = some (s', os) → I s' (log ++ os)) :
    I s log := by
  induction h with
  | start => exact h₀
  | step i _ hi ih => exact hstep _ _ i _ _ ih hi

/-- What was seen in a run was seen in one of its steps. -/
theorem Reaches.exists_step (h : M.Reaches s₀ s log) {o : ο} (ho : o ∈ log) :
    ∃ l s₁ i s₂ os l', M.Reaches s₀ s₁ l ∧ M.step s₁ i = some (s₂, os) ∧ M.Reaches s₂ s l' ∧
      log = l ++ os ++ l' ∧ o ∈ os := by
  induction h with
  | start => exact absurd ho List.not_mem_nil
  | @step s s' log os i before hi ih =>
    rcases List.mem_append.1 ho with ho | ho
    · obtain ⟨l, s₁, j, s₂, os', l', hl, hj, hl', rfl, hos⟩ := ih ho
      exact ⟨l, s₁, j, s₂, os', l' ++ os, hl, hj, hl'.step i hi, by simp, hos⟩
    · exact ⟨log, s, i, s', os, [], before, hi, .start, by simp, ho⟩

/-- A machine whose steps are steps of another one, or leave it alone, has its runs. -/
theorem Reaches.project {τ κ π : Type*} {N : Machine τ κ π} (f : σ → τ) (g : List ο → List π)
    (hnil : g [] = []) (happend : ∀ l l', g (l ++ l') = g l ++ g l')
    (hstep : ∀ s i s' os, M.step s i = some (s', os) → (f s' = f s ∧ g os = []) ∨
      ∃ j, N.step (f s) j = some (f s', g os)) (h : M.Reaches s₀ s log) :
    N.Reaches (f s₀) (f s) (g log) := by
  induction h with
  | start =>
    rw [hnil]
    exact .start
  | step i _ hi ih =>
    rw [happend]
    rcases hstep _ i _ _ hi with ⟨heq, hos⟩ | ⟨j, hj⟩
    · rw [heq, hos, List.append_nil]
      exact ih
    · exact ih.step j hj

/-! ## Runs whose steps meet a condition -/

variable (M) in
/-- `M.ReachesWhile ok s₀ s log`: some run from `s₀` whose steps all meet `ok` ends in `s` having
emitted `log`. -/
inductive ReachesWhile (ok : σ → ι → Prop) (s₀ : σ) : σ → List ο → Prop
  | start : ReachesWhile ok s₀ s₀ []
  | step {s s' : σ} {log os : List ο} (i : ι) (before : ReachesWhile ok s₀ s log) (hok : ok s i)
      (h : M.step s i = some (s', os)) : ReachesWhile ok s₀ s' (log ++ os)

variable (M) in
/-- All steps of the run from `s` meet the condition. -/
def meets (ok : σ → ι → Prop) [∀ s i, Decidable (ok s i)] : σ → List ι → Bool
  | _, [] => true
  | s, i :: is =>
    match M.step s i with
    | none => true
    | some (s', _) => decide (ok s i) && meets ok s' is

variable {ok : σ → ι → Prop}

theorem ReachesWhile.trans (h : M.ReachesWhile ok s₀ s log) (h' : M.ReachesWhile ok s s' log') :
    M.ReachesWhile ok s₀ s' (log ++ log') := by
  induction h' with
  | start => simpa using h
  | step i _ hok hi ih =>
    rw [← List.append_assoc]
    exact .step i ih hok hi

theorem ReachesWhile.of_run [∀ s i, Decidable (ok s i)] {is : List ι}
    (h : M.run s₀ is = some (s, log)) (hok : M.meets ok s₀ is = true) :
    M.ReachesWhile ok s₀ s log := by
  induction is generalizing s₀ log with
  | nil =>
    simp only [run, Option.some.injEq, Prod.mk.injEq] at h
    obtain ⟨rfl, rfl⟩ := h
    exact .start
  | cons i is ih =>
    obtain ⟨s₁, os₁, os₂, hstep, hrest, rfl⟩ := run_cons_eq_some h
    simp only [meets, hstep, Bool.and_eq_true, decide_eq_true_eq] at hok
    have hfirst : M.ReachesWhile ok s₀ s₁ os₁ := by
      simpa using ReachesWhile.step i .start hok.1 hstep
    exact hfirst.trans (ih hrest hok.2)

theorem ReachesWhile.reaches (h : M.ReachesWhile ok s₀ s log) : M.Reaches s₀ s log := by
  induction h with
  | start => exact .start
  | step i _ _ hi ih => exact .step i ih hi

/-- Another condition that the steps of the run meet as well. -/
theorem ReachesWhile.mono {ok' : σ → ι → Prop} (h : M.ReachesWhile ok s₀ s log)
    (hok : ∀ s i s' os, M.step s i = some (s', os) → ok s i → ok' s i) :
    M.ReachesWhile ok' s₀ s log := by
  induction h with
  | start => exact .start
  | step i _ hi hstep ih => exact .step i ih (hok _ _ _ _ hstep hi) hstep

/-- A condition that every enabled step meets is no restriction. -/
theorem Reaches.reachesWhile (h : M.Reaches s₀ s log)
    (hok : ∀ s i s' os, M.step s i = some (s', os) → ok s i) : M.ReachesWhile ok s₀ s log := by
  induction h with
  | start => exact .start
  | step i _ hi ih => exact .step i ih (hok _ _ _ _ hi) hi

theorem ReachesWhile.project {τ κ π : Type*} {N : Machine τ κ π} {ok' : τ → κ → Prop} (f : σ → τ)
    (g : List ο → List π) (hnil : g [] = []) (happend : ∀ l l', g (l ++ l') = g l ++ g l')
    (hstep : ∀ s i s' os, ok s i → M.step s i = some (s', os) → (f s' = f s ∧ g os = []) ∨
      ∃ j, ok' (f s) j ∧ N.step (f s) j = some (f s', g os)) (h : M.ReachesWhile ok s₀ s log) :
    N.ReachesWhile ok' (f s₀) (f s) (g log) := by
  induction h with
  | start =>
    rw [hnil]
    exact .start
  | step i _ hok hi ih =>
    rw [happend]
    rcases hstep _ i _ _ hok hi with ⟨heq, hos⟩ | ⟨j, hj, hs⟩
    · rw [heq, hos, List.append_nil]
      exact ih
    · exact ih.step j hj hs

/-- What holds at the start and is kept by every step that meets the condition holds along every
such run; other invariants of these runs may be used for the step. -/
theorem ReachesWhile.invariant_while {I : σ → List ο → Prop} (h : M.ReachesWhile ok s₀ s log)
    (h₀ : I s₀ []) (hstep : ∀ s log i s' os, M.ReachesWhile ok s₀ s log → I s log → ok s i →
      M.step s i = some (s', os) → I s' (log ++ os)) : I s log := by
  induction h with
  | start => exact h₀
  | step i before hok hi ih => exact hstep _ _ i _ _ before ih hok hi

theorem ReachesWhile.invariant {I : σ → List ο → Prop} (h : M.ReachesWhile ok s₀ s log)
    (h₀ : I s₀ []) (hstep : ∀ s log i s' os, M.Reaches s₀ s log → I s log → ok s i →
      M.step s i = some (s', os) → I s' (log ++ os)) : I s log :=
  h.invariant_while h₀ fun _ _ i _ _ before => hstep _ _ i _ _ before.reaches

end Machine

/-- A deterministic acceptor of observations. -/
structure Spec (α ο : Type*) where
  allowed : α → ο → Prop
  next : α → ο → α

namespace Spec

variable {α β ο : Type*} (S : Spec α ο)

/-- The specification state after a log. -/
def after (a : α) (log : List ο) : α := log.foldl S.next a

/-- Every observation of the log is allowed where it occurs. -/
def Legal : α → List ο → Prop
  | _, [] => True
  | a, o :: os => S.allowed a o ∧ Legal (S.next a o) os

@[simp] theorem after_nil (a : α) : S.after a [] = a := rfl

@[simp] theorem after_cons (a : α) (o : ο) (os : List ο) :
    S.after a (o :: os) = S.after (S.next a o) os := rfl

@[simp] theorem after_append (a : α) (l l' : List ο) :
    S.after a (l ++ l') = S.after (S.after a l) l' := List.foldl_append ..

@[simp] theorem legal_nil (a : α) : S.Legal a [] := trivial

@[simp] theorem legal_cons (a : α) (o : ο) (os : List ο) :
    S.Legal a (o :: os) ↔ S.allowed a o ∧ S.Legal (S.next a o) os := Iff.rfl

theorem legal_append (a : α) (l l' : List ο) :
    S.Legal a (l ++ l') ↔ S.Legal a l ∧ S.Legal (S.after a l) l' := by
  induction l generalizing a with
  | nil => simp
  | cons o os ih => simp [ih, and_assoc]

variable {S}

/-- A legal log ends in an allowed observation. -/
theorem Legal.allowed_of_append {a : α} {l l' : List ο} {o : ο} (h : S.Legal a (l ++ o :: l')) :
    S.allowed (S.after a l) o :=
  (((S.legal_append a l (o :: l')).1 h).2).1

theorem Legal.left {a : α} {l l' : List ο} (h : S.Legal a (l ++ l')) : S.Legal a l :=
  ((S.legal_append a l l').1 h).1

/-- A property kept by every allowed observation holds after every legal log. -/
theorem Legal.invariant {I : α → Prop} (hI : ∀ a o, I a → S.allowed a o → I (S.next a o))
    {a : α} {log : List ο} (h : S.Legal a log) (ha : I a) : I (S.after a log) := by
  induction log generalizing a with
  | nil => exact ha
  | cons o os ih => exact ih h.2 (hI a o ha h.1)

/-- The same with the log at hand, growing to the right. -/
theorem Legal.log_invariant {I : α → List ο → Prop}
    (hI : ∀ a l o, I a l → S.allowed a o → I (S.next a o) (l ++ [o]))
    {a : α} {log : List ο} (h : S.Legal a log) (ha : I a []) : I (S.after a log) log := by
  induction log using List.reverseRecOn with
  | nil => exact ha
  | append_singleton os o ih =>
    obtain ⟨h₁, h₂⟩ := (S.legal_append a os [o]).1 h
    simpa using hI _ _ _ (ih h₁) h₂.1

/-- A specification refines another along `f` when its observations are allowed there as well. -/
theorem Legal.map {S' : Spec β ο} {f : α → β} {I : α → Prop}
    (hI : ∀ a o, I a → S.allowed a o → I (S.next a o))
    (hf : ∀ a o, I a → S.allowed a o → S'.allowed (f a) o ∧ S'.next (f a) o = f (S.next a o))
    {a : α} {log : List ο} (h : S.Legal a log) (ha : I a) : S'.Legal (f a) log := by
  induction log generalizing a with
  | nil => trivial
  | cons o os ih =>
    obtain ⟨h₁, h₂⟩ := hf a o ha h.1
    exact ⟨h₁, h₂ ▸ ih h.2 (hI a o ha h.1)⟩

end Spec

/-- Every step of the machine is matched by the specification, keeping `R`. -/
structure Simulates {σ ι ο α : Type*} (M : Machine σ ι ο) (S : Spec α ο) (R : σ → α → Prop) :
    Prop where
  step : ∀ {s a i s' os}, R s a → M.step s i = some (s', os) →
    S.Legal a os ∧ R s' (S.after a os)

/-- A simulation carries over whole runs. -/
theorem Simulates.reaches {σ ι ο α : Type*} {M : Machine σ ι ο} {S : Spec α ο}
    {R : σ → α → Prop} (h : Simulates M S R) {s₀ s : σ} {a₀ : α} {log : List ο} (h₀ : R s₀ a₀)
    (hr : M.Reaches s₀ s log) : S.Legal a₀ log ∧ R s (S.after a₀ log) := by
  induction hr with
  | start => exact ⟨trivial, h₀⟩
  | step i _ hi ih =>
    obtain ⟨legal, rel⟩ := h.step ih.2 hi
    exact ⟨(S.legal_append ..).2 ⟨ih.1, legal⟩, by simpa using rel⟩

/-! ## Machines that follow another one -/

section Follow

variable {σ ι ο τ κ π γ α : Type*} {M : Machine σ ι ο} {N : Machine τ κ π} {s₀ s : σ} {t₀ : τ}
  {log : List ο}

namespace Machine

/-- A machine whose steps keep related to the states of another one, by a step of that one with the
same visible observations or by none, follows its runs.  The relation may depend on the
specification state after the log of the other machine. -/
theorem Reaches.followSpec {S : Spec α π} {R : σ → τ → α → Prop} (a₀ : α)
    (g : List ο → List γ) (f : List π → List γ) (hnil : g [] = f [])
    (hg : ∀ l l', g (l ++ l') = g l ++ g l') (hf : ∀ l l', f (l ++ l') = f l ++ f l')
    (hstep : ∀ s t a i s' os, R s t a → M.step s i = some (s', os) → (g os = [] ∧ R s' t a) ∨
      ∃ j t' os', N.step t j = some (t', os') ∧ f os' = g os ∧ R s' t' (S.after a os'))
    (h : M.Reaches s₀ s log) (h₀ : R s₀ t₀ a₀) :
    ∃ t log', N.Reaches t₀ t log' ∧ f log' = g log ∧ R s t (S.after a₀ log') := by
  induction h with
  | start => exact ⟨t₀, [], .start, hnil.symm, h₀⟩
  | step i _ hi ih =>
    obtain ⟨t, log', ht, heq, hrel⟩ := ih
    rw [hg, ← heq]
    rcases hstep _ t _ i _ _ hrel hi with ⟨hos, hrel'⟩ | ⟨j, t', os', hj, hos, hrel'⟩
    · exact ⟨t, log', ht, by rw [hos, List.append_nil], hrel'⟩
    · exact ⟨t', log' ++ os', ht.step j hj, by rw [hf, hos], by rwa [S.after_append]⟩

/-- The same for a relation between the states alone. -/
theorem Reaches.followAs {R : σ → τ → Prop} (g : List ο → List γ) (f : List π → List γ)
    (hnil : g [] = f []) (hg : ∀ l l', g (l ++ l') = g l ++ g l')
    (hf : ∀ l l', f (l ++ l') = f l ++ f l')
    (hstep : ∀ s t i s' os, R s t → M.step s i = some (s', os) → (g os = [] ∧ R s' t) ∨
      ∃ j t' os', N.step t j = some (t', os') ∧ f os' = g os ∧ R s' t')
    (h : M.Reaches s₀ s log) (h₀ : R s₀ t₀) :
    ∃ t log', N.Reaches t₀ t log' ∧ f log' = g log ∧ R s t :=
  h.followSpec (S := ⟨fun _ _ => True, fun _ _ => ()⟩) (R := fun s t (_ : Unit) => R s t) ()
    g f hnil hg hf (fun s t _ i s' os => hstep s t i s' os) h₀

/-- The same where everything the other machine emits is visible. -/
theorem Reaches.follow {R : σ → τ → Prop}
    (g : List ο → List π) (hnil : g [] = []) (happend : ∀ l l', g (l ++ l') = g l ++ g l')
    (hstep : ∀ s t i s' os, R s t → M.step s i = some (s', os) → (g os = [] ∧ R s' t) ∨
      ∃ j t', N.step t j = some (t', g os) ∧ R s' t')
    (h : M.Reaches s₀ s log) (h₀ : R s₀ t₀) : ∃ t, N.Reaches t₀ t (g log) ∧ R s t := by
  obtain ⟨t, log', ht, rfl, hrel⟩ := h.followAs g id hnil happend (fun _ _ => rfl)
    (fun s t i s' os hrel hi => (hstep s t i s' os hrel hi).imp_right fun ⟨j, t', hj, hrel'⟩ =>
      ⟨j, t', g os, hj, rfl, hrel'⟩) h₀
  exact ⟨t, ht, hrel⟩

end Machine

end Follow

/-! ## Calls that run to completion -/

/-- One call after the other, with their results. -/
def runCalls {σ ι β : Type*} (call : σ → ι → σ × β) : σ → List ι → σ × List β
  | s, [] => (s, [])
  | s, i :: is =>
    let done := call s i
    let rest := runCalls call done.1 is
    (rest.1, done.2 :: rest.2)

/-- Calls that agree from related states give the same results, over any sequence of calls. -/
theorem runCalls_refines {σ τ ι β : Type*} {call : σ → ι → σ × β} {call' : τ → ι → τ × β}
    {R : σ → τ → Prop}
    (hstep : ∀ s t i, R s t → R (call s i).1 (call' t i).1 ∧ (call s i).2 = (call' t i).2) :
    ∀ (is : List ι) (s : σ) (t : τ), R s t →
      R (runCalls call s is).1 (runCalls call' t is).1 ∧
        (runCalls call s is).2 = (runCalls call' t is).2
  | [], _, _, h => ⟨h, rfl⟩
  | i :: is, s, t, h => by
    obtain ⟨hrel, hres⟩ := hstep s t i h
    obtain ⟨ih, ihres⟩ := runCalls_refines hstep is _ _ hrel
    exact ⟨ih, by simp only [runCalls, hres, ihres]⟩

end Observe
