import Ihft.Lib.Machine

/-!
# Fair schedules, progress and bisimulation

The inputs of a machine may be its threads.  A schedule then gives every move to one thread, which
takes its step or, where it has none, is left out.  `Progress` bounds the steps that are left: every
step uses some of them up or spins, and while some are left there is a thread whose next step uses
some up, however long the others spin.  A fair schedule then uses up all of them
(`Progress.eventually`).  `Bisimulates` carries runs and schedules from one machine to another.
-/

namespace Observe

variable {σ τ ι ο κ : Type*}

namespace Machine

variable (M : Machine σ ι ο)

/-- The state after a move of `i`, which is left out where it is not enabled. -/
def attempt (s : σ) (i : ι) : σ :=
  match M.step s i with
  | none => s
  | some (s', _) => s'

/-- The states that a schedule leads through. -/
def execution (s₀ : σ) (schedule : ℕ → ι) : ℕ → σ
  | 0 => s₀
  | n + 1 => M.attempt (execution s₀ schedule n) (schedule n)

variable {M} {s s' : σ} {i : ι} {os : List ο}

theorem attempt_eq (h : M.step s i = some (s', os)) : M.attempt s i = s' := by
  rw [attempt, h]

theorem attempt_none (h : M.step s i = none) : M.attempt s i = s := by
  rw [attempt, h]

theorem execution_reaches (s₀ : σ) (schedule : ℕ → ι) (n : ℕ) :
    ∃ log, M.Reaches s₀ (M.execution s₀ schedule n) log := by
  induction n with
  | zero => exact ⟨[], .start⟩
  | succ n ih =>
    obtain ⟨log, ih⟩ := ih
    rw [execution]
    cases hstep : M.step (M.execution s₀ schedule n) (schedule n) with
    | none => exact ⟨log, by rwa [attempt_none hstep]⟩
    | some done => exact ⟨log ++ done.2, by rw [attempt_eq hstep]; exact ih.step _ hstep⟩

end Machine

/-- Every thread has its turn again and again. -/
def Fair (schedule : ℕ → ι) : Prop :=
  ∀ i n, ∃ m, n ≤ m ∧ schedule m = i

/-! ## Progress -/

/-- `Left s n`: from `s` there are `n` steps left.  What a spinning thread changes does not belong
to the `core` of a state. -/
structure Progress (M : Machine σ ι ο) (Left : σ → ℕ → Prop) (core : σ → κ) : Prop where
  step : ∀ {s n i s' os}, Left s n → M.step s i = some (s', os) →
    (∃ m < n, Left s' m) ∨ (Left s' n ∧ core s' = core s)
  helps : ∀ {s n}, Left s n → 0 < n → ∃ i, ∀ s₁, Left s₁ n → core s₁ = core s →
    ∃ s' os m, M.step s₁ i = some (s', os) ∧ m < n ∧ Left s' m

namespace Progress

variable {M : Machine σ ι ο} {Left : σ → ℕ → Prop} {core : σ → κ} {s s₀ : σ} {n k l : ℕ}
  {schedule : ℕ → ι}

theorem attempt (h : Progress M Left core) (hs : Left s n) (i : ι) :
    (∃ m < n, Left (M.attempt s i) m) ∨
      (Left (M.attempt s i) n ∧ core (M.attempt s i) = core s) := by
  cases hstep : M.step s i with
  | none =>
    rw [Machine.attempt_none hstep]
    exact .inr ⟨hs, rfl⟩
  | some done =>
    rw [Machine.attempt_eq hstep]
    exact h.step hs hstep

/-- Until some of the steps are used up, the core stays as it is. -/
theorem spins (h : Progress M Left core) (hs : Left (M.execution s₀ schedule k) n) (hkl : k ≤ l) :
    (∃ k', ∃ m < n, Left (M.execution s₀ schedule k') m) ∨
      (Left (M.execution s₀ schedule l) n ∧
        core (M.execution s₀ schedule l) = core (M.execution s₀ schedule k)) := by
  induction l, hkl using Nat.le_induction with
  | base => exact .inr ⟨hs, rfl⟩
  | succ l _ ih =>
    obtain hless | ⟨hleft, hcore⟩ := ih
    · exact .inl hless
    · obtain ⟨m, hm, hleft'⟩ | ⟨hleft', hcore'⟩ := h.attempt hleft (schedule l)
      · exact .inl ⟨l + 1, m, hm, hleft'⟩
      · exact .inr ⟨hleft', hcore'.trans hcore⟩

/-- A fair schedule leaves no step out. -/
theorem eventually (h : Progress M Left core) (hfair : Fair schedule)
    (hs : Left s₀ n) : ∃ k, Left (M.execution s₀ schedule k) 0 := by
  suffices ∀ n k, Left (M.execution s₀ schedule k) n →
      ∃ k', Left (M.execution s₀ schedule k') 0 from this n 0 hs
  intro n
  induction n using Nat.strong_induction_on with
  | _ n ih =>
    intro k hk
    rcases Nat.eq_zero_or_pos n with rfl | hpos
    · exact ⟨k, hk⟩
    · obtain ⟨i, hi⟩ := h.helps hk hpos
      obtain ⟨l, hkl, rfl⟩ := hfair i k
      obtain ⟨k', m, hm, hless⟩ | ⟨hleft, hcore⟩ := h.spins hk hkl
      · exact ih m hm k' hless
      · obtain ⟨s', os, m, hstep, hm, hless⟩ := hi _ hleft hcore
        refine ih m hm (l + 1) ?_
        rwa [Machine.execution, Machine.attempt_eq hstep]

end Progress

/-! ## Bisimulation -/

/-- Two moves of which neither is enabled, or both with the same observations. -/
inductive Matched (R : σ → τ → Prop) : Option (σ × List ο) → Option (τ × List ο) → Prop
  | none : Matched R none none
  | some {s' : σ} {t' : τ} {os : List ο} (rel : R s' t') : Matched R (some (s', os)) (some (t', os))

theorem Matched.map {σ' τ' π : Type*} {R : σ → τ → Prop} {R' : σ' → τ' → Prop}
    {done : Option (σ × List ο)} {done' : Option (τ × List ο)} {f : σ × List ο → σ' × List π}
    {g : τ × List ο → τ' × List π} (h : Matched R done done')
    (hfg : ∀ s t os, R s t → R' (f (s, os)).1 (g (t, os)).1 ∧ (f (s, os)).2 = (g (t, os)).2) :
    Matched R' (done.map f) (done'.map g) := by
  cases h with
  | none => exact .none
  | @some s' t' os rel =>
    obtain ⟨hrel, hos⟩ := hfg s' t' os rel
    rw [Option.map_some, Option.map_some, ← Prod.mk.eta (p := f (s', os)), hos]
    exact .some hrel

/-- From related states the same inputs are enabled, and lead to related states with the same
observations. -/
structure Bisimulates (M : Machine σ ι ο) (N : Machine τ ι ο) (R : σ → τ → Prop) : Prop where
  step : ∀ {s t}, R s t → ∀ i, Matched R (M.step s i) (N.step t i)

namespace Bisimulates

variable {M : Machine σ ι ο} {N : Machine τ ι ο} {R : σ → τ → Prop} {s s₀ : σ} {t₀ : τ}
  {log : List ο}

theorem reaches (h : Bisimulates M N R) (h₀ : R s₀ t₀) (hr : M.Reaches s₀ s log) :
    ∃ t, N.Reaches t₀ t log ∧ R s t := by
  induction hr with
  | start => exact ⟨t₀, .start, h₀⟩
  | step i _ hi ih =>
    obtain ⟨t, ht, hrel⟩ := ih
    have hstep := h.step hrel i
    rw [hi] at hstep
    generalize ht' : N.step t i = done at hstep
    cases hstep with
    | some hrel' => exact ⟨_, ht.step i ht', hrel'⟩

theorem attempt {t : τ} (h : Bisimulates M N R) (hrel : R s t) (i : ι) :
    R (M.attempt s i) (N.attempt t i) := by
  have hstep := h.step hrel i
  generalize hs' : M.step s i = done at hstep
  generalize ht' : N.step t i = done' at hstep
  cases hstep with
  | none => rwa [Machine.attempt_none hs', Machine.attempt_none ht']
  | some hrel' => rwa [Machine.attempt_eq hs', Machine.attempt_eq ht']

theorem execution (h : Bisimulates M N R) (h₀ : R s₀ t₀) (schedule : ℕ → ι) (n : ℕ) :
    R (M.execution s₀ schedule n) (N.execution t₀ schedule n) := by
  induction n with
  | zero => exact h₀
  | succ n ih => exact h.attempt ih (schedule n)

end Bisimulates

end Observe
