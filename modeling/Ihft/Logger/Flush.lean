import Ihft.Logger.Rotation

/-!
# The listener that is flushed

`dispatch` copies the listener in its first locked section and notifies the copy; in the second
locked section it flushes the listener that is in place then.  These are the same one unless
`replace_listener` puts in another one between the two sections.
-/

namespace Ihft.Logger

open Observe GuardedBroadcast Channel

variable {δ ε : Type*}

/-- When a call of `dispatch` returns that has notified a listener, this listener was flushed after
the notification. -/
def Flushes (log : List (AdapterObs δ ε)) : Prop :=
  ∀ l d c event listener text m flush l',
    log = l ++ .notified d c event listener text :: (m ++ .returned d flush :: l') →
    (∀ flush', .returned d flush' ∉ m) → .flushed listener ∈ m

/-- No other listener is put in place while a call that has taken an event is between its locked
sections. -/
def Unreplaced (s : LoggerAdapter δ ε) (i : AdapterInput δ ε) : Prop :=
  ∀ listener, i = .replaceListener listener →
    ∀ d k, (s.pc d).turn = some k → listener = s.listener

theorem unreplaced_replaceListener_iff {s : LoggerAdapter δ ε} {listener : ℕ} :
    Unreplaced s (.replaceListener listener) ↔
      ∀ d, (s.pc d).turn.isSome = true → listener = s.listener := by
  simp [Unreplaced, Option.isSome_iff_exists]

instance [Fintype δ] (s : LoggerAdapter δ ε) :
    (i : AdapterInput δ ε) → Decidable (Unreplaced s i)
  | .replaceListener _ => decidable_of_iff _ unreplaced_replaceListener_iff.symm
  | .registerClient | .client _ _ | .dispatch _ | .resume _ => isTrue fun _ heq => by cases heq

/-! ## Notifications of calls on their way -/

/-- The call of `d` has notified the listener and has not returned. -/
def Notified (d : δ) (listener : ℕ) (log : List (AdapterObs δ ε)) : Prop :=
  ∃ l c event text m, log = l ++ .notified d c event listener text :: m ∧
    ∀ flush, .returned d flush ∉ m

section Logs

variable {log os : List (AdapterObs δ ε)} {d : δ} {listener : ℕ}

theorem Notified.of_append (h : Notified d listener (log ++ os))
    (hos : ∀ c event text, .notified d c event listener text ∉ os) : Notified d listener log := by
  obtain ⟨l, c, event, text, m, heq, hm⟩ := h
  obtain ⟨m', rfl, hlog⟩ := append_eq_append_cons_of_notMem heq (hos c event text)
  exact ⟨l, c, event, text, m', hlog, fun flush hmem => hm flush (List.mem_append_left os hmem)⟩

/-- A call that has returned is not on its way. -/
theorem not_notified_of_returned {flush : Bool} (hmem : .returned d flush ∈ os)
    (hos : ∀ c event text, .notified d c event listener text ∉ os) :
    ¬ Notified d listener (log ++ os) := by
  rintro ⟨l, c, event, text, m, heq, hm⟩
  obtain ⟨m', rfl, -⟩ := append_eq_append_cons_of_notMem heq (hos c event text)
  exact hm flush (List.mem_append_right m' hmem)

/-- Where a call returns, the listeners that it has notified are flushed in the same step. -/
theorem Flushes.append (h : Flushes log)
    (hos : ∀ d flush os₁ os₂, os = os₁ ++ .returned d flush :: os₂ →
      (∀ c event listener text, .notified d c event listener text ∉ os₁) ∧
        ∀ listener, Notified d listener log → .flushed listener ∈ os₁) :
    Flushes (log ++ os) := by
  intro l d c event listener text m flush l' heq hm
  rw [← List.cons_append, ← List.append_assoc] at heq
  rcases append_eq_append_cons heq with ⟨l₁, -, hlog⟩ | ⟨os₁, hl, hos'⟩
  · exact h l d c event listener text m flush l₁ (by simpa using hlog) hm
  · obtain ⟨hnone, hflushed⟩ := hos d flush os₁ l' hos'
    obtain ⟨m', rfl, hlog⟩ :=
      append_eq_append_cons_of_notMem hl.symm (hnone c event listener text)
    have hopen : Notified d listener log :=
      ⟨l, c, event, text, m', hlog, fun flush' hmem => hm flush' (List.mem_append_left os₁ hmem)⟩
    exact List.mem_append_right m' (hflushed listener hopen)

theorem Flushes.append_quiet (h : Flushes log) (hos : ∀ d flush, .returned d flush ∉ os) :
    Flushes (log ++ os) := by
  apply h.append
  rintro d flush os₁ os₂ rfl
  exact absurd (by simp) (hos d flush)

end Logs

/-! ## The invariant -/

/-- Between its locked sections a call knows the listener that is in place. -/
structure FlushOk (s : LoggerAdapter δ ε) (log : List (AdapterObs δ ε)) : Prop where
  captured : ∀ d i c k event listener, s.pc d = .notify i c k event listener →
    listener = s.listener
  notified : ∀ d listener, Notified d listener log →
    (∃ i, (s.pc d).turn = some i) ∧ listener = s.listener
  flushes : Flushes log

section Step

variable {s s' : LoggerAdapter δ ε} {log os : List (AdapterObs δ ε)} {d : δ}

theorem FlushOk.not_notified (h : FlushOk s log) (hturn : (s.pc d).turn = none) (listener : ℕ) :
    ¬ Notified d listener log := by
  intro hopen
  obtain ⟨⟨i, hi⟩, -⟩ := h.notified d listener hopen
  rw [hturn] at hi
  cases hi

/-- A step that leaves the calls alone, and the listener unless no call knows it. -/
theorem FlushOk.frame (h : FlushOk s log) (hpc : s'.pc = s.pc)
    (hlistener : ∀ d k, (s.pc d).turn = some k → s'.listener = s.listener)
    (hnotified : ∀ d c event listener text, .notified d c event listener text ∉ os)
    (hreturned : ∀ d flush, .returned d flush ∉ os) : FlushOk s' (log ++ os) where
  captured d i c k event listener hd := by
    rw [hpc] at hd
    rw [hlistener d i (by rw [hd]; rfl)]
    exact h.captured d i c k event listener hd
  notified d listener hopen := by
    obtain ⟨⟨i, hi⟩, heq⟩ := h.notified d listener
      (hopen.of_append fun c event text => hnotified d c event listener text)
    rw [hpc, hlistener d i hi]
    exact ⟨⟨i, hi⟩, heq⟩
  flushes := h.flushes.append_quiet hreturned

variable [DecidableEq δ] {pc : DispatchPc ε}

/-- The call of `d` goes on; the calls on its way are the other ones, and its own if it knows the
listener that is in place. -/
theorem FlushOk.move (h : FlushOk s log) (hpc : s'.pc = Function.update s.pc d pc)
    (hlistener : s'.listener = s.listener)
    (hcaptured : ∀ i c k event listener, pc = .notify i c k event listener →
      listener = s.listener)
    (hnotified : ∀ d' listener, Notified d' listener (log ++ os) →
      (d' = d ∧ (∃ i, pc.turn = some i) ∧ listener = s.listener) ∨
        (d' ≠ d ∧ Notified d' listener log))
    (hflushes : Flushes (log ++ os)) : FlushOk s' (log ++ os) where
  captured d' i c k event listener hd := by
    rw [hpc] at hd
    rw [hlistener]
    by_cases heq : d' = d
    · rw [heq, Function.update_self] at hd
      exact hcaptured i c k event listener hd
    · rw [Function.update_of_ne heq] at hd
      exact h.captured d' i c k event listener hd
  notified d' listener hopen := by
    rw [hpc, hlistener]
    rcases hnotified d' listener hopen with ⟨rfl, hturn, hin⟩ | ⟨hne, hold⟩
    · rw [Function.update_self]
      exact ⟨hturn, hin⟩
    · rw [Function.update_of_ne hne]
      exact h.notified d' listener hold
  flushes := hflushes

/-- A call that has not taken an event goes on, or returns. -/
theorem FlushOk.scanning (h : FlushOk s log) (hturn : (s.pc d).turn = none)
    (hpc : s'.pc = Function.update s.pc d pc) (hlistener : s'.listener = s.listener)
    (hcaptured : ∀ i c k event listener, pc = .notify i c k event listener →
      listener = s.listener)
    (hnotified : ∀ d c event listener text, .notified d c event listener text ∉ os)
    (hreturned : ∀ d' flush, .returned d' flush ∈ os → d' = d) : FlushOk s' (log ++ os) := by
  apply h.move hpc hlistener hcaptured
  · intro d' listener hopen
    have hold := hopen.of_append fun c event text => hnotified d' c event listener text
    refine .inr ⟨?_, hold⟩
    rintro rfl
    exact h.not_notified hturn listener hold
  · apply h.flushes.append
    rintro d' flush os₁ os₂ rfl
    obtain rfl := hreturned d' flush (by simp)
    exact ⟨fun c event listener text hmem => hnotified _ _ _ _ _ (List.mem_append_left _ hmem),
      fun listener hopen => absurd hopen (h.not_notified hturn listener)⟩

/-- A call that has taken an event goes on. -/
theorem FlushOk.between (h : FlushOk s log) {k : ℕ} (hturn : pc.turn = some k)
    (hpc : s'.pc = Function.update s.pc d pc) (hlistener : s'.listener = s.listener)
    (hcaptured : ∀ i c k event listener, pc ≠ .notify i c k event listener)
    (hnotified : ∀ d' c event listener text, .notified d' c event listener text ∈ os →
      d' = d ∧ listener = s.listener)
    (hreturned : ∀ d flush, .returned d flush ∉ os) : FlushOk s' (log ++ os) := by
  apply h.move hpc hlistener
  · exact fun i c k event listener heq => absurd heq (hcaptured i c k event listener)
  · intro d' listener hopen
    have hnew : (d' = d ∧ listener = s.listener) ∨ Notified d' listener log := by
      obtain ⟨l, c, event, text, m, heq, hm⟩ := hopen
      rcases append_eq_append_cons heq with ⟨m', rfl, hlog⟩ | ⟨os₁, -, rfl⟩
      · exact .inr ⟨l, c, event, text, m', hlog,
          fun flush hmem => hm flush (List.mem_append_left os hmem)⟩
      · exact .inl (hnotified d' c event listener text (by simp))
    by_cases heq : d' = d
    · refine .inl ⟨heq, ⟨k, hturn⟩, ?_⟩
      exact hnew.elim And.right fun hold => (h.notified d' listener hold).2
    · exact .inr ⟨heq, hnew.resolve_left fun hself => heq hself.1⟩
  · exact h.flushes.append_quiet hreturned

/-- The second locked section flushes the listener that was notified. -/
theorem FlushOk.finished (h : FlushOk s log) (hpc : s'.pc = Function.update s.pc d .idle)
    (hlistener : s'.listener = s.listener) :
    FlushOk s' (log ++ [.flushed s.listener, .returned d true]) := by
  apply h.move hpc hlistener
  · exact fun i c k event listener heq => by cases heq
  · intro d' listener hopen
    refine .inr ⟨?_, hopen.of_append (by simp)⟩
    rintro rfl
    exact not_notified_of_returned (List.mem_cons_of_mem _ (List.mem_singleton_self _)) (by simp)
      hopen
  · apply h.flushes.append
    intro d' flush os₁ os₂ heq
    obtain ⟨rfl, rfl⟩ : os₁ = [.flushed s.listener] ∧ d' = d := by
      rcases os₁ with _ | ⟨o₁, _ | ⟨o₂, os₁⟩⟩ <;> simp_all
    refine ⟨by simp, fun listener hopen => ?_⟩
    rw [(h.notified d' listener hopen).2]
    exact List.mem_singleton_self _

variable {print : ε → OStringStream → OStringStream}

/-- Every step that meets the condition keeps the invariant. -/
theorem FlushOk.step (h : FlushOk s log) {i : AdapterInput δ ε} (hok : Unreplaced s i)
    (hstep : (adapterMachine print).step s i = some (s', os)) : FlushOk s' (log ++ os) := by
  cases adapterStep_of_step hstep with
  | registered x mutex hx => exact h.frame rfl (fun _ _ _ => rfl) (by simp) (by simp)
  | client c j hj x x' os' hx hstep =>
    exact h.frame rfl (fun _ _ _ => rfl) (by simp) (by simp)
  | replaced listener mutex => exact h.frame rfl (hok listener rfl) (by simp) (by simp)
  | called d mutex hpc =>
    exact h.scanning (by rw [hpc]; rfl) rfl rfl (by simp) (by simp) (by simp)
  | empty d k hpc hk x x' hx hstep =>
    exact h.scanning (by rw [hpc]; rfl) rfl rfl (by simp) (by simp) (by simp)
  | taken d k n hpc hk x x' event hx hstep =>
    refine h.scanning (by rw [hpc]; rfl) rfl rfl ?_ (by simp) (by simp)
    rintro _ _ _ _ listener ⟨⟩
    rfl
  | missed d k hpc hk =>
    refine h.scanning (by rw [hpc]; rfl) rfl rfl (by simp) (by simp) ?_
    simp
  | notified d k c n event listener hpc =>
    refine h.between rfl rfl rfl (by simp) ?_ (by simp)
    intro d' c' event' listener' text hmem
    obtain ⟨rfl, -, -, rfl, -⟩ := by simpa using hmem
    exact ⟨rfl, h.captured d' k c n event listener' hpc⟩
  | released d k c n j pc input hpc x x' os' hx hstep =>
    rcases hpc with ⟨-, -, rfl⟩ | ⟨-, -, rfl⟩ <;>
      exact h.between rfl rfl rfl (by simp) (by simp) (by simp)
  | finished d k hpc mutex => exact h.finished rfl rfl

end Step

/-! ## Whole runs -/

section Runs

variable [DecidableEq δ] {print : ε → OStringStream → OStringStream} {sstream : OStringStream}
  {listener : ℕ} {s : LoggerAdapter δ ε} {log : List (AdapterObs δ ε)}

omit [DecidableEq δ] in
theorem flushOk_start : FlushOk (LoggerAdapter.start (δ := δ) (ε := ε) sstream listener) [] := by
  refine ⟨fun d i c k event listener hd => (nomatch hd), ?_, ?_⟩
  · rintro d listener ⟨l, c, event, text, m, heq, -⟩
    simp at heq
  · intro l d c event listener text m flush l' heq
    simp at heq

/-- Every listener that was notified is flushed, as long as it stays in place between the locked
sections of the calls that have taken an event. -/
theorem dispatch_flushes
    (h : (adapterMachine print).ReachesWhile Unreplaced (.start sstream listener) s log) :
    Flushes log :=
  (h.invariant flushOk_start fun _ _ _ _ _ _ hi hok hs => hi.step hok hs).flushes

end Runs

/-! ## Two runs -/

/-- The listener is replaced after a call has returned. -/
theorem dispatch_flushes_replaced : ∃ (s : LoggerAdapter Unit String) (log : List _),
    (adapterMachine printText).Reaches (.start plainStream 0) s log ∧ Flushes log ∧
      .flushed 0 ∈ log ∧ .flushed 1 ∈ log := by
  have hrun : (adapterMachine printText).ReachesWhile Unreplaced _ _ _ := .of_run (show
    (adapterMachine printText).run (LoggerAdapter.start (δ := Unit) plainStream 0)
      (logCall 0 "first" ++ dispatchCall ++ [.replaceListener 1] ++ logCall 0 "second" ++
        dispatchCall) = some (_, _) from rfl) (by decide)
  exact ⟨_, _, hrun.reaches, dispatch_flushes hrun, by decide, by decide⟩

/-- The listener is replaced after it was notified, and before the call has locked the mutex
again. -/
def replacing : List (AdapterInput Unit String) :=
  logCall 0 "event" ++ [.dispatch (), .resume (), .resume (), .replaceListener 1] ++
    List.replicate 3 (.resume ())

def replacingLog : List (AdapterObs Unit String) :=
  ((adapterMachine printText).run (.start plainStream 0) replacing).elim [] Prod.snd

theorem dispatch_loses_flush : ∃ (s : LoggerAdapter Unit String) (log : List _),
    (adapterMachine printText).ReachesWhile NonOverlapping (.start plainStream 0) s log ∧
      ¬ Flushes log := by
  have hrun := Machine.Reaches.of_run (show
    (adapterMachine printText).run (LoggerAdapter.start (δ := Unit) plainStream 0) replacing =
      some (_, replacingLog) from rfl)
  refine ⟨_, _, hrun.reachesWhile fun s i s' os hstep => nonOverlapping_of_subsingleton hstep, ?_⟩
  have hlog : replacingLog = replacingLog.take 6 ++
      .notified () 0 (some ⟨0, ⟨0, "event"⟩⟩) 0 "event" :: ((replacingLog.drop 7).take 4 ++
        .returned () true :: []) := by decide
  intro h
  exact absurd (h _ _ _ _ _ _ _ _ _ hlog (by decide)) (by decide)

end Ihft.Logger
