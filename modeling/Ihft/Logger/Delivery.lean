import Ihft.Logger.Dispatch
import Ihft.Logger.SlabProtocol

/-!
# Delivery with one dispatcher at a time

As long as the calls of `dispatch` do not overlap, the events of every client are passed on in the
order in which its queue accepted them.  A call that returns `false` has found every consumer empty;
as no other call is on its way, everything accepted before the call has been passed on.
-/

namespace Ihft.Logger

open Observe GuardedBroadcast Channel

variable {δ ε : Type*}

/-- No call of `dispatch` begins while another one is on its way. -/
def NonOverlapping (s : LoggerAdapter δ ε) (i : AdapterInput δ ε) : Prop :=
  ∀ d, i = .dispatch d → ∀ d', s.pc d' = .idle

instance [Fintype δ] [DecidableEq ε] (s : LoggerAdapter δ ε) (i : AdapterInput δ ε) :
    Decidable (NonOverlapping s i) :=
  match i with
  | .dispatch _ => decidable_of_iff (∀ d', s.pc d' = .idle) (by simp [NonOverlapping])
  | .registerClient | .client .. | .replaceListener _ | .resume _ =>
    isTrue (by simp [NonOverlapping])

/-- The events of the client `c` for which a listener was notified. -/
def noticedFrom (c : ℕ) (log : List (AdapterObs δ ε)) : List (Option (Stored (LoggerEvent ε))) :=
  log.filterMap fun
    | .notified _ c' event _ _ => if c' = c then some event else none
    | _ => none

/-- The events of the client `c` that its queue accepted; for these, and no others, `try_log_event`
returns `true`. -/
def acceptedFrom (c : ℕ) (log : List (AdapterObs δ ε)) : List (Option (Stored (LoggerEvent ε))) :=
  (numbered (writes (toLog (clientLog c log)))).map some

/-- No call of `dispatch` begins. -/
def NoCall (log : List (AdapterObs δ ε)) : Prop := ∀ d, .called d ∉ log

section Logs

variable (c : ℕ) (l l' : List (AdapterObs δ ε))

@[simp] theorem noticedFrom_append :
    noticedFrom c (l ++ l') = noticedFrom c l ++ noticedFrom c l' :=
  List.filterMap_append

@[simp] theorem noticedFrom_map (c' : ℕ) (os : List (ClientObs 1 ε)) :
    noticedFrom c (os.map (AdapterObs.client (δ := δ) c')) = [] := by
  simp [noticedFrom, List.filterMap_map]

@[simp] theorem acceptedFrom_length :
    (acceptedFrom c l).length = (writes (toLog (clientLog c l))).length := by
  simp [acceptedFrom]

theorem acceptedFrom_isPrefix : acceptedFrom c l <+: acceptedFrom c (l ++ l') := by
  refine (numbered_isPrefix ?_).map some
  rw [clientLog_append, toLog_append, writes_append]
  exact List.prefix_append _ _

end Logs

theorem noCall_map (c : ℕ) (os : List (ClientObs 1 ε)) :
    NoCall (os.map (AdapterObs.client (δ := δ) c)) := by
  intro d hmem
  simp at hmem

/-- An element of a list that grew is in the old part or in the new one. -/
theorem append_eq_append_cons {α : Type*} {log os l l' : List α} {o : α}
    (h : log ++ os = l ++ o :: l') :
    (∃ l₁, l' = l₁ ++ os ∧ log = l ++ o :: l₁) ∨ ∃ os₁, l = log ++ os₁ ∧ os = os₁ ++ o :: l' := by
  rcases List.append_eq_append_iff.1 h with ⟨os₁, hl, hos⟩ | ⟨l₁, hlog, hl'⟩
  · exact .inr ⟨os₁, hl, hos⟩
  · cases l₁ with
    | nil => exact .inr ⟨[], by simpa using hlog.symm, hl'.symm⟩
    | cons o' l₁ =>
      obtain ⟨rfl, hrest⟩ := List.cons.inj hl'
      exact .inl ⟨l₁, hrest, hlog⟩

theorem append_eq_append_cons_of_notMem {α : Type*} {log os l l' : List α} {o : α}
    (h : log ++ os = l ++ o :: l') (ho : o ∉ os) : ∃ l₁, l' = l₁ ++ os ∧ log = l ++ o :: l₁ := by
  rcases append_eq_append_cons h with h | ⟨os₁, -, hos⟩
  · exact h
  · exact absurd (by simp [hos]) ho

/-! ## The call that is on its way -/

/-- Every event that was taken has been passed on. -/
def Settled (log : List (AdapterObs δ ε)) : Prop := ∀ c, takenFrom c log = noticedFrom c log

/-- The first `i` consumers were found empty, of everything that was accepted before the call. -/
def Scanned (s : LoggerAdapter δ ε) (log : List (AdapterObs δ ε)) (d : δ) (i : ℕ) : Prop :=
  ∀ l l', log = l ++ .called d :: l' → NoCall l' → ∀ j < i,
    (acceptedFrom (s.source j) l).length ≤ (takenFrom (s.source j) log).length

/-- How far the call of `d` has got. -/
def PhaseOk (s : LoggerAdapter δ ε) (log : List (AdapterObs δ ε)) (d : δ) :
    DispatchPc ε → Prop
  | .scan i => s.mutex = some d ∧ Settled log ∧ Scanned s log d i
  | .notify _ c _ event _ => takenFrom c log = noticedFrom c log ++ [event] ∧
      ∀ c' ≠ c, takenFrom c' log = noticedFrom c' log
  | _ => Settled log

/-- Whatever was accepted before a call that found nothing has been passed on when it returns. -/
def Drained (log : List (AdapterObs δ ε)) : Prop :=
  ∀ l l' l'' d, log = l ++ .called d :: (l' ++ .returned d false :: l'') → NoCall l' → ∀ c,
    acceptedFrom c l <+: noticedFrom c (l ++ .called d :: l') ∧
      noticedFrom c (l ++ .called d :: l') <+: acceptedFrom c (l ++ .called d :: l')

/-- The invariant of calls that do not overlap. -/
structure DeliveryOk (s : LoggerAdapter δ ε) (log : List (AdapterObs δ ε)) : Prop where
  phase : ((∀ d, s.pc d = .idle) ∧ Settled log) ∨
    ∃ d, (∀ d' ≠ d, s.pc d' = .idle) ∧ PhaseOk s log d (s.pc d)
  drained : Drained log

section Phases

variable {s s' : LoggerAdapter δ ε} {log os : List (AdapterObs δ ε)} {d : δ} {i : ℕ}
  {pc : DispatchPc ε}

/-- The call that is on its way is the only one. -/
theorem DeliveryOk.active (h : DeliveryOk s log) (hpc : s.pc d ≠ .idle) :
    (∀ d' ≠ d, s.pc d' = .idle) ∧ PhaseOk s log d (s.pc d) := by
  rcases h.phase with ⟨hidle, -⟩ | ⟨d', halone, hphase⟩
  · exact absurd (hidle d) hpc
  · by_cases heq : d = d'
    · subst heq
      exact ⟨halone, hphase⟩
    · exact absurd (halone d heq) hpc

theorem DeliveryOk.phaseOk (h : DeliveryOk s log) (hpc : s.pc d = pc) (hold : s.pc d ≠ .idle) :
    PhaseOk s log d pc := by
  rw [← hpc]
  exact (h.active hold).2

theorem DeliveryOk.settled (h : DeliveryOk s log) (hidle : ∀ d, s.pc d = .idle) : Settled log := by
  rcases h.phase with ⟨-, hsettled⟩ | ⟨d, -, hphase⟩
  · exact hsettled
  · rw [hidle d] at hphase
    exact hphase

/-- In every phase the events passed on are the first of those that were taken. -/
theorem DeliveryOk.noticed_isPrefix (h : DeliveryOk s log) (c : ℕ) :
    noticedFrom c log <+: takenFrom c log := by
  rcases h.phase with ⟨-, hsettled⟩ | ⟨d, -, hphase⟩
  · rw [hsettled c]
  · cases hpc : s.pc d with
    | notify i c' k event listener =>
      rw [hpc] at hphase
      by_cases heq : c = c'
      · subst heq
        rw [hphase.1]
        exact List.prefix_append _ _
      · rw [hphase.2 c heq]
    | scan i =>
      rw [hpc] at hphase
      rw [hphase.2.1 c]
    | idle | destroyGuard i c' k | freeGuard i c' k | relock i =>
      rw [hpc] at hphase
      rw [hphase c]

theorem Settled.append (h : Settled log) (hos : ∀ c, takenFrom c os = noticedFrom c os) :
    Settled (log ++ os) := by
  intro c
  rw [takenFrom_append, noticedFrom_append, h c, hos c]

/-- What is accepted is not forgotten. -/
theorem Drained.append (h : Drained log) (hos : ∀ d, .returned d false ∉ os) :
    Drained (log ++ os) := by
  intro l l' l'' d heq hno c
  have heq' : log ++ os = (l ++ .called d :: l') ++ .returned d false :: l'' := by simpa using heq
  obtain ⟨l₁, rfl, hlog⟩ := append_eq_append_cons_of_notMem heq' (hos d)
  exact h l l' l₁ d (by simpa using hlog) hno c

theorem Scanned.append (h : Scanned s log d i) (hsource : ∀ j, s'.source j = s.source j)
    (hno : NoCall os) : Scanned s' (log ++ os) d i := by
  intro l l' heq hno' j hj
  obtain ⟨l₁, rfl, hlog⟩ := append_eq_append_cons_of_notMem heq (hno d)
  have hle := h l l₁ hlog (fun d' hmem => hno' d' (List.mem_append_left os hmem)) j hj
  rw [hsource, takenFrom_append, List.length_append]
  omega

/-- A step of something else than the call. -/
theorem PhaseOk.append (h : PhaseOk s log d pc) (hmutex : s'.mutex = s.mutex)
    (hsource : s.mutex = some d → ∀ j, s'.source j = s.source j)
    (hos : ∀ c, takenFrom c os = [] ∧ noticedFrom c os = []) (hno : NoCall os) :
    PhaseOk s' (log ++ os) d pc := by
  have hsettled : ∀ c, takenFrom c os = noticedFrom c os := fun c => by rw [(hos c).1, (hos c).2]
  cases pc with
  | scan i =>
    obtain ⟨hlock, hset, hscanned⟩ := h
    exact ⟨hmutex.trans hlock, hset.append hsettled, hscanned.append (hsource hlock) hno⟩
  | notify i c k event listener =>
    obtain ⟨hc, hother⟩ := h
    refine ⟨?_, fun c' hc' => ?_⟩
    · rw [takenFrom_append, noticedFrom_append, (hos c).1, (hos c).2, List.append_nil,
        List.append_nil, hc]
    · rw [takenFrom_append, noticedFrom_append, (hos c').1, (hos c').2, List.append_nil,
        List.append_nil, hother c' hc']
  | idle | destroyGuard i c k | freeGuard i c k | relock i => exact Settled.append h hsettled

theorem DeliveryOk.append (h : DeliveryOk s log) (hpc : s'.pc = s.pc) (hmutex : s'.mutex = s.mutex)
    (hsource : s.mutex ≠ none → ∀ j, s'.source j = s.source j)
    (hos : ∀ c, takenFrom c os = [] ∧ noticedFrom c os = []) (hno : NoCall os)
    (hreturned : ∀ d, .returned d false ∉ os) : DeliveryOk s' (log ++ os) := by
  refine ⟨?_, h.drained.append hreturned⟩
  rw [hpc]
  rcases h.phase with ⟨hidle, hsettled⟩ | ⟨d, halone, hphase⟩
  · exact .inl ⟨hidle, hsettled.append fun c => by rw [(hos c).1, (hos c).2]⟩
  · refine .inr ⟨d, halone, hphase.append hmutex (fun hlock => hsource ?_) hos hno⟩
    rw [hlock]
    simp

variable [DecidableEq δ]

/-- A step of the call that is on its way. -/
theorem DeliveryOk.resume (h : DeliveryOk s log) (hold : s.pc d ≠ .idle)
    (hpc : s'.pc = Function.update s.pc d pc) (hphase : PhaseOk s' (log ++ os) d pc)
    (hdrained : Drained (log ++ os)) : DeliveryOk s' (log ++ os) := by
  refine ⟨.inr ⟨d, fun d' hd' => ?_, ?_⟩, hdrained⟩
  · rw [hpc, Function.update_of_ne hd']
    exact (h.active hold).1 d' hd'
  · rw [hpc, Function.update_self]
    exact hphase

end Phases

/-! ## The scan -/

section Scan

variable {s : LoggerAdapter δ ε} {log : List (AdapterObs δ ε)} {d : δ} {i c : ℕ}

/-- The scan comes to every consumer. -/
theorem exists_source (hc : c < s.clients.length) : ∃ j < s.clients.length, s.source j = c := by
  have hpos : 0 < s.clients.length := Nat.zero_lt_of_lt hc
  have hq := Nat.mod_lt s.cindex hpos
  unfold LoggerAdapter.source
  by_cases hle : s.cindex % s.clients.length ≤ c
  · refine ⟨c - s.cindex % s.clients.length, by omega, ?_⟩
    rw [← Nat.mod_add_mod, show s.cindex % s.clients.length + (c - s.cindex % s.clients.length) = c
      by omega, Nat.mod_eq_of_lt hc]
  · refine ⟨c + s.clients.length - s.cindex % s.clients.length, by omega, ?_⟩
    rw [← Nat.mod_add_mod, show s.cindex % s.clients.length +
      (c + s.clients.length - s.cindex % s.clients.length) = c + s.clients.length by omega,
      Nat.add_mod_right, Nat.mod_eq_of_lt hc]

/-- A scan that has come to its end has found everything that was accepted before the call. -/
theorem Scanned.acceptedFrom_le (h : Scanned s log d i) (hi : s.clients.length ≤ i)
    (hclients : ClientsOk s log) {l l' : List (AdapterObs δ ε)} (hlog : log = l ++ .called d :: l')
    (hno : NoCall l') (c : ℕ) : (acceptedFrom c l).length ≤ (takenFrom c log).length := by
  rcases Nat.lt_or_ge c s.clients.length with hlt | hge
  · obtain ⟨j, hj, rfl⟩ := exists_source hlt
    exact h l l' hlog hno j (hj.trans_le hi)
  · -- there is no such client yet
    have hnil := (hclients c).2 (List.getElem?_eq_none hge)
    rw [hlog, clientLog_append, List.append_eq_nil_iff] at hnil
    rw [acceptedFrom_length, hnil.1]
    exact Nat.zero_le _

end Scan

/-! ## One step -/

section Step

variable [DecidableEq δ] {print : ε → OStringStream → OStringStream} {sstream : OStringStream}
  {listener : ℕ} {s s' : LoggerAdapter δ ε} {log os : List (AdapterObs δ ε)} {d : δ} {k : ℕ}

omit [DecidableEq δ] in
theorem source_setClient (c : ℕ) (x : ClientState LoggerQueue ε) (j : ℕ) :
    (s.setClient c x).source j = s.source j := by
  simp [LoggerAdapter.source, LoggerAdapter.setClient]

/-- A consumer that was found empty had nothing left of what was accepted before. -/
theorem taken_eq_accepted (hreach : (adapterMachine print).Reaches (.start sstream listener) s'
      (log ++ [.client k (.queue (.empty 0))]))
    (htaken : takenFrom k log = reads 0 (toLog (clientLog k log))) :
    (takenFrom k log).length = (acceptedFrom k log).length := by
  have hlegal := (clientsOk_of_reaches hreach).legal k
  have hlog : toLog (clientLog k (log ++ [.client k (.queue (.empty 0))])) =
      toLog (clientLog k log) ++ [.empty 0] := by
    simp [clientLog, toLog]
  rw [hlog] at hlegal
  rw [htaken, acceptedFrom_length]
  exact length_reads_of_empty hlegal

omit [DecidableEq δ] in
/-- The scan goes on after a consumer that was found empty. -/
theorem Scanned.succ (h : Scanned s log d k) (hsource : ∀ j, s'.source j = s.source j)
    (hempty : (takenFrom (s.source k) log).length = (acceptedFrom (s.source k) log).length)
    (hno : NoCall os) : Scanned s' (log ++ os) d (k + 1) := by
  intro l l' heq hno' j hj
  rcases Nat.lt_succ_iff_lt_or_eq.1 hj with hlt | rfl
  · exact h.append hsource hno l l' heq hno' j hlt
  · obtain ⟨l₁, -, hlog⟩ := append_eq_append_cons_of_notMem heq (hno d)
    have hle := (acceptedFrom_isPrefix (s.source j) l (.called d :: l₁)).length_le
    rw [← hlog, ← hempty] at hle
    rw [hsource, takenFrom_append, List.length_append]
    omega

omit [DecidableEq δ] in
/-- A call that returns `false` has drained the queues. -/
theorem Drained.missed (h : Drained log) (hsettled : Settled log) (hscanned : Scanned s log d k)
    (hk : s.clients.length ≤ k) (hclients : ClientsOk s log)
    (htaken : ∀ c, takenFrom c log <+: acceptedFrom c log) :
    Drained (log ++ [.returned d false]) := by
  intro l l' l'' d' heq hno c
  have heq' : log ++ [.returned d false] =
      (l ++ .called d' :: l') ++ .returned d' false :: l'' := by
    simpa using heq
  rcases append_eq_append_cons heq' with ⟨l₁, -, hlog⟩ | ⟨os₁, hl, hos⟩
  · exact h l l' l₁ d' (by simpa using hlog) hno c
  · cases os₁ with
    | cons o os₁ => simp at hos
    | nil =>
      simp only [List.nil_append, List.cons.injEq, AdapterObs.returned.injEq, and_true] at hos
      obtain ⟨rfl, -⟩ := hos
      rw [List.append_nil] at hl
      have hnoticed : noticedFrom c log <+: acceptedFrom c log := by
        rw [← hsettled c]
        exact htaken c
      have hle := hscanned.acceptedFrom_le hk hclients hl.symm hno c
      rw [hsettled c] at hle
      rw [hl]
      refine ⟨?_, hnoticed⟩
      apply List.prefix_of_prefix_length_le _ hnoticed hle
      rw [← hl]
      exact acceptedFrom_isPrefix c l _

/-- Every step of calls that do not overlap keeps the invariant. -/
theorem DeliveryOk.step (h : DeliveryOk s log) {i : AdapterInput δ ε}
    (hreach : (adapterMachine print).Reaches (.start sstream listener) s log)
    (hok : NonOverlapping s i) (hstep : (adapterMachine print).step s i = some (s', os)) :
    DeliveryOk s' (log ++ os) := by
  have hreach' := hreach.step i hstep
  cases adapterStep_of_step hstep with
  | registered x mutex hx | replaced listener' mutex =>
    apply h.append
    · rfl
    · rfl
    · exact fun hne => absurd mutex hne
    · exact fun c => ⟨rfl, rfl⟩
    · exact fun d => by simp
    · exact fun d => by simp
  | client c j hj x x' os' hx hstep =>
    apply h.append
    · rfl
    · rfl
    · exact fun _ => source_setClient c x'
    · exact fun c' => ⟨takenFrom_map .., noticedFrom_map ..⟩
    · exact noCall_map c os'
    · exact fun d => by simp
  | called d mutex hpc =>
    have hidle := hok d rfl
    refine ⟨.inr ⟨d, fun d' hd' => ?_, ?_⟩, h.drained.append (by simp)⟩
    · exact (Function.update_of_ne hd' ..).trans (hidle d')
    · rw [show LoggerAdapter.pc _ d = .scan 0 from Function.update_self ..]
      exact ⟨rfl, (h.settled hidle).append fun c => rfl, fun l l' _ _ j hj => absurd hj (by simp)⟩
  | empty d k hpc hk x x' hx hstep =>
    have hold : s.pc d ≠ .idle := by simp [hpc]
    obtain ⟨hlock, hsettled, hscanned⟩ := h.phaseOk hpc hold
    have hempty := taken_eq_accepted hreach' (takenFrom_eq_reads hreach _)
    apply h.resume hold rfl
    · refine ⟨hlock, hsettled.append fun c => rfl, hscanned.succ ?_ hempty (by simp [NoCall])⟩
      exact source_setClient (s := s) _ x'
    · exact h.drained.append (by simp)
  | taken d k n hpc hk x x' event hx hstep =>
    have hold : s.pc d ≠ .idle := by simp [hpc]
    obtain ⟨-, hsettled, -⟩ := h.phaseOk hpc hold
    apply h.resume hold rfl
    · refine ⟨?_, fun c hc => ?_⟩
      · rw [takenFrom_append, noticedFrom_append, hsettled]
        simp [takenFrom, noticedFrom]
      · rw [takenFrom_append, noticedFrom_append, hsettled]
        simp [takenFrom, noticedFrom, Ne.symm hc]
    · exact h.drained.append (by simp)
  | missed d k hpc hk =>
    have hold : s.pc d ≠ .idle := by simp [hpc]
    obtain ⟨-, hsettled, hscanned⟩ := h.phaseOk hpc hold
    apply h.resume hold rfl
    · exact hsettled.append fun c => rfl
    · exact h.drained.missed hsettled hscanned hk (clientsOk_of_reaches hreach)
        (takenFrom_isPrefix hreach)
  | notified d k c n event listener' hpc =>
    have hold : s.pc d ≠ .idle := by simp [hpc]
    obtain ⟨hc, hother⟩ := h.phaseOk hpc hold
    apply h.resume hold rfl
    · intro c'
      rw [takenFrom_append, noticedFrom_append]
      by_cases heq : c' = c
      · subst heq
        rw [hc]
        simp [takenFrom, noticedFrom]
      · rw [hother c' heq]
        simp [takenFrom, noticedFrom, Ne.symm heq]
    · exact h.drained.append (by simp)
  | released d k c n j pc input hpc x x' os' hx hstep =>
    have hold : s.pc d ≠ .idle := by
      rcases hpc with ⟨hpc, -⟩ | ⟨hpc, -⟩ <;> simp [hpc]
    have hsettled : Settled log := by
      rcases hpc with ⟨hpc, -⟩ | ⟨hpc, -⟩
      · exact h.phaseOk hpc hold
      · exact h.phaseOk hpc hold
    have hnext : Settled (log ++ os'.map (AdapterObs.client c)) := by
      apply hsettled.append
      intro c'
      rw [takenFrom_map, noticedFrom_map]
    apply h.resume hold rfl
    · rcases hpc with ⟨-, -, rfl⟩ | ⟨-, -, rfl⟩ <;> exact hnext
    · exact h.drained.append (by simp)
  | finished d k hpc mutex =>
    have hold : s.pc d ≠ .idle := by simp [hpc]
    have hsettled : Settled log := h.phaseOk hpc hold
    apply h.resume hold rfl
    · exact hsettled.append fun c => rfl
    · exact h.drained.append (by simp)

end Step

/-! ## Whole runs -/

section Runs

variable [DecidableEq δ] {print : ε → OStringStream → OStringStream} {sstream : OStringStream}
  {listener : ℕ} {s : LoggerAdapter δ ε} {log : List (AdapterObs δ ε)}

/-- In every run of calls that do not overlap. -/
theorem deliveryOk_of_reaches
    (h : (adapterMachine print).ReachesWhile NonOverlapping (.start sstream listener) s log) :
    DeliveryOk s log := by
  apply h.invariant (I := DeliveryOk)
  · refine ⟨.inl ⟨fun d => rfl, fun c => rfl⟩, ?_⟩
    intro l l' l'' d heq
    simp at heq
  · exact fun s log i s' os hreach hi hok hs => hi.step hreach hok hs

omit [DecidableEq δ] in
/-- No client has an event accepted in `l'`. -/
theorem acceptedFrom_append_quiet {l l' : List (AdapterObs δ ε)}
    (hquiet : ∀ c x, .client c (.queue (.wrote x)) ∉ l') (c : ℕ) :
    acceptedFrom c (l ++ l') = acceptedFrom c l := by
  have hnil : writes (toLog (clientLog c l')) = [] := by
    apply List.eq_nil_iff_forall_not_mem.2
    intro x hx
    rw [mem_writes, mem_toLog, mem_clientLog] at hx
    exact hquiet c x hx
  rw [acceptedFrom, clientLog_append, toLog_append, writes_append, hnil, List.append_nil]
  rfl

/-- What `dispatch` delivers of the events that the clients log. -/
structure Delivered (log : List (AdapterObs δ ε)) : Prop where
  /-- The events of a client are passed on in the order in which they were accepted. -/
  ordered : ∀ c, noticedFrom c log <+: acceptedFrom c log
  distinct : ∀ c, (noticedFrom c log).Nodup
  /-- An event that was refused is never passed on. -/
  refused : ∀ c, ∀ x ∈ refusals (toLog (clientLog c log)), ∀ k, some ⟨k, x⟩ ∉ noticedFrom c log
  /-- A call returned `false`: all that was accepted before it began has been passed on. -/
  drained : ∀ l l' l'' d, log = l ++ .called d :: (l' ++ .returned d false :: l'') → NoCall l' →
    ∀ c, acceptedFrom c l <+: noticedFrom c (l ++ .called d :: l')
  /-- If no event was accepted during the call, this is all that was accepted until it returned. -/
  quiet : ∀ l l' l'' d, log = l ++ .called d :: (l' ++ .returned d false :: l'') → NoCall l' →
    (∀ c x, .client c (.queue (.wrote x)) ∉ l') → ∀ c,
      noticedFrom c (l ++ .called d :: l') = acceptedFrom c (l ++ .called d :: l')

theorem noticedFrom_isPrefix
    (h : (adapterMachine print).ReachesWhile NonOverlapping (.start sstream listener) s log)
    (c : ℕ) : noticedFrom c log <+: acceptedFrom c log :=
  ((deliveryOk_of_reaches h).noticed_isPrefix c).trans (takenFrom_isPrefix h.reaches c)

/-- The events a client offered in vain are not among those accepted. -/
theorem refusals_disjoint (h : (adapterMachine print).Reaches (.start sstream listener) s log)
    {c k : ℕ} {x : LoggerEvent ε} (hx : x ∈ refusals (toLog (clientLog c log))) :
    some ⟨k, x⟩ ∉ acceptedFrom c log := by
  intro hmem
  have hclients := clientsOk_of_reaches h
  cases hclient : s.clients[c]? with
  | none =>
    rw [(hclients c).2 hclient] at hx
    exact absurd hx List.not_mem_nil
  | some client =>
    have hrel := hclients.rel hclient
    have hprotocol := hrel.ok.slabProtocol (Nat.lt_succ_self queueSize) hrel.closed
    have hdisjoint := hprotocol.disjoint
    rw [hprotocol.refused] at hdisjoint
    have hwritten : x ∈ writes (toLog (clientLog c log)) := by
      rw [← numbered_map_value (writes (toLog (clientLog c log)))]
      exact List.mem_map_of_mem ((List.mem_map_of_injective (Option.some_injective _)).1 hmem)
    exact (List.nodup_append.1 hdisjoint).2.2 x hx x hwritten rfl

/-- Calls of `dispatch` that do not overlap deliver the events of all clients. -/
theorem dispatch_delivers
    (h : (adapterMachine print).ReachesWhile NonOverlapping (.start sstream listener) s log) :
    Delivered log where
  ordered := noticedFrom_isPrefix h
  distinct c := by
    refine (noticedFrom_isPrefix h c).sublist.nodup ?_
    exact (numbered_nodup _).map (Option.some_injective _)
  refused c x hx k hmem :=
    refusals_disjoint h.reaches hx ((noticedFrom_isPrefix h c).subset hmem)
  drained l l' l'' d heq hno c := ((deliveryOk_of_reaches h).drained l l' l'' d heq hno c).1
  quiet l l' l'' d heq hno hquiet c := by
    obtain ⟨haccepted, hnoticed⟩ := (deliveryOk_of_reaches h).drained l l' l'' d heq hno c
    have hquiet' : ∀ c x, .client c (.queue (.wrote x)) ∉ AdapterObs.called d :: l' :=
      fun c x hmem => hquiet c x ((List.mem_cons.1 hmem).resolve_left (by simp))
    rw [acceptedFrom_append_quiet hquiet' c] at hnoticed ⊢
    exact hnoticed.eq_of_length_le haccepted.length_le

/-- The calls of a single thread do not overlap. -/
theorem nonOverlapping_of_subsingleton [Subsingleton δ] {s' : LoggerAdapter δ ε}
    {i : AdapterInput δ ε} {os : List (AdapterObs δ ε)}
    (h : (adapterMachine print).step s i = some (s', os)) : NonOverlapping s i := by
  rintro d rfl d'
  cases adapterStep_of_step h with
  | called _ mutex hpc =>
    rw [Subsingleton.elim d' d]
    exact hpc

/-- Two clients, one of them registered in between, and two threads that call `dispatch` in turn; the
last call finds both queues empty. -/
theorem dispatch_delivers_two : ∃ (s : LoggerAdapter Bool String) (log : List _),
    (adapterMachine printText).ReachesWhile NonOverlapping (.start plainStream 0) s log ∧
      Delivered log ∧ noticedFrom 0 log = [some ⟨0, ⟨0, "first"⟩⟩, some ⟨1, ⟨1, "second"⟩⟩] ∧
      noticedFrom 1 log = [some ⟨0, ⟨0, "other"⟩⟩] ∧ .returned true false ∈ log := by
  have hrun := Machine.ReachesWhile.of_run (show
    (adapterMachine printText).run (LoggerAdapter.start (δ := Bool) plainStream 0)
      (logCall 0 "first" ++ .registerClient :: logCall 1 "other" ++ [.dispatch false, .resume false,
        .resume false] ++ logCall 0 "second" ++ List.replicate 3 (.resume false) ++
        .dispatch true :: List.replicate 5 (.resume true) ++
        .dispatch false :: List.replicate 5 (.resume false) ++
        .dispatch true :: List.replicate 3 (.resume true)) = some (_, _) from rfl)
    (show Machine.meets _ NonOverlapping _ _ = true from rfl)
  exact ⟨_, _, hrun, dispatch_delivers hrun, rfl, rfl, by decide⟩

end Runs

end Ihft.Logger
