import Ihft.Logger.LoggerAdapter
import Ihft.Logger.ClientRuns

/-!
# One step of the adapter

`AdapterStep` says what a step of the adapter can do.  Whatever the adapter does, each of its
clients goes through a run of its own (`ClientsOk`), so that what is known of a single client holds
of every client of the adapter; the events that `dispatch` takes are the ones that the consumer of
the client reads.
-/

namespace Ihft.Logger

open Observe GuardedBroadcast Channel Memory StreamFixedPoolAllocator

variable {δ ε : Type*} [DecidableEq δ] {print : ε → OStringStream → OStringStream}

/-- A client with its queue, as a machine. -/
abbrev loggerClient (ε : Type*) :
    Machine (ClientState LoggerQueue ε) (ClientInput 1 ε) (ClientObs 1 ε) :=
  clientMachine ε LoggerQueue.machine

/-- The client that is looked at in the turn `i` of the loop of `dispatch`. -/
def LoggerAdapter.source (s : LoggerAdapter δ ε) (i : ℕ) : ℕ := (s.cindex + i) % s.clients.length

/-- What a step can do. -/
inductive AdapterStep (print : ε → OStringStream → OStringStream) (s : LoggerAdapter δ ε) :
    AdapterInput δ ε → LoggerAdapter δ ε → List (AdapterObs δ ε) → Prop
  | registered (x : ClientState LoggerQueue ε) (mutex : s.mutex = none)
    (hx : newClient ε = some x) :
    AdapterStep print s .registerClient { s with clients := s.clients ++ [x] } [.registered]
  | client (c : ℕ) (i : ClientInput 1 ε) (hi : i.OfProducer) (x x' : ClientState LoggerQueue ε)
    (os : List (ClientObs 1 ε)) (hx : s.clients[c]? = some x)
    (hstep : (loggerClient ε).step x i = some (x', os)) :
    AdapterStep print s (.client c i) (s.setClient c x') (os.map (.client c))
  | replaced (listener : ℕ) (mutex : s.mutex = none) :
    AdapterStep print s (.replaceListener listener) { s with listener := listener } []
  | called (d : δ) (mutex : s.mutex = none) (hpc : s.pc d = .idle) :
    AdapterStep print s (.dispatch d) ({ s with mutex := some d }.setPc d (.scan 0)) [.called d]
  | empty (d : δ) (i : ℕ) (hpc : s.pc d = .scan i) (hi : i < s.clients.length)
    (x x' : ClientState LoggerQueue ε) (hx : s.clients[s.source i]? = some x)
    (hstep : (loggerClient ε).step x (.queue (.tryRead 0)) = some (x', [.queue (.empty 0)])) :
    AdapterStep print s (.resume d) ((s.setClient (s.source i) x').setPc d (.scan (i + 1)))
      [.client (s.source i) (.queue (.empty 0))]
  | taken (d : δ) (i k : ℕ) (hpc : s.pc d = .scan i) (hi : i < s.clients.length)
    (x x' : ClientState LoggerQueue ε) (event : Option (Stored (LoggerEvent ε)))
    (hx : s.clients[s.source i]? = some x)
    (hstep : (loggerClient ε).step x (.queue (.tryRead 0)) =
      some (x', [.queue (.read 0 event)])) :
    AdapterStep print s (.resume d)
      ({ s.setClient (s.source i) x' with
          sstream := s.format print event, mutex := none }.setPc d
        (.notify i (s.source i) k event s.listener))
      [.client (s.source i) (.queue (.read 0 event)),
        .taken d (s.source i) event (s.format print event).str]
  | missed (d : δ) (i : ℕ) (hpc : s.pc d = .scan i) (hi : s.clients.length ≤ i) :
    AdapterStep print s (.resume d) ({ s with mutex := none }.setPc d .idle) [.returned d false]
  | notified (d : δ) (i c k : ℕ) (event : Option (Stored (LoggerEvent ε))) (listener : ℕ)
    (hpc : s.pc d = .notify i c k event listener) :
    AdapterStep print s (.resume d) (s.setPc d (.destroyGuard i c k))
      [.notified d c event listener s.sstream.str]
  | released (d : δ) (i c k j : ℕ) (pc : DispatchPc ε) (input : ObjectInput 1 Box)
    (hpc : (s.pc d = .destroyGuard i c k ∧ input = .destroyGuard 0 j ∧ pc = .freeGuard i c k) ∨
      (s.pc d = .freeGuard i c k ∧ input = .guard 0 j ∧ pc = .relock i))
    (x x' : ClientState LoggerQueue ε) (os : List (ClientObs 1 ε)) (hx : s.clients[c]? = some x)
    (hstep : (loggerClient ε).step x (.queue input) = some (x', os)) :
    AdapterStep print s (.resume d) ((s.setClient c x').setPc d pc) (os.map (.client c))
  | finished (d : δ) (i : ℕ) (hpc : s.pc d = .relock i) (mutex : s.mutex = none) :
    AdapterStep print s (.resume d)
      ({ s with cindex := (s.cindex + (i + 1)) % s.clients.length }.setPc d .idle)
      [.flushed s.listener, .returned d true]

/-! ## The steps of a client -/

section ClientSteps

variable {x x' : ClientState LoggerQueue ε} {os : List (ClientObs 1 ε)}

theorem stepQueue_eq_some {i : ObjectInput 1 Box}
    (h : x.stepQueue LoggerQueue.machine i = some (x', os)) :
    ∃ queue qs, LoggerQueue.machine.step x.queue i = some (queue, qs) ∧
      os = ({ x with queue := queue }.observeAll qs).2 := by
  unfold ClientState.stepQueue at h
  split at h
  · cases h
  · rename_i queue qs hstep
    exact ⟨queue, qs, hstep, congrArg Prod.snd (Option.some.inj h).symm⟩

/-- What the consumer reads is seen as such. -/
theorem step_tryRead (h : (loggerClient ε).step x (.queue (.tryRead 0)) = some (x', os)) :
    (∃ event, os = [.queue (.read 0 event)]) ∨ os = [.queue (.empty 0)] := by
  obtain ⟨queue, qs, hstep, rfl⟩ := stepQueue_eq_some h
  rcases (One2One.step_cases hstep).tryRead with ⟨y, rfl⟩ | rfl
  · exact .inl ⟨_, rfl⟩
  · exact .inr rfl

theorem reads_observe {y : ClientState LoggerQueue ε} {o : Obs (Fin 1) Box}
    (h : ∀ r x, o ≠ .read r x) : reads 0 (toLog (y.observe o).2) = [] := by
  cases o with
  | read r x => exact absurd rfl (h r x)
  | offered box | wrote box | refused box =>
    cases hx : y.slabs box.slab <;> simp [ClientState.observe, toLog, reads, hx]
  | _ => simp [ClientState.observe, toLog, reads]

theorem reads_observeAll {y : ClientState LoggerQueue ε} {qs : List (Obs (Fin 1) Box)}
    (h : ∀ r x, .read r x ∉ qs) : reads 0 (toLog (y.observeAll qs).2) = [] := by
  induction qs generalizing y with
  | nil => rfl
  | cons o qs ih =>
    simp only [ClientState.observeAll, toLog_append]
    have hfirst := reads_observe (y := y) fun r x heq => h r x (heq ▸ List.mem_cons_self)
    have hrest := ih (y := (y.observe o).1) fun r x hmem => h r x (List.mem_cons_of_mem o hmem)
    rw [reads] at hfirst hrest ⊢
    rw [List.filterMap_append, hfirst, hrest, List.append_nil]

theorem reads_stepQueue {i : ObjectInput 1 Box} (hi : ∀ r, i ≠ .tryRead r)
    (h : x.stepQueue LoggerQueue.machine i = some (x', os)) : reads 0 (toLog os) = [] := by
  obtain ⟨queue, qs, hstep, rfl⟩ := stepQueue_eq_some h
  exact reads_observeAll ((One2One.step_cases hstep).not_read hi)

/-- The thread of a client leaves its queue alone, or goes on with `try_write`. -/
theorem producer_cases {i : ClientInput 1 ε} (hi : i.OfProducer)
    (h : (loggerClient ε).step x i = some (x', os)) :
    (x'.queue = x.queue ∧ x'.pc ≠ .gone ∧ toLog os = []) ∨
    ∃ j, ((∃ box, j = .tryWrite box) ∨ (j = .writer ∧ i = .queue .writer)) ∧
      x.stepQueue LoggerQueue.machine j = some (x', os) := by
  cases i with
  | construct content =>
    simp only [clientMachine, ClientState.construct] at h
    split at h
    · cases h
      exact .inl ⟨rfl, by simp, rfl⟩
    · cases h
  | tryWrite =>
    simp only [clientMachine, ClientState.tryWrite] at h
    split at h
    · exact .inr ⟨_, .inl ⟨_, rfl⟩, h⟩
    · cases h
  | seek =>
    simp only [clientMachine, ClientState.seek] at h
    split at h
    · cases h
      exact .inl ⟨rfl, by simp, rfl⟩
    · cases h
  | queue i =>
    cases i with
    | writer => exact .inr ⟨.writer, .inr ⟨rfl, rfl⟩, h⟩
    | _ => exact absurd hi id

/-- The thread of a client reads nothing. -/
theorem reads_of_producer {i : ClientInput 1 ε} (hi : i.OfProducer)
    (h : (loggerClient ε).step x i = some (x', os)) : reads 0 (toLog os) = [] := by
  rcases producer_cases hi h with ⟨-, -, hnil⟩ | ⟨j, hj, hstep⟩
  · rw [hnil]
    rfl
  · apply reads_stepQueue _ hstep
    rcases hj with ⟨box, rfl⟩ | ⟨rfl, -⟩ <;> simp

end ClientSteps

/-! ## Inversion -/

section Inversion

variable {s s' : LoggerAdapter δ ε} {os : List (AdapterObs δ ε)} {d : δ}

omit [DecidableEq δ] in
theorem stepClient_eq_some {c : ℕ} {i : ClientInput 1 ε} {os : List (ClientObs 1 ε)}
    (h : s.stepClient c i = some (s', os)) : ∃ x x', s.clients[c]? = some x ∧
      (loggerClient ε).step x i = some (x', os) ∧ s' = s.setClient c x' := by
  unfold LoggerAdapter.stepClient at h
  split at h
  · cases h
  · rename_i x hx
    split at h
    · cases h
    · rename_i x' os' hstep
      cases h
      exact ⟨x, x', hx, hstep, rfl⟩

theorem scan_cases {i : ℕ} (hpc : s.pc d = .scan i) (h : s.scan print d i = some (s', os)) :
    AdapterStep print s (.resume d) s' os := by
  unfold LoggerAdapter.scan at h
  split at h
  · rename_i hi
    simp only at h
    split at h
    · cases h
    · rename_i s₁ os₁ hclient
      obtain ⟨x, x', hx, hstep, rfl⟩ := stepClient_eq_some hclient
      rcases step_tryRead hstep with ⟨event, rfl⟩ | rfl
      · cases h
        exact .taken d i _ hpc hi x x' event hx hstep
      · cases h
        exact .empty d i hpc hi x x' hx hstep
  · rename_i hi
    cases h
    exact .missed d i hpc (not_lt.1 hi)

theorem stepGuard_eq_some {c k : ℕ} {i : ℕ → ObjectInput 1 Box} {pc : DispatchPc ε}
    (h : s.stepGuard d c k i pc = some (s', os)) : ∃ x x' j os', s.clients[c]? = some x ∧
      (loggerClient ε).step x (.queue (i j)) = some (x', os') ∧
      s' = (s.setClient c x').setPc d pc ∧ os = os'.map (.client c) := by
  unfold LoggerAdapter.stepGuard at h
  split at h
  · cases h
  · rename_i x hx
    split at h
    · cases h
    · rename_i s₁ os₁ hclient
      obtain ⟨x₁, x', hx₁, hstep, rfl⟩ := stepClient_eq_some hclient
      cases h
      exact ⟨x₁, x', _, os₁, hx₁, hstep, rfl, rfl⟩

theorem resume_cases (h : s.resume print d = some (s', os)) :
    AdapterStep print s (.resume d) s' os := by
  unfold LoggerAdapter.resume at h
  split at h
  · cases h
  · rename_i i hpc
    exact scan_cases hpc h
  · rename_i i c k event listener hpc
    cases h
    exact .notified d i c k event listener hpc
  · rename_i i c k hpc
    obtain ⟨x, x', j, os', hx, hstep, rfl, rfl⟩ := stepGuard_eq_some h
    exact .released d i c k j _ _ (.inl ⟨hpc, rfl, rfl⟩) x x' os' hx hstep
  · rename_i i c k hpc
    obtain ⟨x, x', j, os', hx, hstep, rfl, rfl⟩ := stepGuard_eq_some h
    exact .released d i c k j _ _ (.inr ⟨hpc, rfl, rfl⟩) x x' os' hx hstep
  · rename_i i hpc
    unfold LoggerAdapter.finish at h
    split at h
    · rename_i mutex
      cases h
      exact .finished d i hpc mutex
    · cases h

/-- The machine of the adapter, inverted once. -/
theorem adapterStep_of_step {i : AdapterInput δ ε}
    (h : (adapterMachine print).step s i = some (s', os)) : AdapterStep print s i s' os := by
  cases i with
  | registerClient =>
    change s.registerClient = _ at h
    unfold LoggerAdapter.registerClient at h
    split at h
    · rename_i x mutex hx
      cases h
      exact .registered x mutex hx
    · cases h
  | client c i =>
    simp only [adapterMachine] at h
    split_ifs at h with hi
    obtain ⟨⟨s₁, os₁⟩, hclient, heq⟩ := Option.map_eq_some_iff.1 h
    obtain ⟨x, x', hx, hstep, rfl⟩ := stepClient_eq_some hclient
    cases heq
    exact .client c i hi x x' os₁ hx hstep
  | replaceListener listener =>
    change s.replaceListener listener = _ at h
    unfold LoggerAdapter.replaceListener at h
    split at h
    · rename_i mutex
      cases h
      exact .replaced listener mutex
    · cases h
  | dispatch d =>
    change s.dispatch d = _ at h
    unfold LoggerAdapter.dispatch at h
    split at h
    · rename_i mutex hpc
      cases h
      exact .called d mutex hpc
    · cases h
  | resume d => exact resume_cases h

end Inversion

/-! ## The clients of an adapter -/

/-- What is seen of the client `c`. -/
def clientLog (c : ℕ) (log : List (AdapterObs δ ε)) : List (ClientObs 1 ε) :=
  log.filterMap fun
    | .client c' o => if c' = c then some o else none
    | _ => none

/-- The events that `dispatch` took from the client `c`. -/
def takenFrom (c : ℕ) (log : List (AdapterObs δ ε)) : List (Option (Stored (LoggerEvent ε))) :=
  log.filterMap fun
    | .taken _ c' event _ => if c' = c then some event else none
    | _ => none

section Logs

variable {c : ℕ}

omit [DecidableEq δ]

@[simp] theorem clientLog_append (c : ℕ) (l l' : List (AdapterObs δ ε)) :
    clientLog c (l ++ l') = clientLog c l ++ clientLog c l' :=
  List.filterMap_append

theorem mem_takenFrom {event : Option (Stored (LoggerEvent ε))}
    {log : List (AdapterObs δ ε)} :
    event ∈ takenFrom c log ↔ ∃ d text, .taken d c event text ∈ log := by
  rw [takenFrom, List.mem_filterMap]
  constructor
  · rintro ⟨o, ho, heq⟩
    split at heq
    · split_ifs at heq with hc
      cases heq
      exact ⟨_, _, hc ▸ ho⟩
    · cases heq
  · exact fun ⟨d, text, hmem⟩ => ⟨_, hmem, if_pos rfl⟩

@[simp] theorem takenFrom_append (c : ℕ) (l l' : List (AdapterObs δ ε)) :
    takenFrom c (l ++ l') = takenFrom c l ++ takenFrom c l' :=
  List.filterMap_append

@[simp] theorem clientLog_map (c c' : ℕ) (os : List (ClientObs 1 ε)) :
    clientLog c (os.map (AdapterObs.client (δ := δ) c')) = if c' = c then os else [] := by
  by_cases h : c' = c <;> simp [clientLog, List.filterMap_map, h]

@[simp] theorem takenFrom_map (c c' : ℕ) (os : List (ClientObs 1 ε)) :
    takenFrom c (os.map (AdapterObs.client (δ := δ) c')) = [] := by
  simp [takenFrom, List.filterMap_map]

theorem mem_clientLog {o : ClientObs 1 ε} {l : List (AdapterObs δ ε)} :
    o ∈ clientLog c l ↔ .client c o ∈ l := by
  rw [clientLog, List.mem_filterMap]
  constructor
  · rintro ⟨o', ho, heq⟩
    split at heq
    · split_ifs at heq with hc
      cases heq
      exact hc ▸ ho
    · cases heq
  · exact fun h => ⟨_, h, if_pos rfl⟩

end Logs

section Clients

variable {s s' : LoggerAdapter δ ε} {os log : List (AdapterObs δ ε)} {i : AdapterInput δ ε}

omit [DecidableEq δ] in
theorem setClient_cases {cs : List (ClientState LoggerQueue ε)} {c' : ℕ}
    {x x' : ClientState LoggerQueue ε} {j : ClientInput 1 ε} {os : List (ClientObs 1 ε)}
    (hx : cs[c']? = some x) (hstep : (loggerClient ε).step x j = some (x', os)) (c : ℕ) :
    ((cs.set c' x')[c]? = cs[c]? ∧
      clientLog c (os.map (AdapterObs.client (δ := δ) c')) = []) ∨
    ∃ y y' j, cs[c]? = some y ∧ (cs.set c' x')[c]? = some y' ∧
      (loggerClient ε).step y j =
        some (y', clientLog c (os.map (AdapterObs.client (δ := δ) c'))) := by
  rw [clientLog_map]
  by_cases heq : c' = c
  · subst heq
    obtain ⟨hlt, -⟩ := List.getElem?_eq_some_iff.1 hx
    refine .inr ⟨x, x', j, hx, List.getElem?_set_self hlt, ?_⟩
    rw [if_pos rfl]
    exact hstep
  · exact .inl ⟨List.getElem?_set_ne heq, if_neg heq⟩

/-- A step concerns one client at most, and that one makes a step of its own. -/
theorem AdapterStep.client_cases (h : AdapterStep print s i s' os) (c : ℕ) :
    (s'.clients[c]? = s.clients[c]? ∧ clientLog c os = []) ∨
    (∃ x x' j, s.clients[c]? = some x ∧ s'.clients[c]? = some x' ∧
      (loggerClient ε).step x j = some (x', clientLog c os)) ∨
    (s.clients[c]? = none ∧ s'.clients[c]? = newClient ε ∧ clientLog c os = []) := by
  cases h with
  | registered x mutex hx =>
    rcases lt_trichotomy c s.clients.length with hlt | rfl | hgt
    · exact .inl ⟨List.getElem?_append_left hlt, rfl⟩
    · refine .inr (.inr ⟨List.getElem?_eq_none le_rfl, ?_, rfl⟩)
      rw [List.getElem?_append_right le_rfl, Nat.sub_self, hx]
      rfl
    · refine .inl ⟨?_, rfl⟩
      rw [List.getElem?_eq_none hgt.le, List.getElem?_eq_none]
      rw [List.length_append]
      exact hgt
  | replaced | called | missed | notified | finished => exact .inl ⟨rfl, rfl⟩
  | client c' j hj x x' os' hx hstep =>
    exact (setClient_cases hx hstep c).elim .inl fun h => .inr (.inl h)
  | empty d k hpc hk x x' hx hstep =>
    exact (setClient_cases hx hstep c).elim .inl fun h => .inr (.inl h)
  | taken d k n hpc hk x x' event hx hstep =>
    exact (setClient_cases (δ := δ) hx hstep c).elim .inl fun h => .inr (.inl h)
  | released d k c' n j pc input hpc x x' os' hx hstep =>
    exact (setClient_cases hx hstep c).elim .inl fun h => .inr (.inl h)

/-- Every client of the adapter has gone through a run of its own. -/
def ClientsOk (s : LoggerAdapter δ ε) (log : List (AdapterObs δ ε)) : Prop :=
  ∀ c, (∀ x, s.clients[c]? = some x → ∃ x₀, newClient ε = some x₀ ∧
    (loggerClient ε).Reaches x₀ x (clientLog c log)) ∧
      (s.clients[c]? = none → clientLog c log = [])

omit [DecidableEq δ] in
theorem clientsOk_start (sstream : OStringStream) (listener : ℕ) :
    ClientsOk (LoggerAdapter.start (δ := δ) (ε := ε) sstream listener) [] := by
  intro c
  refine ⟨fun x hx => ⟨x, ?_, .start⟩, fun _ => rfl⟩
  have hmem := List.mem_of_getElem? hx
  exact Option.mem_toList.1 hmem

theorem ClientsOk.step (h : ClientsOk s log) (hs : AdapterStep print s i s' os) :
    ClientsOk s' (log ++ os) := by
  intro c
  rw [clientLog_append]
  rcases hs.client_cases c with ⟨hsame, hlog⟩ | ⟨x, x', j, hx, hx', hstep⟩ | ⟨hnone, hnew, hlog⟩
  · rw [hsame, hlog, List.append_nil]
    exact h c
  · rw [hx']
    refine ⟨fun y hy => ?_, fun hy => by cases hy⟩
    obtain rfl := Option.some.inj hy
    obtain ⟨x₀, hnew, hreach⟩ := (h c).1 x hx
    exact ⟨x₀, hnew, hreach.step j hstep⟩
  · rw [(h c).2 hnone, hlog]
    refine ⟨fun y hy => ⟨y, ?_, .start⟩, fun _ => rfl⟩
    rw [← hnew, hy]

/-- The clients of an adapter, in every run. -/
theorem clientsOk_of_reaches {sstream : OStringStream} {listener : ℕ}
    (h : (adapterMachine print).Reaches (.start sstream listener) s log) : ClientsOk s log :=
  h.invariant (I := ClientsOk) (clientsOk_start sstream listener) fun _ _ _ _ _ hi hs =>
    hi.step (adapterStep_of_step hs)

theorem isCapacity_queueSize : IsCapacity .uint64 queueSize :=
  ⟨12, by decide, by decide, by decide⟩

theorem newClient_eq : newClient ε = some (.start
    (.start Box ⟨producerAfter .uint64 queueSize 1, [.new (queueSize - 1) 0]⟩ true)
    (.ofCapacity queueSize)) := by
  have hmake : One2One.make .uint64 queueSize 1 =
      some ⟨producerAfter .uint64 queueSize 1, [.new (queueSize - 1) 0]⟩ := by decide
  unfold newClient
  rw [hmake]

/-- What is known of a client of the logger in its runs. -/
abbrev LoggerRel (x : ClientState LoggerQueue ε) (log : List (ClientObs 1 ε)) : Prop :=
  ClientRel queueSize (queueSize + 1) (One2One.ObjectRel queueSize) (·.producer = true) x log

theorem LoggerRel.of_reaches {x x' : ClientState LoggerQueue ε} {log os : List (ClientObs 1 ε)}
    (h : LoggerRel x log) (hx : (loggerClient ε).Reaches x x' os) : LoggerRel x' (log ++ os) :=
  ClientRel.of_reaches h (Nat.lt_succ_self _) (One2One.isObjectQueue isCapacity_queueSize) hx

theorem loggerRel_newClient {x : ClientState LoggerQueue ε} (hx : newClient ε = some x) :
    LoggerRel x [] := by
  rw [newClient_eq, Option.some.injEq] at hx
  subst hx
  exact clientRel_start _ (.ofCapacity queueSize) rfl
    (One2One.objectRel_start isCapacity_queueSize true) rfl

omit [DecidableEq δ] in
/-- Every client keeps its account. -/
theorem ClientsOk.rel (h : ClientsOk s log) {c : ℕ} {x : ClientState LoggerQueue ε}
    (hx : s.clients[c]? = some x) : LoggerRel x (clientLog c log) := by
  obtain ⟨x₀, hnew, hreach⟩ := (h c).1 x hx
  exact (loggerRel_newClient hnew).of_reaches hreach

omit [DecidableEq δ] in
/-- The events of every client are a legal broadcast. -/
theorem ClientsOk.legal (h : ClientsOk s log) (c : ℕ) :
    (spec (Fin 1) (LoggerEvent ε) queueSize).Legal GuardedBroadcast.start
      (toLog (clientLog c log)) := by
  cases hx : s.clients[c]? with
  | none =>
    rw [(h c).2 hx]
    trivial
  | some x => exact (h.rel hx).ok.legal

/-! ## The events that are taken -/

/-- What a step takes is what the consumer reads. -/
theorem AdapterStep.takenFrom_eq (h : AdapterStep print s i s' os) (c : ℕ) :
    takenFrom c os = reads 0 (toLog (clientLog c os)) := by
  have hnone : ∀ c' os', reads 0 (toLog os') = [] →
      takenFrom c (os'.map (AdapterObs.client (δ := δ) c')) =
        reads 0 (toLog (clientLog c (os'.map (AdapterObs.client (δ := δ) (ε := ε) c')))) := by
    intro c' os' hreads
    rw [takenFrom_map, clientLog_map]
    split_ifs
    · exact hreads.symm
    · rfl
  cases h with
  | registered | replaced | called | missed | notified | finished => rfl
  | client c' j hj x x' os' hx hstep => exact hnone c' os' (reads_of_producer hj hstep)
  | empty d k hpc hk x x' hx hstep => exact hnone _ [.queue (.empty 0)] rfl
  | taken d k n hpc hk x x' event hx hstep =>
    by_cases hc : s.source k = c <;> simp [takenFrom, clientLog, toLog, reads, hc]
  | released d k c' n j pc input hpc x x' os' hx hstep =>
    apply hnone
    rcases hpc with ⟨-, rfl, -⟩ | ⟨-, rfl, -⟩
    · exact reads_stepQueue (by simp) hstep
    · exact reads_stepQueue (by simp) hstep

/-- In every run the events taken from a client are the ones its consumer has read. -/
theorem takenFrom_eq_reads {sstream : OStringStream} {listener : ℕ}
    (h : (adapterMachine print).Reaches (.start sstream listener) s log) (c : ℕ) :
    takenFrom c log = reads 0 (toLog (clientLog c log)) := by
  refine h.invariant (I := fun _ log => takenFrom c log = reads 0 (toLog (clientLog c log))) rfl ?_
  intro s log i s' os hi hs
  rw [takenFrom_append, hi, (adapterStep_of_step hs).takenFrom_eq, clientLog_append, toLog_append,
    reads, reads, reads, List.filterMap_append]

/-- Every event of a client is taken at most once, and in order. -/
theorem takenFrom_isPrefix {sstream : OStringStream} {listener : ℕ}
    (h : (adapterMachine print).Reaches (.start sstream listener) s log) (c : ℕ) :
    takenFrom c log <+: (numbered (writes (toLog (clientLog c log)))).map some := by
  rw [takenFrom_eq_reads h]
  exact reads_isPrefix ((clientsOk_of_reaches h).legal c) 0

end Clients

end Ihft.Logger
