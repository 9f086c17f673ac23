import Ihft.Logger.SlabProtocol
import Ihft.Logger.SoloThread

/-!
# Offering a refused event again

A thread may call `try_log_event` with the same pointer until it returns true.  A refusal leaves the
event with the temporary box, whose destructor destroys it, so the next call offers an event that is
destroyed already.  The machine of the loop runs the machine of a client in which every call offers
an event of its own, an `Offer`: its content is the event that the pointer of the caller refers to.
An event ends once exactly when each of its calls found room in the ring (`endsOnce_iff`).
-/

namespace Ihft.Logger

open Observe GuardedBroadcast Channel

variable {ε : Type*}

/-- An event as one call of `try_log_event` offers it. -/
abbrev Offer (ε : Type*) := LoggerEvent (LoggerEvent ε)

/-- A client with the event that its thread has constructed and not yet got rid of; `count` is the
number of events constructed so far. -/
structure RetryState (ε : Type*) where
  client : ClientState LoggerQueue (LoggerEvent ε)
  event : Option (LoggerEvent ε)
  count : ℕ

namespace RetryState

def start (client : ClientState LoggerQueue (LoggerEvent ε)) : RetryState ε := ⟨client, none, 0⟩

/-- `std::construct_at(event_slab, ...)`. -/
def construct (s : RetryState ε) (content : ε) :
    Option (RetryState ε × List (ClientObs 1 (LoggerEvent ε))) :=
  let event := ⟨s.count, content⟩
  (s.client.construct event).map fun x => (⟨x.1, some event, s.count + 1⟩, x.2)

/-- The client when `try_log_event(event)` is called. -/
def atCall (s : RetryState ε) : ClientState LoggerQueue (LoggerEvent ε) :=
  match s.client.pc, s.event with
  | .idle, some event =>
    -- the destructor has left the bytes in the slab, and the call takes them for the event
    { s.client with
      slabs := Function.update s.client.slabs s.client.allocator.activeSlab
        (some ⟨s.client.count, event⟩)
      pc := .constructed
      count := s.client.count + 1 }
  | _, _ => s.client

/-- `client->try_log_event(event)` up to the load of `try_write`. -/
def tryLogEvent (s : RetryState ε) :
    Option (RetryState ε × List (ClientObs 1 (LoggerEvent ε))) :=
  (s.atCall.tryWrite LoggerQueue.machine).map fun x => ({ s with client := x.1 }, x.2)

/-- `try_log_event` returns true, and the loop ends. -/
def seek (s : RetryState ε) : Option (RetryState ε × List (ClientObs 1 (LoggerEvent ε))) :=
  s.client.seek.map fun x => (⟨x.1, none, s.count⟩, x.2)

end RetryState

/-- The loop of a thread, with its client and the consumer. -/
def retryMachine (ε : Type*) :
    Machine (RetryState ε) (ClientInput 1 ε) (ClientObs 1 (LoggerEvent ε)) where
  step s
    | .construct content => s.construct content
    | .tryWrite => s.tryLogEvent
    | .seek => s.seek
    | .queue i => ((loggerClient (LoggerEvent ε)).step s.client (.queue i)).map fun x =>
      ({ s with client := x.1 }, x.2)

/-- The bucket that `try_write` looks at is free. -/
def RetryState.FindsRoom (s : RetryState ε) : Prop :=
  (s.client.queue.ring s.client.queue.writer.impl.nextBucket).seqn = dummyEventSeqNum .uint64

instance : DecidablePred (RetryState.FindsRoom (ε := ε)) := fun _ =>
  inferInstanceAs (Decidable (_ = _))

/-- The events that the queue has accepted. -/
def acceptedEvents (log : List (ClientObs 1 (LoggerEvent ε))) : List (LoggerEvent ε) :=
  (writes (toLog log)).map LoggerEvent.content

/-- The destructor of the event `x` runs. -/
def ClientObs.Ends (x : LoggerEvent ε) : ClientObs 1 (LoggerEvent ε) → Prop
  | .discarded (some y) => y.content = x
  | .queue (.destroyed _ (some y)) => y.value.content = x
  | _ => False

/-- The consumer has destroyed its guard for the event `k`, or does not hold it and reads no more. -/
def ConsumerDone (k : ℕ) (before after : List (Obs (Fin 1) (Offer ε))) : Prop :=
  .dropped 0 k ∈ before ∨ (¬ Holds 0 k before ∧ ∀ x, .read 0 x ∉ after)

/-- The event `x` is destroyed once, and after the queue has accepted it and its consumer is done
with it. -/
structure EndsOnce [DecidableEq ε] (x : LoggerEvent ε)
    (log : List (ClientObs 1 (LoggerEvent ε))) : Prop where
  le_one : ((ended log).map LoggerEvent.content).count x ≤ 1
  /-- The end of the ring is the last moment for it. -/
  eq_one : .closed ∈ toLog log → ((ended log).map LoggerEvent.content).count x = 1
  after : ∀ l o l', log = l ++ o :: l' → o.Ends x → ∃ k, (acceptedEvents l)[k]? = some x ∧
    ConsumerDone k (toLog l) (toLog l')

/-- Every call that offers `x` in a run from `s₀` to `s` finds the next bucket free. -/
def FoundRoom (x : LoggerEvent ε) (s₀ s : RetryState ε)
    (log : List (ClientObs 1 (LoggerEvent ε))) : Prop :=
  ∀ l s₁ os s₂ l', (retryMachine ε).Reaches s₀ s₁ l →
    (retryMachine ε).step s₁ .tryWrite = some (s₂, os) → (retryMachine ε).Reaches s₂ s l' →
    log = l ++ os ++ l' → s₁.event = some x → s₁.FindsRoom

/-! ## The loop runs its client -/

section Runs

variable {s s' : RetryState ε} {i : ClientInput 1 ε} {log os : List (ClientObs 1 (LoggerEvent ε))}

theorem construct_cases {content : ε} (hs : s.construct content = some (s', os)) :
    s.client.pc = .idle ∧ ∃ client : ClientState LoggerQueue (LoggerEvent ε),
      s.client.construct (R := 1) ⟨s.count, content⟩ = some (client, os) ∧
      s' = ⟨client, some ⟨s.count, content⟩, s.count + 1⟩ := by
  obtain ⟨⟨client, os'⟩, hclient, heq⟩ := Option.map_eq_some_iff.1 hs
  cases heq
  refine ⟨?_, client, hclient, rfl⟩
  unfold ClientState.construct at hclient
  split at hclient
  · assumption
  · cases hclient

theorem seek_cases (hs : s.seek = some (s', os)) : s.client.pc = .written ∧ os = [] ∧
    ∃ client, s.client.seek (R := 1) = some (client, []) ∧ s' = ⟨client, none, s.count⟩ := by
  obtain ⟨⟨client, os'⟩, hclient, heq⟩ := Option.map_eq_some_iff.1 hs
  cases heq
  unfold ClientState.seek at hclient
  split at hclient
  · rename_i hpc
    cases hclient
    refine ⟨hpc, rfl, _, ?_, rfl⟩
    simp only [ClientState.seek, hpc]
  · cases hclient

/-- A call finds the event in hand, or what the refused call before it has left. -/
theorem atCall_cases (s : RetryState ε) : s.atCall = s.client ∨ ∃ event slab before,
    s.event = some event ∧ s.client.pc = .idle ∧
    s.atCall.slabs s.atCall.allocator.activeSlab = some ⟨s.client.count, event⟩ ∧
    s.client.construct (R := 1) event =
      some (s.atCall, [.constructed slab before ⟨s.client.count, event⟩]) := by
  unfold RetryState.atCall
  split
  · rename_i event hpc hevent
    refine .inr ⟨event, s.client.allocator.activeSlab,
      s.client.slabs s.client.allocator.activeSlab, hevent, hpc, Function.update_self .., ?_⟩
    simp only [ClientState.construct, hpc]
  · exact .inl rfl

/-- Every step of the loop is one or two steps of its client. -/
theorem client_reaches_of_step (hs : (retryMachine ε).step s i = some (s', os)) :
    ∃ os', (loggerClient (LoggerEvent ε)).Reaches s.client s'.client os' ∧
      toLog os' = toLog os ∧ discards os' = discards os := by
  cases i with
  | construct content =>
    obtain ⟨-, client, hclient, rfl⟩ := construct_cases hs
    exact ⟨os, .one (i := .construct _) hclient, rfl, rfl⟩
  | seek =>
    obtain ⟨-, rfl, client, hclient, rfl⟩ := seek_cases hs
    exact ⟨[], .one (i := .seek) hclient, rfl, rfl⟩
  | queue i =>
    obtain ⟨⟨client, os'⟩, hclient, heq⟩ := Option.map_eq_some_iff.1 hs
    cases heq
    exact ⟨os', .one hclient, rfl, rfl⟩
  | tryWrite =>
    obtain ⟨⟨client, os'⟩, hclient, heq⟩ := Option.map_eq_some_iff.1 hs
    cases heq
    have hwrite : (loggerClient (LoggerEvent ε)).Reaches s.atCall client os' :=
      .one (i := .tryWrite) hclient
    rcases atCall_cases s with heq | ⟨event, slab, before, -, -, -, hconstruct⟩
    · rw [heq] at hwrite
      exact ⟨os', hwrite, rfl, rfl⟩
    · have hplace : (loggerClient (LoggerEvent ε)).Reaches s.client s.atCall
          [.constructed slab before ⟨s.client.count, event⟩] := .one (i := .construct _) hconstruct
      exact ⟨_, hplace.trans hwrite, rfl, rfl⟩

/-- The client of the loop keeps its account. -/
def RetryRel (s : RetryState ε) (log : List (ClientObs 1 (LoggerEvent ε))) : Prop :=
  ∃ log', LoggerRel s.client log' ∧ toLog log' = toLog log ∧ discards log' = discards log

theorem RetryRel.step (h : RetryRel s log) (hs : (retryMachine ε).step s i = some (s', os)) :
    RetryRel s' (log ++ os) := by
  obtain ⟨log', hrel, htoLog, hdiscards⟩ := h
  obtain ⟨os', hreach, hos, hos'⟩ := client_reaches_of_step hs
  refine ⟨log' ++ os', hrel.of_reaches hreach, ?_, ?_⟩
  · rw [toLog_append, toLog_append, htoLog, hos]
  · rw [discards_append, discards_append, hdiscards, hos']

theorem retryRel_start {x₀ : ClientState LoggerQueue (LoggerEvent ε)}
    (hx₀ : newClient (LoggerEvent ε) = some x₀) : RetryRel (.start x₀) [] :=
  ⟨[], loggerRel_newClient hx₀, rfl, rfl⟩

/-- The events offered are a legal broadcast. -/
theorem RetryRel.legal (h : RetryRel s log) :
    (spec (Fin 1) (LoggerEvent (LoggerEvent ε)) queueSize).Legal GuardedBroadcast.start
      (toLog log) := by
  obtain ⟨log', hrel, htoLog, -⟩ := h
  exact htoLog ▸ hrel.ok.legal

end Runs

/-! ## Steps of the queue -/

/-- The step leaves the log call alone, and does no more to the slabs than destroy in them. -/
structure KeepsCall (x x' : ClientState LoggerQueue ε) (os : List (ClientObs 1 ε)) : Prop where
  pc : x'.pc = x.pc
  allocator : x'.allocator = x.allocator
  slabs : ∀ p y, x'.slabs p = some y → x.slabs p = some y
  writes : writes (toLog os) = []
  discards : discards os = []

section Queue

variable {x x' : ClientState LoggerQueue ε} {os : List (ClientObs 1 ε)}

theorem eq_some_of_destroyAt {slabs : ℕ → Option (LoggerEvent ε)} {box : Box} {p : ℕ}
    {y : LoggerEvent ε} (h : destroyAt slabs box p = some y) : slabs p = some y := by
  unfold destroyAt at h
  by_cases hp : p = box.slab
  · rw [hp, Function.update_self] at h
    cases h
  · rwa [Function.update_of_ne hp] at h

theorem keepsCall_observe (x : ClientState LoggerQueue ε) {o : Obs (Fin 1) Box}
    (ho : ¬ OfWriter o) : KeepsCall x (x.observe o).1 (x.observe o).2 := by
  cases o with
  | offered | wrote | refused => exact absurd trivial ho
  | destroyed who y =>
    refine ⟨rfl, rfl, fun p z hz => ?_, rfl, rfl⟩
    cases y with
    | none => exact hz
    | some y => exact eq_some_of_destroyAt hz
  | _ => exact ⟨rfl, rfl, fun _ _ => id, rfl, rfl⟩

theorem keepsCall_observeAll (x : ClientState LoggerQueue ε) {qs : List (Obs (Fin 1) Box)}
    (hqs : ∀ o ∈ qs, ¬ OfWriter o) : KeepsCall x (x.observeAll qs).1 (x.observeAll qs).2 := by
  induction qs generalizing x with
  | nil => exact ⟨rfl, rfl, fun _ _ => id, rfl, rfl⟩
  | cons o qs ih =>
    have hfirst := keepsCall_observe x (hqs o List.mem_cons_self)
    have hrest := ih (x.observe o).1 fun o' ho' => hqs o' (List.mem_cons_of_mem o ho')
    simp only [ClientState.observeAll]
    exact {
      pc := hrest.pc.trans hfirst.pc
      allocator := hrest.allocator.trans hfirst.allocator
      slabs := fun p y hy => hfirst.slabs p y (hrest.slabs p y hy)
      writes := by rw [toLog_append, writes_append, hfirst.writes, hrest.writes, List.append_nil]
      discards := by rw [discards_append, hfirst.discards, hrest.discards, List.append_nil] }

/-- A step of the queue leaves the log call alone unless it is the last store of `try_write`. -/
theorem keepsCall_or_wrote {log : List (ClientObs 1 ε)} {i : ObjectInput 1 Box}
    (h : LoggerRel x log) (hi : ∀ box, i ≠ .tryWrite box)
    (hs : x.stepQueue LoggerQueue.machine i = some (x', os)) : KeepsCall x x' os ∨
      ∃ y, x.pc = .writing ∧ x.slabs x.allocator.activeSlab = some y ∧ x'.pc = .written ∧
        os = [.queue (.wrote y)] := by
  unfold ClientState.stepQueue at hs
  split at hs
  · cases hs
  · rename_i queue qs hstep
    rcases (One2One.step_cases hstep).wrote_or_quiet hi with ⟨box, rfl⟩ | hquiet
    · have hlegal := ((One2One.isObjectQueue isCapacity_queueSize).simulates.step h.queue hstep).1
      obtain ⟨y, -, rfl, hpc, hslab⟩ := h.ok.slabs.pending hlegal.1.2.1
      have hactive := h.ok.slabs.activeSlab_eq (.inr hpc)
      cases hs
      refine .inr ⟨y, hpc, hactive ▸ hslab, rfl, ?_⟩
      simp [ClientState.observeAll, ClientState.observe, hslab]
    · left
      have hkeeps := keepsCall_observeAll { x with queue := queue } hquiet
      rw [Option.some.inj hs] at hkeeps
      exact { hkeeps with }

end Queue

/-! ## The account of the events -/

/-- What the loop knows of its events: the one that the pointer refers to lies in the active slab
during its call and is not accepted before, and no event is accepted twice. -/
structure RetryOk (s : RetryState ε) (accepted : List (LoggerEvent ε)) : Prop where
  hand : s.client.pc.InHand → ∃ y : Offer ε,
    s.client.slabs s.client.allocator.activeSlab = some y ∧ s.event = some y.content
  serial : ∀ x, s.event = some x → x.serial < s.count
  old : ∀ x ∈ accepted, x.serial < s.count
  fresh : s.client.pc ≠ .written → ∀ x, s.event = some x → x ∉ accepted
  nodup : accepted.Nodup

section Account

variable {s s' : RetryState ε} {log os : List (ClientObs 1 (LoggerEvent ε))}
  {accepted : List (LoggerEvent ε)}

theorem acceptedEvents_append (l l' : List (ClientObs 1 (LoggerEvent ε))) :
    acceptedEvents (l ++ l') = acceptedEvents l ++ acceptedEvents l' := by
  simp [acceptedEvents]

/-- What a step of the queue does to the loop. -/
theorem queue_cases {i : ObjectInput 1 Box} (h : RetryRel s log)
    (hs : (retryMachine ε).step s (.queue i) = some (s', os)) :
    s'.event = s.event ∧ s'.count = s.count ∧
      (KeepsCall s.client s'.client os ∨
        (s.client.pc = .idle ∧ KeepsCall { s.client with pc := .gone } s'.client os) ∨
        ∃ y, s.client.pc = .writing ∧
          s.client.slabs s.client.allocator.activeSlab = some y ∧ s'.client.pc = .written ∧
          os = [.queue (.wrote y)]) := by
  obtain ⟨log', hrel, -⟩ := h
  obtain ⟨⟨client, os'⟩, hclient, heq⟩ := Option.map_eq_some_iff.1 hs
  cases heq
  refine ⟨rfl, rfl, ?_⟩
  cases i with
  | tryWrite box => cases hclient
  | dropProducer =>
    change s.client.drop LoggerQueue.machine = _ at hclient
    unfold ClientState.drop at hclient
    split at hclient
    · rename_i hpc
      have hgone : LoggerRel { s.client with pc := .gone } log' := hrel.gone hpc
      rcases keepsCall_or_wrote hgone (by simp) hclient with hkeeps | ⟨y, hwriting, -⟩
      · exact .inr (.inl ⟨hpc, hkeeps⟩)
      · cases hwriting
    · cases hclient
  | writer | tryRead r | moveGuard r j | destroyGuard r j | guard r j | dropReader r =>
    rcases keepsCall_or_wrote hrel (by simp) hclient with hkeeps | hwrote
    · exact .inl hkeeps
    · exact .inr (.inr hwrote)

theorem tryWrite_cases {x x' : ClientState LoggerQueue ε} {y : LoggerEvent ε}
    {os : List (ClientObs 1 ε)} (hslab : x.slabs x.allocator.activeSlab = some y)
    (hs : x.tryWrite LoggerQueue.machine = some (x', os)) :
    x.pc = .constructed ∧
      (((x.queue.ring x.queue.writer.impl.nextBucket).seqn = dummyEventSeqNum .uint64 ∧
          os = [.queue (.offered y)] ∧ x'.pc = .writing ∧ x'.allocator = x.allocator ∧
          x'.slabs = x.slabs) ∨
        ((x.queue.ring x.queue.writer.impl.nextBucket).seqn ≠ dummyEventSeqNum .uint64 ∧
          os = [.queue (.offered y), .queue (.refused y), .discarded (some y)] ∧
          x'.pc = .idle)) := by
  unfold ClientState.tryWrite at hs
  split at hs
  · rename_i hpc
    refine ⟨hpc, ?_⟩
    unfold ClientState.stepQueue at hs
    split at hs
    · cases hs
    · rename_i queue qs hstep
      obtain ⟨-, -, ⟨hseqn, rfl⟩ | ⟨hseqn, rfl, -⟩⟩ := One2One.tryWrite_cases hstep
      · cases hs
        refine .inl ⟨hseqn, ?_, rfl, rfl, rfl⟩
        simp [ClientState.observeAll, ClientState.observe, hslab]
      · cases hs
        refine .inr ⟨hseqn, ?_, rfl⟩
        simp [ClientState.observeAll, ClientState.observe, hslab]
  · cases hs

theorem atCall_queue (s : RetryState ε) : s.atCall.queue = s.client.queue := by
  unfold RetryState.atCall
  split
  · rfl
  · rfl

/-- A call offers the event that the pointer refers to, destroyed or not. -/
theorem RetryOk.atCall (h : RetryOk s accepted) (hpc : s.atCall.pc = .constructed) :
    s.client.pc ≠ .written ∧ ∃ y : Offer ε,
      s.atCall.slabs s.atCall.allocator.activeSlab = some y ∧ s.event = some y.content := by
  rcases atCall_cases s with heq | ⟨event, -, -, hevent, hidle, hslab, -⟩
  · rw [heq] at hpc ⊢
    exact ⟨by simp [hpc], h.hand (.inl hpc)⟩
  · exact ⟨by simp [hidle], _, hslab, hevent⟩

/-- What a call of `try_log_event` does before it returns or goes on to write. -/
theorem RetryOk.call_cases (h : RetryOk s accepted)
    (hs : (retryMachine ε).step s .tryWrite = some (s', os)) :
    s'.event = s.event ∧ s'.count = s.count ∧ s.client.pc ≠ .written ∧ ∃ y : Offer ε,
      s.event = some y.content ∧
      ((s.FindsRoom ∧ os = [.queue (.offered y)] ∧
          s'.client.slabs s'.client.allocator.activeSlab = some y) ∨
        (¬ s.FindsRoom ∧ os = [.queue (.offered y), .queue (.refused y), .discarded (some y)] ∧
          s'.client.pc = .idle)) := by
  obtain ⟨⟨client, os'⟩, hclient, heq⟩ := Option.map_eq_some_iff.1 hs
  cases heq
  have hpc : s.atCall.pc = .constructed := by
    unfold ClientState.tryWrite at hclient
    split at hclient
    · assumption
    · cases hclient
  obtain ⟨hne, y, hslab, hevent⟩ := h.atCall hpc
  obtain ⟨-, hcases⟩ := tryWrite_cases hslab hclient
  rw [atCall_queue] at hcases
  refine ⟨rfl, rfl, hne, y, hevent, ?_⟩
  rcases hcases with ⟨hroom, hos, -, halloc, hslabs⟩ | ⟨hfull, hos, hidle⟩
  · refine .inl ⟨hroom, hos, ?_⟩
    simp only [halloc, hslabs]
    exact hslab
  · exact .inr ⟨hfull, hos, hidle⟩

theorem RetryOk.construct (h : RetryOk s accepted) {content : ε}
    (hs : s.construct content = some (s', os)) :
    RetryOk s' accepted ∧ writes (toLog os) = [] := by
  obtain ⟨hpc, client, hclient, rfl⟩ := construct_cases hs
  simp only [ClientState.construct, hpc, Option.some.injEq, Prod.mk.injEq] at hclient
  obtain ⟨rfl, rfl⟩ := hclient
  refine ⟨{ hand := fun _ => ⟨_, Function.update_self .., rfl⟩, serial := ?_, old := ?_,
            fresh := fun _ => ?_, nodup := h.nodup }, rfl⟩
  · rintro x ⟨⟩
    exact Nat.lt_succ_self _
  · exact fun x hx => Nat.lt_succ_of_lt (h.old x hx)
  · rintro x ⟨⟩ hx
    exact lt_irrefl _ (h.old _ hx)

theorem RetryOk.call (h : RetryOk s accepted)
    (hs : (retryMachine ε).step s .tryWrite = some (s', os)) :
    RetryOk s' accepted ∧ writes (toLog os) = [] := by
  obtain ⟨hevent, hcount, hne, y, hy, hcases⟩ := h.call_cases hs
  have hhand : s'.client.pc.InHand → ∃ y : Offer ε,
      s'.client.slabs s'.client.allocator.activeSlab = some y ∧ s'.event = some y.content := by
    intro hhand
    rcases hcases with ⟨-, -, hslab⟩ | ⟨-, -, hidle⟩
    · exact ⟨y, hslab, hevent.trans hy⟩
    · simp [ClientPc.InHand, hidle] at hhand
  refine ⟨{ hand := hhand, serial := ?_, old := ?_, fresh := fun _ => ?_, nodup := h.nodup }, ?_⟩
  · rw [hevent, hcount]
    exact h.serial
  · rw [hcount]
    exact h.old
  · rw [hevent]
    exact h.fresh hne
  · rcases hcases with ⟨-, rfl, -⟩ | ⟨-, rfl, -⟩
    · rfl
    · rfl

theorem RetryOk.seek (h : RetryOk s accepted) (hs : s.seek = some (s', os)) :
    RetryOk s' accepted ∧ writes (toLog os) = [] := by
  obtain ⟨hpc, rfl, client, hclient, rfl⟩ := seek_cases hs
  simp only [ClientState.seek, hpc, Option.some.injEq, Prod.mk.injEq, and_true] at hclient
  subst hclient
  exact ⟨{ hand := fun hhand => absurd hhand (by simp [ClientPc.InHand]),
           serial := by simp, old := h.old, fresh := by simp, nodup := h.nodup }, rfl⟩

/-- A step that leaves the log call alone. -/
theorem RetryOk.keeps (h : RetryOk s accepted) (hrel : RetryRel s' log)
    (hevent : s'.event = s.event) (hcount : s'.count = s.count)
    (hkeeps : KeepsCall s.client s'.client os) : RetryOk s' accepted where
  hand := by
    intro hhand
    obtain ⟨y, hy, hy'⟩ := h.hand (hkeeps.pc ▸ hhand)
    obtain ⟨log', hclient, -⟩ := hrel
    obtain ⟨y', hslab⟩ := hclient.ok.slabs.hand hhand
    rw [← hclient.ok.slabs.activeSlab_eq hhand] at hslab
    have hbefore := hkeeps.slabs _ _ hslab
    rw [hkeeps.allocator, hy] at hbefore
    exact ⟨y', hslab, hevent.trans (hy'.trans (Option.some.inj hbefore ▸ rfl))⟩
  serial := by rw [hevent, hcount]; exact h.serial
  old := by rw [hcount]; exact h.old
  fresh := by rw [hkeeps.pc, hevent]; exact h.fresh
  nodup := h.nodup

theorem RetryOk.gone (h : RetryOk s accepted) (hpc : s.client.pc = .idle) :
    RetryOk { s with client := { s.client with pc := .gone } } accepted :=
  { h with
    hand := fun hhand => absurd hhand (by simp [ClientPc.InHand])
    fresh := fun _ => h.fresh (by simp [hpc]) }

/-- The event of the call is accepted. -/
theorem RetryOk.wrote (h : RetryOk s accepted) (hevent : s'.event = s.event)
    (hcount : s'.count = s.count) (hpc : s.client.pc = .writing) {y : Offer ε}
    (hslab : s.client.slabs s.client.allocator.activeSlab = some y)
    (hpc' : s'.client.pc = .written) :
    s.event = some y.content ∧ RetryOk s' (accepted ++ [y.content]) := by
  obtain ⟨y', hy', hy⟩ := h.hand (.inr hpc)
  obtain rfl : y' = y := Option.some.inj (hy'.symm.trans hslab)
  have hfresh := h.fresh (by simp [hpc]) _ hy
  refine ⟨hy, { hand := fun hhand => absurd hhand (by simp [ClientPc.InHand, hpc'])
                serial := ?_, old := ?_, fresh := fun hne => absurd hpc' hne, nodup := ?_ }⟩
  · rw [hevent, hcount]
    exact h.serial
  · intro x hx
    rw [hcount]
    rcases List.mem_append.1 hx with hx | hx
    · exact h.old x hx
    · rw [List.mem_singleton.1 hx]
      exact h.serial _ hy
  · rw [List.nodup_append]
    refine ⟨h.nodup, List.nodup_singleton _, fun x hx z hz heq => ?_⟩
    rw [List.mem_singleton.1 hz] at heq
    exact hfresh (heq ▸ hx)

theorem RetryOk.queue {i : ObjectInput 1 Box} (h : RetryOk s (acceptedEvents log))
    (hrel : RetryRel s log) (hs : (retryMachine ε).step s (.queue i) = some (s', os)) :
    RetryOk s' (acceptedEvents (log ++ os)) := by
  have hrel' := hrel.step hs
  obtain ⟨hevent, hcount, hkeeps | ⟨hpc, hkeeps⟩ | ⟨y, hpc, hslab, hpc', rfl⟩⟩ := queue_cases hrel hs
  · have hquiet : acceptedEvents os = [] := by rw [acceptedEvents, hkeeps.writes]; rfl
    rw [acceptedEvents_append, hquiet, List.append_nil]
    exact h.keeps hrel' hevent hcount hkeeps
  · have hquiet : acceptedEvents os = [] := by rw [acceptedEvents, hkeeps.writes]; rfl
    rw [acceptedEvents_append, hquiet, List.append_nil]
    exact (h.gone hpc).keeps hrel' hevent hcount hkeeps
  · rw [acceptedEvents_append]
    exact (h.wrote hevent hcount hpc hslab hpc').2

/-- Every step of the loop keeps the account of its events. -/
theorem RetryOk.step {i : ClientInput 1 ε} (h : RetryOk s (acceptedEvents log))
    (hrel : RetryRel s log) (hs : (retryMachine ε).step s i = some (s', os)) :
    RetryOk s' (acceptedEvents (log ++ os)) := by
  have hquiet : RetryOk s' (acceptedEvents log) ∧ writes (toLog os) = [] →
      RetryOk s' (acceptedEvents (log ++ os)) := by
    rintro ⟨hok, hos⟩
    have hnil : acceptedEvents os = [] := by rw [acceptedEvents, hos]; rfl
    rwa [acceptedEvents_append, hnil, List.append_nil]
  cases i with
  | construct content => exact hquiet (h.construct hs)
  | tryWrite => exact hquiet (h.call hs)
  | seek => exact hquiet (h.seek hs)
  | queue i => exact h.queue hrel hs

theorem retryOk_of_reaches {x₀ : ClientState LoggerQueue (LoggerEvent ε)}
    (hx₀ : newClient (LoggerEvent ε) = some x₀)
    (h : (retryMachine ε).Reaches (.start x₀) s log) :
    RetryRel s log ∧ RetryOk s (acceptedEvents log) := by
  refine h.invariant (I := fun s log => RetryRel s log ∧ RetryOk s (acceptedEvents log)) ?_
    fun _ _ _ _ _ hi hs => ⟨hi.1.step hs, hi.2.step hi.1 hs⟩
  refine ⟨retryRel_start hx₀, ?_⟩
  rw [newClient_eq, Option.some.injEq] at hx₀
  subst hx₀
  exact { hand := fun hhand => absurd hhand (by simp [ClientPc.InHand, RetryState.start,
            ClientState.start]),
          serial := by simp [RetryState.start], old := by simp [acceptedEvents, toLog, writes],
          fresh := by simp [RetryState.start], nodup := List.nodup_nil }

end Account

/-! ## The ends of the events -/

section Ends

variable {x₀ : ClientState LoggerQueue (LoggerEvent ε)} {s s' : RetryState ε}
  {log os : List (ClientObs 1 (LoggerEvent ε))} {accepted : List (LoggerEvent ε)}
  {x : LoggerEvent ε} {y : Offer ε}

/-- The temporary box destroys the event of a call that finds no room, and nothing else. -/
theorem discarded_cases {i : ClientInput 1 ε} (hok : RetryOk s accepted) (hrel : RetryRel s log)
    (hs : (retryMachine ε).step s i = some (s', os)) (hy : .discarded (some y) ∈ os) :
    i = .tryWrite ∧ s.event = some y.content ∧ ¬ s.FindsRoom ∧
      os = [.queue (.offered y), .queue (.refused y), .discarded (some y)] := by
  cases i with
  | construct content =>
    obtain ⟨hpc, client, hclient, rfl⟩ := construct_cases hs
    simp only [ClientState.construct, hpc, Option.some.injEq, Prod.mk.injEq] at hclient
    simp [← hclient.2] at hy
  | tryWrite =>
    obtain ⟨-, -, -, y', hevent, ⟨-, rfl, -⟩ | ⟨hfull, rfl, -⟩⟩ := hok.call_cases hs
    · simp at hy
    · obtain rfl : y = y' := by simpa using hy
      exact ⟨rfl, hevent, hfull, rfl⟩
  | seek =>
    obtain ⟨-, rfl, -⟩ := seek_cases hs
    exact absurd hy List.not_mem_nil
  | queue i =>
    obtain ⟨-, -, hkeeps | ⟨-, hkeeps⟩ | ⟨y', -, -, -, rfl⟩⟩ := queue_cases hrel hs
    · rw [← mem_discards, hkeeps.discards] at hy
      exact absurd hy List.not_mem_nil
    · rw [← mem_discards, hkeeps.discards] at hy
      exact absurd hy List.not_mem_nil
    · simp at hy

/-- The temporary box destroys an event when one of its calls finds no room. -/
theorem foundRoom_iff (hx₀ : newClient (LoggerEvent ε) = some x₀)
    (h : (retryMachine ε).Reaches (.start x₀) s log) :
    FoundRoom x (.start x₀) s log ↔ ∀ y : Offer ε, .discarded (some y) ∈ log → y.content ≠ x := by
  constructor
  · rintro hfound y hy rfl
    obtain ⟨l, s₁, i, s₂, os, l', hl, hi, hl', heq, hmem⟩ := h.exists_step hy
    obtain ⟨hrel, hok⟩ := retryOk_of_reaches hx₀ hl
    obtain ⟨rfl, hevent, hfull, -⟩ := discarded_cases hok hrel hi hmem
    exact hfull (hfound l s₁ os s₂ l' hl hi hl' heq hevent)
  · rintro hkept l s₁ os s₂ l' hl hi hl' rfl hevent
    by_contra hfull
    obtain ⟨-, hok⟩ := retryOk_of_reaches hx₀ hl
    obtain ⟨-, -, -, y, hy, ⟨hroom, -⟩ | ⟨-, rfl, -⟩⟩ := hok.call_cases hi
    · exact hfull hroom
    · exact hkept y (by simp) (Option.some.inj (hy.symm.trans hevent))

/-- An event that was refused is destroyed before it is accepted. -/
theorem not_endsOnce_of_discarded [DecidableEq ε] (hx₀ : newClient (LoggerEvent ε) = some x₀)
    (h : (retryMachine ε).Reaches (.start x₀) s log) (hy : .discarded (some y) ∈ log) :
    ¬ EndsOnce y.content log := by
  intro hends
  obtain ⟨l, s₁, i, s₂, os, l', hl, hi, -, rfl, hmem⟩ := h.exists_step hy
  obtain ⟨hrel, hok⟩ := retryOk_of_reaches hx₀ hl
  obtain ⟨rfl, hevent, -, rfl⟩ := discarded_cases hok hrel hi hmem
  obtain ⟨-, -, hne, -⟩ := hok.call_cases hi
  obtain ⟨k, hk, -⟩ := hends.after (l ++ [.queue (.offered y), .queue (.refused y)])
    (.discarded (some y)) l' (by simp) rfl
  rw [acceptedEvents_append] at hk
  rcases List.mem_append.1 (List.mem_of_getElem? hk) with hmem | hmem
  · exact hok.fresh hne _ hevent hmem
  · exact absurd hmem List.not_mem_nil

theorem acceptedEvents_eq (log : List (ClientObs 1 (LoggerEvent ε))) :
    acceptedEvents log = (numbered (writes (toLog log))).map fun z => z.value.content := by
  have hcomp := List.map_map (f := Stored.value) (g := LoggerEvent.content)
    (l := numbered (writes (toLog log)))
  rw [numbered_map_value] at hcomp
  exact hcomp

/-- An accepted event is destroyed once for each refusal, and once more unless it is left. -/
theorem count_ended [DecidableEq ε] (hrel : RetryRel s log) (hok : RetryOk s (acceptedEvents log))
    (hx : x ∈ acceptedEvents log) : ((ended log).map LoggerEvent.content).count x +
      ((survivors (toLog log)).map fun z => z.value.content).count x =
      ((discards log).map LoggerEvent.content).count x + 1 := by
  have hended := ((ended_perm log).map LoggerEvent.content).count_eq x
  have hwritten := ((destroyedObjects_append_survivors hrel.legal).map
    fun z => z.value.content).count_eq x
  have hone : (acceptedEvents log).count x = 1 := List.count_eq_one_of_mem hok.nodup hx
  rw [acceptedEvents_eq] at hone
  rw [hone, List.map_append, List.count_append] at hwritten
  rw [List.map_append, List.count_append, List.map_map] at hended
  change _ = _ + ((destroyedObjects (toLog log)).map fun z => z.value.content).count x at hended
  omega

/-- What the queue destroys it has accepted, and its consumer is done with it. -/
theorem consumerDone_of_destroyed {l l' : List (Obs (Fin 1) (Offer ε))} {who : Option (Fin 1)}
    {z : Stored (Offer ε)} (h : (spec (Fin 1) (Offer ε) queueSize).Legal GuardedBroadcast.start
      (l ++ .destroyed who (some z) :: l')) :
    ∃ k, (writes l)[k]? = some z.value ∧ ConsumerDone k l l' := by
  cases who with
  | some r =>
    obtain ⟨k, hk, -, hdropped, -⟩ := destroyed_by_last h
    exact ⟨k, getElem_of_numbered hk.symm, .inl (hdropped 0)⟩
  | none =>
    obtain ⟨hquiet, k, hk, -⟩ := destroyed_by_teardown h
    exact ⟨k, getElem_of_numbered hk.symm, .inr ⟨hquiet 0 k, fun _ => not_read_of_teardown h 0⟩⟩

/-- An event that was never refused ends with its guard or with the ring. -/
theorem endsOnce_of_kept [DecidableEq ε] (hrel : RetryRel s log)
    (hok : RetryOk s (acceptedEvents log)) (hx : x ∈ acceptedEvents log)
    (hkept : ∀ y : Offer ε, .discarded (some y) ∈ log → y.content ≠ x) : EndsOnce x log := by
  have hcount := count_ended hrel hok hx
  have hnone : ((discards log).map LoggerEvent.content).count x = 0 := by
    rw [List.count_eq_zero]
    intro hmem
    obtain ⟨y, hy, rfl⟩ := List.mem_map.1 hmem
    exact hkept y (mem_discards.1 hy) rfl
  refine ⟨by omega, fun hclosed => ?_, ?_⟩
  · rw [survivors_eq_nil hrel.legal hclosed, hnone] at hcount
    exact hcount
  · rintro l o l' rfl ho
    cases o with
    | constructed slab before y => exact absurd ho id
    | discarded y =>
      cases y with
      | none => exact absurd ho id
      | some y => exact absurd ho (hkept y (by simp))
    | queue o =>
      cases o with
      | destroyed who z =>
        cases z with
        | none => exact absurd ho id
        | some z =>
          have hlegal := hrel.legal
          rw [toLog_append] at hlegal
          obtain ⟨k, hk, hdone⟩ := consumerDone_of_destroyed hlegal
          refine ⟨k, ?_, hdone⟩
          rw [acceptedEvents, List.getElem?_map, hk]
          exact congrArg some ho
      | _ => exact absurd ho id

/-- An event that is accepted in the end is destroyed once, after its consumer is done with it,
exactly when none of its calls was refused. -/
theorem endsOnce_iff [DecidableEq ε] (hx₀ : newClient (LoggerEvent ε) = some x₀)
    (h : (retryMachine ε).Reaches (.start x₀) s log) (hx : x ∈ acceptedEvents log) :
    EndsOnce x log ↔ FoundRoom x (.start x₀) s log := by
  rw [foundRoom_iff hx₀ h]
  constructor
  · rintro hends y hy rfl
    exact not_endsOnce_of_discarded hx₀ h hy hends
  · obtain ⟨hrel, hok⟩ := retryOk_of_reaches hx₀ h
    exact endsOnce_of_kept hrel hok hx

/-- One event that is accepted at once, up to the destruction of its guard. -/
theorem endsOnce_first : ∃ (x₀ : ClientState LoggerQueue (LoggerEvent ℕ)) (s : RetryState ℕ)
    (log : List (ClientObs 1 (LoggerEvent ℕ))), newClient (LoggerEvent ℕ) = some x₀ ∧
    (retryMachine ℕ).Reaches (.start x₀) s log ∧ ⟨0, 7⟩ ∈ acceptedEvents log ∧
    EndsOnce ⟨0, 7⟩ log ∧ ended log = [⟨0, ⟨0, 7⟩⟩] := by
  have hrun := Machine.Reaches.of_run (show (retryMachine ℕ).run (.start (.start
    (.start Box ⟨producerAfter .uint64 queueSize 1, [.new (queueSize - 1) 0]⟩ true)
    (.ofCapacity queueSize)))
    [.construct 7, .tryWrite, .queue .writer, .queue .writer, .seek, .queue (.tryRead 0),
      .queue (.destroyGuard 0 0), .queue (.guard 0 0)] = some (_, _) from rfl)
  have hfound := (foundRoom_iff (x := ⟨0, 7⟩) newClient_eq hrun).2 fun y hy =>
    absurd (mem_discards.2 hy) List.not_mem_nil
  have hends := (endsOnce_iff newClient_eq hrun (List.mem_singleton.2 rfl)).2 hfound
  exact ⟨_, _, _, newClient_eq, hrun, List.mem_singleton.2 rfl, hends, rfl⟩

end Ends

/-! ## A full ring -/

/-- Where a loop stands whose thread is alone with the consumer. -/
structure RetryAt (s : RetryState ε) (pc : ClientPc) (steps accepted taken : ℕ)
    (guards : List (ℕ × GuardPc)) (event : Option (LoggerEvent ε)) (count : ℕ) : Prop where
  client : ClientAt s.client pc steps accepted taken guards
  event : s.event = event
  count : s.count = count

/-- `n` log calls that the queue accepts. -/
def logCalls (content : ε) : ℕ → List (ClientInput 1 ε)
  | 0 => []
  | n + 1 => logCalls content n ++
    [.construct content, .tryWrite, .queue .writer, .queue .writer, .seek]

section Full

variable {x₀ : ClientState LoggerQueue (LoggerEvent ε)} {s s' : RetryState ε}
  {log : List (ClientObs 1 (LoggerEvent ε))} {pc pc' : ClientPc}
  {steps steps' accepted accepted' taken taken' count : ℕ} {guards guards' : List (ℕ × GuardPc)}
  {event : Option (LoggerEvent ε)} {x : LoggerEvent ε}

theorem RetryRel.openRel (h : RetryRel s log) (hpc : s.client.pc ≠ .gone) :
    ∃ phase a, One2One.OpenRel queueSize phase s.client.queue a := by
  obtain ⟨log', hrel, -⟩ := h
  rcases hrel.queue with ⟨phase, hopen⟩ | hclosed
  · exact ⟨phase, _, hopen⟩
  · have hproducer := hrel.producer hpc
    rw [hclosed.spent.producer] at hproducer
    cases hproducer

theorem RetryAt.construct (h : RetryAt s .idle 0 accepted taken guards event count) (content : ε) :
    ∃ s' os, (retryMachine ε).step s (.construct content) = some (s', os) ∧
      RetryAt s' .constructed 0 accepted taken guards (some ⟨count, content⟩) (count + 1) := by
  obtain ⟨client, os, hstep, hclient⟩ := h.client.construct ⟨s.count, content⟩
  refine ⟨_, os, Option.map_eq_some_iff.2 ⟨_, hstep, rfl⟩, hclient, ?_, ?_⟩
  · rw [h.count]
  · rw [h.count]

theorem RetryAt.atCall_constructed
    (h : RetryAt s .constructed steps accepted taken guards event count) :
    ClientAt s.atCall .constructed steps accepted taken guards := by
  have heq : s.atCall = s.client := by simp only [RetryState.atCall, h.client.pc]
  exact heq ▸ h.client

/-- The event of the refused call is offered again. -/
theorem RetryAt.atCall_refused (h : RetryAt s .idle steps accepted taken guards (some x) count) :
    ClientAt s.atCall .constructed steps accepted taken guards := by
  simp only [RetryState.atCall, h.client.pc, h.event]
  exact { h.client with pc := rfl }

/-- A call of `try_log_event` with an event. -/
theorem RetryAt.call (h : RetryAt s pc 0 accepted taken [] event count)
    (hcall : ClientAt s.atCall .constructed 0 accepted taken []) (hrel : RetryRel s log)
    (hpc : pc ≠ .gone) : ∃ s' os, (retryMachine ε).step s .tryWrite = some (s', os) ∧
      ((¬ taken + queueSize ≤ accepted ∧ RetryAt s' .writing 2 accepted taken [] event count) ∨
        (taken + queueSize ≤ accepted ∧ ¬ s.FindsRoom ∧
          RetryAt s' .idle 0 accepted taken [] event count)) := by
  obtain ⟨phase, a, hopen⟩ := hrel.openRel (h.client.pc ▸ hpc)
  have hfree := nextBucket_free_iff hopen (List.map_eq_nil_iff.1 h.client.guards)
  rw [h.client.accepted, h.client.taken] at hfree
  obtain ⟨client, os, hstep, hload⟩ := hcall.tryWrite
  refine ⟨_, os, Option.map_eq_some_iff.2 ⟨_, hstep, rfl⟩, ?_⟩
  rw [atCall_queue] at hload
  rcases hload with ⟨hseqn, hclient⟩ | ⟨hseqn, hclient⟩
  · exact .inl ⟨hfree.1 hseqn, hclient, h.event, h.count⟩
  · exact .inr ⟨not_not.1 (mt hfree.2 hseqn), hseqn, hclient, h.event, h.count⟩

theorem RetryAt.queue (h : RetryAt s pc steps accepted taken guards event count)
    {i : ObjectInput 1 Box} (hstep : ∃ client os,
      (loggerClient (LoggerEvent ε)).step s.client (.queue i) = some (client, os) ∧
        ClientAt client pc' steps' accepted' taken' guards') :
    ∃ s' os, (retryMachine ε).step s (.queue i) = some (s', os) ∧
      RetryAt s' pc' steps' accepted' taken' guards' event count := by
  obtain ⟨client, os, hclient, hat⟩ := hstep
  exact ⟨_, os, Option.map_eq_some_iff.2 ⟨_, hclient, rfl⟩, hat, h.event, h.count⟩

theorem RetryAt.seek (h : RetryAt s .written 0 accepted taken guards event count) :
    ∃ s' os, (retryMachine ε).step s .seek = some (s', os) ∧
      RetryAt s' .idle 0 accepted taken guards none count := by
  obtain ⟨client, os, hclient, hat⟩ := h.client.seek
  exact ⟨_, os, Option.map_eq_some_iff.2 ⟨_, hclient, rfl⟩, hat, rfl, h.count⟩

/-- One more log call, as long as there is room. -/
theorem RetryAt.logCall (h : RetryAt s .idle 0 accepted taken [] none count)
    (hrel : RetryRel s log) (hroom : ¬ taken + queueSize ≤ accepted) (content : ε) : ∃ s' os,
      (retryMachine ε).run s
        [.construct content, .tryWrite, .queue .writer, .queue .writer, .seek] = some (s', os) ∧
      RetryAt s' .idle 0 (accepted + 1) taken [] none (count + 1) := by
  obtain ⟨s₁, os₁, h₁, hat₁⟩ := h.construct content
  obtain ⟨s₂, os₂, h₂, ⟨-, hat₂⟩ | ⟨hfull, -⟩⟩ :=
    hat₁.call hat₁.atCall_constructed (hrel.step h₁) (by simp)
  · obtain ⟨s₃, os₃, h₃, hat₃⟩ := hat₂.queue hat₂.client.write
    obtain ⟨s₄, os₄, h₄, hat₄⟩ := hat₃.queue hat₃.client.publish
    obtain ⟨s₅, os₅, h₅, hat₅⟩ := hat₄.seek
    have hwrite := Machine.run_cons h₃ (Machine.run_cons h₄ (Machine.run_one h₅))
    exact ⟨s₅, _, Machine.run_cons h₁ (Machine.run_cons h₂ hwrite), hat₅⟩
  · exact absurd hfull hroom

/-- As many log calls as the queue has places. -/
theorem exists_logCalls (hx₀ : newClient (LoggerEvent ε) = some x₀) (content : ε) :
    ∀ n ≤ queueSize, ∃ s log,
      (retryMachine ε).run (.start x₀) (logCalls content n) = some (s, log) ∧
      RetryAt s .idle 0 n 0 [] none n
  | 0, _ => by
    rw [newClient_eq, Option.some.injEq] at hx₀
    subst hx₀
    exact ⟨_, _, rfl, ⟨rfl, rfl, rfl, rfl, rfl, fun g hg => absurd hg List.not_mem_nil, rfl, rfl⟩,
      rfl, rfl⟩
  | n + 1, hn => by
    obtain ⟨s, log, hrun, hat⟩ := exists_logCalls hx₀ content n (Nat.le_of_succ_le hn)
    obtain ⟨hrel, -⟩ := retryOk_of_reaches hx₀ (.of_run hrun)
    obtain ⟨s', os, hcall, hat'⟩ := hat.logCall hrel (by omega) content
    exact ⟨s', _, Machine.run_append hrun hcall, hat'⟩

/-- The consumer takes an event and destroys its guard. -/
theorem RetryAt.consume (h : RetryAt s pc steps accepted taken [] event count)
    (hrel : RetryRel s log) (hpc : pc ≠ .gone) (hlt : taken < accepted) : ∃ s' os,
      (retryMachine ε).run s
        [.queue (.tryRead 0), .queue (.destroyGuard 0 0), .queue (.guard 0 0)] = some (s', os) ∧
      RetryAt s' pc steps accepted (taken + 1) [] event count := by
  obtain ⟨phase, a, hopen⟩ := hrel.openRel (h.client.pc ▸ hpc)
  have hreadable := readable_iff_of_open hopen h.client.alive
  rw [h.client.accepted, h.client.taken] at hreadable
  obtain ⟨client, e, hread, hclient⟩ := h.client.tryRead (hreadable.2 hlt) (hopen.core.id 0)
  obtain ⟨s₁, os₁, h₁, hat₁⟩ := h.queue ⟨client, _, hread, hclient⟩
  have hdestroy := hat₁.client.destroyGuard
  obtain ⟨-, -, -, -, hplace⟩ := hat₁.client.guard_eq
  rw [hplace] at hdestroy
  obtain ⟨s₂, os₂, h₂, hat₂⟩ := hat₁.queue hdestroy
  have hfree := hat₂.client.freeGuard
  obtain ⟨-, -, -, -, hplace⟩ := hat₂.client.guard_eq
  rw [hplace] at hfree
  obtain ⟨s₃, os₃, h₃, hat₃⟩ := hat₂.queue hfree
  exact ⟨s₃, _, Machine.run_cons h₁ (Machine.run_cons h₂ (Machine.run_one h₃)), hat₃⟩

/-- What `try_write` publishes is the event of the call. -/
theorem acceptedEvents_publish {os : List (ClientObs 1 (LoggerEvent ε))} {i : ObjectInput 1 Box}
    {l : List (LoggerEvent ε)} (hrel : RetryRel s log) (hok : RetryOk s l)
    (hs : (retryMachine ε).step s (.queue i) = some (s', os)) (hpc : s.client.pc = .writing)
    (hpc' : s'.client.pc = .written) (hx : s.event = some x) : acceptedEvents os = [x] := by
  obtain ⟨hevent, hcount, hkeeps | ⟨hidle, -⟩ | ⟨y, -, hslab, -, rfl⟩⟩ := queue_cases hrel hs
  · have hsame := hkeeps.pc
    rw [hpc, hpc'] at hsame
    cases hsame
  · rw [hpc] at hidle
    cases hidle
  · have hy := (hok.wrote hevent hcount hpc hslab hpc').1
    rw [hx, Option.some.injEq] at hy
    rw [hy]
    rfl

/-- The event that is offered again is accepted after one event was taken. -/
theorem RetryAt.retry (h : RetryAt s .idle 0 queueSize 0 [] (some x) count)
    (hx₀ : newClient (LoggerEvent ε) = some x₀)
    (hreach : (retryMachine ε).Reaches (.start x₀) s log) : ∃ s' os,
      (retryMachine ε).run s [.queue (.tryRead 0), .queue (.destroyGuard 0 0), .queue (.guard 0 0),
        .tryWrite, .queue .writer, .queue .writer] = some (s', os) ∧ x ∈ acceptedEvents os := by
  obtain ⟨s₁, os₁, h₁, hat₁⟩ := h.consume (retryOk_of_reaches hx₀ hreach).1 (by simp) (by decide)
  have hreach₁ := hreach.trans (.of_run h₁)
  obtain ⟨s₂, os₂, h₂, ⟨-, hat₂⟩ | ⟨hfull, -⟩⟩ :=
    hat₁.call hat₁.atCall_refused (retryOk_of_reaches hx₀ hreach₁).1 (by simp)
  · obtain ⟨s₃, os₃, h₃, hat₃⟩ := hat₂.queue hat₂.client.write
    obtain ⟨s₄, os₄, h₄, hat₄⟩ := hat₃.queue hat₃.client.publish
    have hreach₃ := (hreach₁.step _ h₂).step _ h₃
    obtain ⟨hrel, hok⟩ := retryOk_of_reaches hx₀ hreach₃
    have haccepted := acceptedEvents_publish hrel hok h₄ hat₃.client.pc hat₄.client.pc hat₃.event
    refine ⟨s₄, _, Machine.run_append h₁ (Machine.run_cons h₂ (Machine.run_cons h₃
      (Machine.run_one h₄))), ?_⟩
    simp [acceptedEvents_append, haccepted]
  · omega

/-- A call finds the ring full, and the next one has room again. -/
theorem exists_refused (hx₀ : newClient (LoggerEvent ε) = some x₀) (content : ε) : ∃ s log,
    (retryMachine ε).run (.start x₀) (logCalls content queueSize ++ [.construct content, .tryWrite,
      .queue (.tryRead 0), .queue (.destroyGuard 0 0), .queue (.guard 0 0),
      .tryWrite, .queue .writer, .queue .writer]) = some (s, log) ∧
    ⟨queueSize, content⟩ ∈ acceptedEvents log ∧
    ∃ y : Offer ε, .discarded (some y) ∈ log ∧ y.content = ⟨queueSize, content⟩ := by
  obtain ⟨s, log, hrun, hat⟩ := exists_logCalls hx₀ content queueSize le_rfl
  obtain ⟨s₁, os₁, h₁, hat₁⟩ := hat.construct content
  have hreach₁ := (Machine.Reaches.of_run hrun).step _ h₁
  obtain ⟨hrel, hok⟩ := retryOk_of_reaches hx₀ hreach₁
  obtain ⟨s₂, os₂, h₂, ⟨hroom, -⟩ | ⟨-, hfull, hat₂⟩⟩ :=
    hat₁.call hat₁.atCall_constructed hrel (by simp)
  · omega
  · obtain ⟨s₃, os₃, h₃, haccepted⟩ := hat₂.retry hx₀ (hreach₁.step _ h₂)
    refine ⟨s₃, _, Machine.run_append hrun (Machine.run_cons h₁ (Machine.run_cons h₂ h₃)), ?_, ?_⟩
    · simp [acceptedEvents_append, haccepted]
    · obtain ⟨-, -, -, y, hy, ⟨hroom, -⟩ | ⟨-, rfl, -⟩⟩ := hok.call_cases h₂
      · exact absurd hroom hfull
      · exact ⟨y, by simp, Option.some.inj (hy.symm.trans hat₁.event)⟩

/-- The event whose first call finds the ring full is destroyed before it is accepted. -/
theorem not_endsOnce_full : ∃ (x₀ : ClientState LoggerQueue (LoggerEvent ℕ)) (s : RetryState ℕ)
    (log : List (ClientObs 1 (LoggerEvent ℕ))), newClient (LoggerEvent ℕ) = some x₀ ∧
    (retryMachine ℕ).run (.start x₀) (logCalls 7 4096 ++ [.construct 7, .tryWrite,
      .queue (.tryRead 0), .queue (.destroyGuard 0 0), .queue (.guard 0 0),
      .tryWrite, .queue .writer, .queue .writer]) = some (s, log) ∧
    ⟨4096, 7⟩ ∈ acceptedEvents log ∧ ¬ EndsOnce ⟨4096, 7⟩ log := by
  obtain ⟨s, log, hrun, haccepted, y, hy, hcontent⟩ := exists_refused newClient_eq 7
  refine ⟨_, s, log, newClient_eq, hrun, haccepted, ?_⟩
  have hends := not_endsOnce_of_discarded newClient_eq (.of_run hrun) hy
  rwa [hcontent] at hends

end Full

end Ihft.Logger
