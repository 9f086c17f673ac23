import Ihft.Logger.AdapterStep

/-!
# Concurrent calls of `dispatch`

Between its first locked section and its notify a call of `dispatch` leaves the text of its event in
the stream of the adapter, with the mutex released.  Another call can take the next event meanwhile
and format it into the same stream; then the first listener is notified with the text of the second
event.  As long as no event is taken in such a moment (`Undisturbed`), every event taken is passed
on once, as its own text.
-/

namespace Ihft.Logger

open Observe GuardedBroadcast Channel

variable {δ ε : Type*}

/-- The call is between its first locked section and its notify. -/
def DispatchPc.Pending : DispatchPc ε → Prop
  | .notify .. => True
  | _ => False

/-- The next `try_read` of the consumer yields an event. -/
def LoggerQueue.Readable (queue : LoggerQueue) : Prop :=
  (queue.readers 0).alive = true ∧
    (queue.ring (queue.readers 0).reader.nextBucket).seqn = (queue.readers 0).reader.next

instance : DecidablePred (DispatchPc.Pending (ε := ε)) := fun pc => by
  unfold DispatchPc.Pending
  split <;> infer_instance

instance (queue : LoggerQueue) : Decidable queue.Readable :=
  inferInstanceAs (Decidable (_ ∧ _))

/-- The text that waits in the stream for the notify of `d`, with its event. -/
def LoggerAdapter.pending (s : LoggerAdapter δ ε) (d : δ) :
    List (ℕ × Option (Stored (LoggerEvent ε)) × String) :=
  match s.pc d with
  | .notify _ c _ event _ => [(c, event, s.sstream.str)]
  | _ => []

theorem LoggerAdapter.pending_eq_nil {s : LoggerAdapter δ ε} {d : δ} (h : ¬ (s.pc d).Pending) :
    s.pending d = [] := by
  unfold pending
  split
  · rename_i hpc
    rw [hpc] at h
    exact absurd trivial h
  · rfl

theorem LoggerAdapter.pending_congr {s s' : LoggerAdapter δ ε} {d : δ} (hpc : s'.pc d = s.pc d)
    (hstream : s'.sstream = s.sstream) : s'.pending d = s.pending d := by
  simp only [pending, hpc, hstream]

/-- Another text may come into the stream, as long as it is not looked at. -/
theorem LoggerAdapter.pending_map_congr {β : Type*}
    {f : ℕ × Option (Stored (LoggerEvent ε)) × String → β} {s s' : LoggerAdapter δ ε} {d : δ}
    (hpc : s'.pc d = s.pc d)
    (h : ¬ (s.pc d).Pending ∨ ∀ c event text text', f (c, event, text) = f (c, event, text')) :
    (s'.pending d).map f = (s.pending d).map f := by
  rcases h with hnone | hf
  · rw [pending_eq_nil hnone, pending_eq_nil]
    rwa [hpc]
  · simp only [pending, hpc]
    split
    · exact congrArg (fun y => [y]) (hf ..)
    · rfl

variable [DecidableEq δ]

/-- The first locked section of `d` is at a consumer that has an event. -/
def LoggerAdapter.Takes (s : LoggerAdapter δ ε) (d : δ) : Prop :=
  ∃ i x, s.pc d = .scan i ∧ i < s.clients.length ∧ s.clients[s.source i]? = some x ∧
    x.queue.Readable

/-- No event is taken while a text waits in the stream. -/
def Undisturbed (s : LoggerAdapter δ ε) (i : AdapterInput δ ε) : Prop :=
  ∀ d, i = .resume d → s.Takes d → ∀ d', ¬ (s.pc d').Pending

instance (s : LoggerAdapter δ ε) (d : δ) : Decidable (s.Takes d) :=
  match hpc : s.pc d with
  | .scan i => decidable_of_iff (i < s.clients.length ∧ ∃ x ∈ s.clients[s.source i]?,
      x.queue.Readable) (by simp [LoggerAdapter.Takes, hpc])
  | .idle | .notify .. | .destroyGuard .. | .freeGuard .. | .relock _ =>
    isFalse (by simp [LoggerAdapter.Takes, hpc])

instance [Fintype δ] (s : LoggerAdapter δ ε) (i : AdapterInput δ ε) : Decidable (Undisturbed s i) :=
  match i with
  | .resume d => decidable_of_iff (s.Takes d → ∀ d', ¬ (s.pc d').Pending) (by simp [Undisturbed])
  | .registerClient | .client .. | .replaceListener _ | .dispatch _ =>
    isTrue (by simp [Undisturbed])

/-- The events that `d` took, with their texts. -/
def takes (d : δ) (log : List (AdapterObs δ ε)) :
    List (ℕ × Option (Stored (LoggerEvent ε)) × String) :=
  log.filterMap fun
    | .taken d' c event text => if d' = d then some (c, event, text) else none
    | _ => none

/-- The events for which `d` notified a listener, with the texts it passed. -/
def notices (d : δ) (log : List (AdapterObs δ ε)) :
    List (ℕ × Option (Stored (LoggerEvent ε)) × String) :=
  log.filterMap fun
    | .notified d' c event _ text => if d' = d then some (c, event, text) else none
    | _ => none

theorem mem_takes {d : δ} {log : List (AdapterObs δ ε)} {c : ℕ}
    {event : Option (Stored (LoggerEvent ε))} {text : String} :
    (c, event, text) ∈ takes d log ↔ .taken d c event text ∈ log := by
  rw [takes, List.mem_filterMap]
  constructor
  · rintro ⟨o, ho, heq⟩
    split at heq
    · split_ifs at heq with hd
      cases heq
      exact hd ▸ ho
    · cases heq
  · exact fun hmem => ⟨_, hmem, if_pos rfl⟩

theorem mem_notices {d : δ} {log : List (AdapterObs δ ε)} {c : ℕ}
    {event : Option (Stored (LoggerEvent ε))} {text : String} :
    (c, event, text) ∈ notices d log ↔ ∃ listener, .notified d c event listener text ∈ log := by
  rw [notices, List.mem_filterMap]
  constructor
  · rintro ⟨o, ho, heq⟩
    split at heq
    · split_ifs at heq with hd
      cases heq
      exact ⟨_, hd ▸ ho⟩
    · cases heq
  · exact fun ⟨listener, hmem⟩ => ⟨_, hmem, if_pos rfl⟩

section Logs

variable (d : δ) (l l' : List (AdapterObs δ ε))

@[simp] theorem takes_append : takes d (l ++ l') = takes d l ++ takes d l' :=
  List.filterMap_append

@[simp] theorem notices_append : notices d (l ++ l') = notices d l ++ notices d l' :=
  List.filterMap_append

@[simp] theorem takes_map (c : ℕ) (os : List (ClientObs 1 ε)) :
    takes d (os.map (AdapterObs.client c)) = [] := by
  simp [takes, List.filterMap_map]

@[simp] theorem notices_map (c : ℕ) (os : List (ClientObs 1 ε)) :
    notices d (os.map (AdapterObs.client c)) = [] := by
  simp [notices, List.filterMap_map]

end Logs

/-! ## One step -/

section Step

variable {print : ε → OStringStream → OStringStream} {s s' : LoggerAdapter δ ε}
  {log os : List (AdapterObs δ ε)} {i : AdapterInput δ ε} {β : Type*}
  {f : ℕ × Option (Stored (LoggerEvent ε)) × String → β}

/-- A consumer that yields an event had one to yield. -/
theorem readable_of_step {x x' : ClientState LoggerQueue ε}
    {event : Option (Stored (LoggerEvent ε))}
    (h : (loggerClient ε).step x (.queue (.tryRead 0)) = some (x', [.queue (.read 0 event)])) :
    x.queue.Readable := by
  obtain ⟨queue, qs, hstep, heq⟩ := stepQueue_eq_some h
  change x.queue.tryRead 0 = some (queue, qs) at hstep
  unfold One2One.ObjectState.tryRead at hstep
  simp only at hstep
  split_ifs at hstep with halive hseqn
  · exact ⟨halive, hseqn⟩
  · cases hstep
    simp [ClientState.observeAll, ClientState.observe] at heq

theorem setPc_pc_self (d : δ) (pc : DispatchPc ε) : (s.setPc d pc).pc d = pc :=
  Function.update_self ..

theorem setPc_pc_of_ne {d d' : δ} (h : d' ≠ d) (pc : DispatchPc ε) :
    (s.setPc d pc).pc d' = s.pc d' :=
  Function.update_of_ne h ..

/-- A step by which no event is taken or passed on, and the stream is not touched. -/
theorem exact_of_quiet (d : δ) (pc : DispatchPc ε)
    (h : ∀ d, (takes d log).map f = (notices d log).map f ++ (s.pending d).map f)
    (hold : ¬ (s.pc d).Pending) (hnew : ¬ pc.Pending) (hpc : s'.pc = Function.update s.pc d pc)
    (hstream : s'.sstream = s.sstream) (hos : ∀ d, takes d os = [] ∧ notices d os = []) (d' : δ) :
    (takes d' (log ++ os)).map f = (notices d' (log ++ os)).map f ++ (s'.pending d').map f := by
  obtain ⟨htakes, hnotices⟩ := hos d'
  rw [takes_append, notices_append, htakes, hnotices, List.append_nil, List.append_nil, h d']
  congr 2
  by_cases heq : d' = d
  · subst heq
    rw [LoggerAdapter.pending_eq_nil hold, LoggerAdapter.pending_eq_nil]
    rwa [hpc, Function.update_self]
  · refine (LoggerAdapter.pending_congr ?_ hstream).symm
    rw [hpc, Function.update_of_ne heq]

/-- A step passes on what it took; if it meets the condition, as it was formatted. -/
theorem exact_step (h : ∀ d, (takes d log).map f = (notices d log).map f ++ (s.pending d).map f)
    (hok : Undisturbed s i ∨ ∀ c event text text', f (c, event, text) = f (c, event, text'))
    (hs : AdapterStep print s i s' os) (d' : δ) :
    (takes d' (log ++ os)).map f = (notices d' (log ++ os)).map f ++ (s'.pending d').map f := by
  cases hs with
  | registered | replaced =>
    rw [takes_append, notices_append, List.map_append, List.map_append, h d']
    simp [takes, notices, LoggerAdapter.pending]
  | client c j hj x x' os' hx hstep =>
    rw [takes_append, notices_append, takes_map, notices_map, List.append_nil, List.append_nil,
      h d']
    rfl
  | called d mutex hpc =>
    apply exact_of_quiet d (.scan 0) h
    · rw [hpc]
      exact id
    · exact id
    · rfl
    · rfl
    · exact fun d => ⟨rfl, rfl⟩
  | empty d k hpc hk x x' hx hstep =>
    apply exact_of_quiet d (.scan (k + 1)) h
    · rw [hpc]
      exact id
    · exact id
    · rfl
    · rfl
    · exact fun d => ⟨rfl, rfl⟩
  | taken d k n hpc hk x x' event hx hstep =>
    rw [takes_append, notices_append, List.map_append, List.map_append, h d']
    by_cases heq : d' = d
    · subst heq
      rw [LoggerAdapter.pending_eq_nil (by rw [hpc]; exact id)]
      simp [takes, notices, LoggerAdapter.pending, LoggerAdapter.setPc]
    · -- the stream has changed under the text of another call, if there is one
      have hos : ∀ text, takes d' [.client (s.source k) (.queue (.read 0 event)),
            .taken d (s.source k) event text] = [] ∧
          notices d' [.client (s.source k) (.queue (.read 0 event)),
            .taken d (s.source k) event text] = [] := by
        simp [takes, notices, Ne.symm heq]
      have hpending : ∀ s₁ : LoggerAdapter δ ε, s₁.pc d' = s.pc d' →
          (s₁.pending d').map f = (s.pending d').map f := fun s₁ hpc₁ =>
        LoggerAdapter.pending_map_congr hpc₁ <| hok.imp_left fun hok =>
          hok d rfl ⟨k, x, hpc, hk, hx, readable_of_step hstep⟩ d'
      rw [(hos _).1, (hos _).2, List.map_nil, List.append_nil, List.append_nil]
      refine congrArg _ (Eq.symm (hpending _ ?_))
      exact setPc_pc_of_ne heq _
  | missed d k hpc hk =>
    apply exact_of_quiet d .idle h
    · rw [hpc]
      exact id
    · exact id
    · rfl
    · rfl
    · exact fun d => ⟨rfl, rfl⟩
  | notified d k c n event listener hpc =>
    rw [takes_append, notices_append, List.map_append, List.map_append, h d']
    by_cases heq : d' = d
    · subst heq
      simp [takes, notices, LoggerAdapter.pending, LoggerAdapter.setPc, hpc]
    · rw [LoggerAdapter.pending_congr (setPc_pc_of_ne heq _) rfl]
      simp [takes, notices, Ne.symm heq]
  | released d k c n j pc input hpc x x' os' hx hstep =>
    apply exact_of_quiet d pc h
    · rcases hpc with ⟨hpc, -⟩ | ⟨hpc, -⟩
      · rw [hpc]
        exact id
      · rw [hpc]
        exact id
    · rcases hpc with ⟨-, -, rfl⟩ | ⟨-, -, rfl⟩ <;> exact id
    · rfl
    · rfl
    · exact fun d => ⟨takes_map .., notices_map ..⟩
  | finished d k hpc mutex =>
    apply exact_of_quiet d .idle h
    · rw [hpc]
      exact id
    · exact id
    · rfl
    · rfl
    · exact fun d => ⟨rfl, rfl⟩

end Step

/-! ## The text of an event -/

/-- The text is that of the event on a stream with the flags, the precision and the width that the
stream of the adapter had at first.  Its fill character and its error state are not reset. -/
def IsText (print : ε → OStringStream → OStringStream) (sstream : OStringStream)
    (event : Option (Stored (LoggerEvent ε))) (text : String) : Prop :=
  ∃ x fill state, event = some x ∧
    text = (print x.value.content { sstream with fill := fill, state := state, str := "" }).str

/-- The printers leave the fill character and the error state as they were at first. -/
def KeepsState (print : ε → OStringStream → OStringStream) (sstream : OStringStream) : Prop :=
  ∀ e before, before.fill = sstream.fill → before.state = sstream.state →
    (print e before).fill = sstream.fill ∧ (print e before).state = sstream.state

/-- The text is that of the event on a stream as it was at first. -/
def IsFreshText (print : ε → OStringStream → OStringStream) (sstream : OStringStream)
    (event : Option (Stored (LoggerEvent ε))) (text : String) : Prop :=
  ∃ x, event = some x ∧ text = (print x.value.content { sstream with str := "" }).str

/-- What the adapter keeps of its stream, and the texts of the events taken so far. -/
structure StreamOk (print : ε → OStringStream → OStringStream) (sstream : OStringStream)
    (s : LoggerAdapter δ ε) (log : List (AdapterObs δ ε)) : Prop where
  flags : s.flags = sstream.flags
  precision : s.precision = sstream.precision
  width : s.width = sstream.width
  kept : KeepsState print sstream → s.sstream.fill = sstream.fill ∧ s.sstream.state = sstream.state
  texts : ∀ d c x text, .taken d c (some x) text ∈ log → IsText print sstream (some x) text
  fresh : KeepsState print sstream → ∀ d c x text, .taken d c (some x) text ∈ log →
    IsFreshText print sstream (some x) text

section Stream

variable {print : ε → OStringStream → OStringStream} {sstream : OStringStream} {listener : ℕ}
  {s s' : LoggerAdapter δ ε} {log os : List (AdapterObs δ ε)} {i : AdapterInput δ ε}

omit [DecidableEq δ] in
theorem StreamOk.resetStream (h : StreamOk print sstream s log) :
    s.resetStream =
      { sstream with fill := s.sstream.fill, state := s.sstream.state, str := "" } := by
  simp only [LoggerAdapter.resetStream, h.flags, h.precision, h.width]

omit [DecidableEq δ] in
theorem StreamOk.resetStream_fresh (h : StreamOk print sstream s log)
    (hkeeps : KeepsState print sstream) : s.resetStream = { sstream with str := "" } := by
  rw [h.resetStream, (h.kept hkeeps).1, (h.kept hkeeps).2]

omit [DecidableEq δ] in
/-- A step that takes no event and does not touch the stream. -/
theorem StreamOk.of_eq (h : StreamOk print sstream s log) (hflags : s'.flags = s.flags)
    (hprecision : s'.precision = s.precision) (hwidth : s'.width = s.width)
    (hstream : s'.sstream = s.sstream) (hos : ∀ d c event text, .taken d c event text ∉ os) :
    StreamOk print sstream s' (log ++ os) where
  flags := hflags.trans h.flags
  precision := hprecision.trans h.precision
  width := hwidth.trans h.width
  kept hkeeps := by
    rw [hstream]
    exact h.kept hkeeps
  texts d c x text hmem :=
    h.texts d c x text ((List.mem_append.1 hmem).resolve_right (hos d c _ text))
  fresh hkeeps d c x text hmem :=
    h.fresh hkeeps d c x text ((List.mem_append.1 hmem).resolve_right (hos d c _ text))

omit [DecidableEq δ] in
/-- The stream after an event was formatted. -/
theorem StreamOk.format_kept (h : StreamOk print sstream s log) (hkeeps : KeepsState print sstream)
    (event : Option (Stored (LoggerEvent ε))) : (s.format print event).fill = sstream.fill ∧
      (s.format print event).state = sstream.state := by
  cases event with
  | none => exact h.kept hkeeps
  | some x =>
    unfold LoggerAdapter.format
    rw [h.resetStream_fresh hkeeps]
    exact hkeeps _ _ rfl rfl

theorem StreamOk.step (h : StreamOk print sstream s log) (hs : AdapterStep print s i s' os) :
    StreamOk print sstream s' (log ++ os) := by
  cases hs with
  | registered | replaced | called | empty | missed | notified | finished =>
    apply h.of_eq <;> first | rfl | simp
  | client | released => apply h.of_eq <;> first | rfl | simp
  | taken d k n hpc hk x x' event hx hstep =>
    refine ⟨h.flags, h.precision, h.width, fun hkeeps => h.format_kept hkeeps event, ?_, ?_⟩
    · intro d' c y text hmem
      rcases List.mem_append.1 hmem with hmem | hmem
      · exact h.texts d' c y text hmem
      · simp only [List.mem_cons, reduceCtorEq, AdapterObs.taken.injEq, List.not_mem_nil, or_false,
          false_or] at hmem
        obtain ⟨-, -, rfl, rfl⟩ := hmem
        refine ⟨y, s.sstream.fill, s.sstream.state, rfl, ?_⟩
        rw [← h.resetStream]
        rfl
    · intro hkeeps d' c y text hmem
      rcases List.mem_append.1 hmem with hmem | hmem
      · exact h.fresh hkeeps d' c y text hmem
      · simp only [List.mem_cons, reduceCtorEq, AdapterObs.taken.injEq, List.not_mem_nil, or_false,
          false_or] at hmem
        obtain ⟨-, -, rfl, rfl⟩ := hmem
        refine ⟨y, rfl, ?_⟩
        rw [← h.resetStream_fresh hkeeps]
        rfl

theorem streamOk_of_reaches
    (h : (adapterMachine print).Reaches (.start sstream listener) s log) :
    StreamOk print sstream s log := by
  refine h.invariant (I := StreamOk print sstream) ⟨rfl, rfl, rfl, fun _ => ⟨rfl, rfl⟩, ?_, ?_⟩
    fun _ _ _ _ _ hi hs => hi.step (adapterStep_of_step hs)
  · exact fun _ _ _ _ hmem => by cases hmem
  · exact fun _ _ _ _ _ hmem => by cases hmem

/-- The events that are taken are events. -/
theorem exists_of_taken (h : (adapterMachine print).Reaches (.start sstream listener) s log) {d : δ}
    {c : ℕ} {event : Option (Stored (LoggerEvent ε))} {text : String}
    (hmem : .taken d c event text ∈ log) : ∃ x, event = some x := by
  have hfrom : event ∈ takenFrom c log := mem_takenFrom.2 ⟨d, text, hmem⟩
  obtain ⟨x, -, hx⟩ := List.mem_map.1 ((takenFrom_isPrefix h c).subset hfrom)
  exact ⟨x, hx.symm⟩

end Stream

/-! ## Runs -/

/-- As long as no event is taken while a text waits in the stream, the texts are passed on as they
were formatted. -/
theorem takes_eq {print : ε → OStringStream → OStringStream} {sstream : OStringStream}
    {listener : ℕ} {s : LoggerAdapter δ ε} {log : List (AdapterObs δ ε)}
    (h : (adapterMachine print).ReachesWhile Undisturbed (.start sstream listener) s log) (d : δ) :
    takes d log = notices d log ++ s.pending d := by
  have hmap := h.invariant (I := fun s log => ∀ d, (takes d log).map id =
    (notices d log).map id ++ (s.pending d).map id) (fun _ => rfl) fun _ _ _ _ _ _ hi hok hs =>
      exact_step hi (.inl hok) (adapterStep_of_step hs)
  simpa only [List.map_id] using hmap d

/-- In every run the events are passed on as they were taken, whatever the texts. -/
theorem taken_events_eq {print : ε → OStringStream → OStringStream} {sstream : OStringStream}
    {listener : ℕ} {s : LoggerAdapter δ ε} {log : List (AdapterObs δ ε)}
    (h : (adapterMachine print).Reaches (.start sstream listener) s log) (d : δ) :
    (takes d log).map (fun x => (x.1, x.2.1)) =
      (notices d log).map (fun x => (x.1, x.2.1)) ++ (s.pending d).map fun x => (x.1, x.2.1) := by
  refine h.invariant (I := fun s log => ∀ d, (takes d log).map (fun x => (x.1, x.2.1)) =
    (notices d log).map (fun x => (x.1, x.2.1)) ++ (s.pending d).map fun x => (x.1, x.2.1))
    (fun _ => rfl) (fun _ _ _ _ _ hi hs => ?_) d
  exact exact_step hi (.inr fun _ _ _ _ => rfl) (adapterStep_of_step hs)

/-- What a listener is given is what the call has taken. -/
theorem taken_of_notified {print : ε → OStringStream → OStringStream} {sstream : OStringStream}
    {listener : ℕ} {s : LoggerAdapter δ ε} {log : List (AdapterObs δ ε)}
    (h : (adapterMachine print).ReachesWhile Undisturbed (.start sstream listener) s log) {d : δ}
    {c : ℕ} {event : Option (Stored (LoggerEvent ε))} {listener' : ℕ} {text : String}
    (hmem : .notified d c event listener' text ∈ log) : .taken d c event text ∈ log := by
  rw [← mem_takes, takes_eq h d]
  exact List.mem_append_left _ (mem_notices.2 ⟨listener', hmem⟩)

/-- Every event that a call takes is passed on once, by that call and as its own text. -/
structure ExactDispatch (print : ε → OStringStream → OStringStream) (sstream : OStringStream)
    (s : LoggerAdapter δ ε) (log : List (AdapterObs δ ε)) : Prop where
  /-- The notices are the events taken, but for the one that waits for its notify. -/
  exact : ∀ d, takes d log = notices d log ++ s.pending d
  /-- The notify that is waited for can always happen. -/
  progress : ∀ d i c k event listener, s.pc d = .notify i c k event listener → ∃ s',
    (adapterMachine print).step s (.resume d) =
      some (s', [.notified d c event listener s.sstream.str])
  /-- The events taken from a client are the first it wrote, each of them once. -/
  events : ∀ c, takenFrom c log <+: (numbered (writes (toLog (clientLog c log)))).map some
  texts : ∀ d c event text, .taken d c event text ∈ log → IsText print sstream event text
  fresh : KeepsState print sstream → ∀ d c event text, .taken d c event text ∈ log →
    IsFreshText print sstream event text

/-- As long as no event is taken while a text waits in the stream, concurrent calls of `dispatch`
neither lose nor duplicate nor mix messages. -/
theorem dispatch_exact {print : ε → OStringStream → OStringStream} {sstream : OStringStream}
    {listener : ℕ} {s : LoggerAdapter δ ε} {log : List (AdapterObs δ ε)}
    (h : (adapterMachine print).ReachesWhile Undisturbed (.start sstream listener) s log) :
    ExactDispatch print sstream s log := by
  have hstream := streamOk_of_reaches h.reaches
  refine ⟨takes_eq h, ?_, takenFrom_isPrefix h.reaches, ?_, ?_⟩
  · intro d i c k event listener hpc
    refine ⟨s.setPc d (.destroyGuard i c k), ?_⟩
    change s.resume print d = _
    simp only [LoggerAdapter.resume, hpc]
  · intro d c event text hmem
    obtain ⟨x, rfl⟩ := exists_of_taken h.reaches hmem
    exact hstream.texts d c x text hmem
  · intro hkeeps d c event text hmem
    obtain ⟨x, rfl⟩ := exists_of_taken h.reaches hmem
    exact hstream.fresh hkeeps d c x text hmem

omit [DecidableEq δ] in
/-- A thread that calls `dispatch` alone is never disturbed. -/
theorem undisturbed_of_subsingleton [Subsingleton δ] (s : LoggerAdapter δ ε)
    (i : AdapterInput δ ε) : Undisturbed s i := by
  rintro d - ⟨k, x, hpc, -⟩ d'
  rw [Subsingleton.elim d' d, hpc]
  exact id

/-- A new stream. -/
def plainStream : OStringStream := ⟨0x1002, 6, 0, ' ', 0, ""⟩

/-- Print an event that is a text. -/
def printText (text : String) (stream : OStringStream) : OStringStream :=
  { stream with str := stream.str ++ text }

/-- The log call of the client `c` with an event that the queue accepts. -/
def logCall {δ ε : Type*} (c : ℕ) (content : ε) : List (AdapterInput δ ε) :=
  [.construct content, .tryWrite, .queue .writer, .queue .writer, .seek].map (.client c)

/-- Two events and two threads: the second thread takes its event while the call of the first one is
still releasing the guard of its own. -/
theorem dispatch_exact_overlapping : ∃ (s : LoggerAdapter Bool String) (log : List _),
    ExactDispatch printText plainStream s log ∧
      (notices false log).map (fun x => x.2.2) = ["first"] ∧
      (notices true log).map (fun x => x.2.2) = ["second"] := by
  have hrun := Machine.ReachesWhile.of_run (show
    (adapterMachine printText).run (LoggerAdapter.start (δ := Bool) plainStream 0)
      (logCall 0 "first" ++ logCall 0 "second" ++ [.dispatch false, .resume false, .resume false,
        .dispatch true, .resume true, .resume false, .resume true, .resume false, .resume false,
        .resume true, .resume true, .resume true]) = some (_, _) from rfl)
    (show Machine.meets _ Undisturbed _ _ = true from rfl)
  exact ⟨_, _, dispatch_exact hrun, rfl, rfl⟩

/-- Two threads and two events: the second event is formatted before the first notify, which then
passes on its text for the first event. -/
theorem dispatch_mixes : ∃ (s : LoggerAdapter Bool String) (log : List _),
    (adapterMachine printText).Reaches (.start plainStream 0) s log ∧
      .notified false 0 (some ⟨0, ⟨0, "first"⟩⟩) 0 "second" ∈ log ∧
      ¬ ExactDispatch printText plainStream s log := by
  have hrun := Machine.Reaches.of_run (show
    (adapterMachine printText).run (LoggerAdapter.start (δ := Bool) plainStream 0)
      (logCall 0 "first" ++ logCall 0 "second" ++ [.dispatch false, .resume false, .dispatch true,
        .resume true, .resume false]) = some (_, _) from rfl)
  refine ⟨_, _, hrun, by decide, fun h => ?_⟩
  have hexact := h.exact false
  revert hexact
  decide

end Ihft.Logger
