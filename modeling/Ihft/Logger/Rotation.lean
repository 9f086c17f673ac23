import Ihft.Lib.Rotation
import Ihft.Logger.Delivery

/-!
# The rotation of the clients

`dispatch` begins its scan behind the client that the last call has read.  A client that waits when
a call returns comes before the one that this call has read, and no call passes it; so the other one
is not read again before it.  This needs the cursor to go on where the scan has stopped, and fails
if the scan has begun anew at the first client and a client is registered before the call returns.
-/

namespace Ihft.Logger

open Observe GuardedBroadcast Channel Rotation

variable {δ ε : Type*}

/-! ## What is seen of the rotation -/

/-- The client has an event that was accepted and not taken. -/
def Unread (c : ℕ) (log : List (AdapterObs δ ε)) : Prop :=
  (takenFrom c log).length < (acceptedFrom c log).length

/-- The number of clients; one is there from the start. -/
def registered (log : List (AdapterObs δ ε)) : ℕ :=
  (log.countP fun | .registered => true | _ => false) + 1

/-- What the calls of `dispatch` owe to the clients. -/
structure Rotates (log : List (AdapterObs δ ε)) : Prop where
  /-- Between two calls that read from one client, every other client is read that has an unread
  event all the time. -/
  fair : ∀ l d c event text m₁ m₂ d' event' text' l',
    log = l ++ .taken d c event text :: (m₁ ++ .returned d true ::
      (m₂ ++ .taken d' c event' text' :: l')) →
    (∀ flush, .returned d flush ∉ m₁) → takenFrom c m₂ = [] → ∀ c', c' ≠ c →
    (∀ m m', m₂ = m ++ m' →
      Unread c' (l ++ .taken d c event text :: (m₁ ++ .returned d true :: m))) →
    takenFrom c' m₂ ≠ []
  /-- A call that returns `false` has seen the queues of all clients empty. -/
  sawEmpty : ∀ l d m l', log = l ++ .called d :: (m ++ .returned d false :: l') → .called d ∉ m →
    ∀ c < registered (l ++ .called d :: m), .client c (.queue (.empty 0)) ∈ m

/-- The turn of the scan in which the call has taken an event. -/
def DispatchPc.turn : DispatchPc ε → Option ℕ
  | .notify i _ _ _ _ | .destroyGuard i _ _ | .freeGuard i _ _ | .relock i => some i
  | _ => none

/-- No client is registered while a call, whose scan has begun anew at the first client, is between
its locked sections. -/
def Unwrapped (s : LoggerAdapter δ ε) (i : AdapterInput δ ε) : Prop :=
  i = .registerClient → ∀ d k, (s.pc d).turn = some k → s.cindex + k < s.clients.length

instance [Fintype δ] (s : LoggerAdapter δ ε) (i : AdapterInput δ ε) : Decidable (Unwrapped s i) := by
  cases i with
  | registerClient =>
    exact decidable_of_iff (∀ d, ∀ k ∈ (s.pc d).turn, s.cindex + k < s.clients.length)
      (by simp [Unwrapped, Option.mem_def])
  | _ => exact isTrue (by simp [Unwrapped])

/-! ## Who waits for whom -/

/-- The call of `d` has read from the client and has not returned. -/
def Open (d : δ) (log : List (AdapterObs δ ε)) (c : ℕ) : Prop :=
  ∃ l event text m, log = l ++ .taken d c event text :: m ∧ ∀ flush, .returned d flush ∉ m

/-- A call that has read from `c` has returned while `c'` had an unread event, and `c'` was not read
since. -/
def Owes (log : List (AdapterObs δ ε)) (c c' : ℕ) : Prop :=
  ∃ l d m, log = l ++ .returned d true :: m ∧ Open d l c ∧ Unread c' l ∧ takenFrom c' m = []

section Logs

variable {log os : List (AdapterObs δ ε)} {d : δ} {c c' : ℕ}

theorem Open.of_append (h : Open d (log ++ os) c) (hos : ∀ event text, .taken d c event text ∉ os) :
    Open d log c := by
  obtain ⟨l, event, text, m, heq, hm⟩ := h
  obtain ⟨m', rfl, hlog⟩ := append_eq_append_cons_of_notMem heq (hos event text)
  exact ⟨l, event, text, m', hlog, fun flush hmem => hm flush (List.mem_append_left os hmem)⟩

theorem Owes.of_append (h : Owes (log ++ os) c c') (hos : ∀ d, .returned d true ∉ os) :
    Owes log c c' := by
  obtain ⟨l, d, m, heq, hopen, hunread, hm⟩ := h
  obtain ⟨m', rfl, hlog⟩ := append_eq_append_cons_of_notMem heq (hos d)
  rw [takenFrom_append, List.append_eq_nil_iff] at hm
  exact ⟨l, d, m', hlog, hopen, hunread, hm.1⟩

/-- What is unread stays so until it is taken. -/
theorem Unread.append (h : Unread c log) (hos : takenFrom c os = []) : Unread c (log ++ os) := by
  have hle := (acceptedFrom_isPrefix c log os).length_le
  unfold Unread at h ⊢
  rw [takenFrom_append, hos, List.append_nil]
  exact h.trans_le hle

/-- What is seen of no client changes nothing. -/
theorem unread_append_quiet (hos : takenFrom c os = [])
    (hquiet : ∀ c x, .client c (.queue (.wrote x)) ∉ os) : Unread c (log ++ os) ↔ Unread c log := by
  rw [Unread, takenFrom_append, hos, List.append_nil, acceptedFrom_append_quiet hquiet, Unread]

theorem Owes.unread (h : Owes log c c') : Unread c' log := by
  obtain ⟨l, d, m, rfl, -, hunread, hm⟩ := h
  exact hunread.append (show takenFrom c' (.returned d true :: m) = [] from hm)

theorem Owes.takenFrom_eq_nil (h : Owes (log ++ os) c c') (hos : ∀ d, .returned d true ∉ os) :
    takenFrom c' os = [] := by
  obtain ⟨l, d, m, heq, -, -, hm⟩ := h
  obtain ⟨m', rfl, -⟩ := append_eq_append_cons_of_notMem heq (hos d)
  rw [takenFrom_append, List.append_eq_nil_iff] at hm
  exact hm.2

theorem not_open_of_returned {flush : Bool} (hmem : .returned d flush ∈ os)
    (hos : ∀ event text, .taken d c event text ∉ os) : ¬ Open d (log ++ os) c := by
  rintro ⟨l, event, text, m, heq, hm⟩
  obtain ⟨m', rfl, -⟩ := append_eq_append_cons_of_notMem heq (hos event text)
  exact hm flush (List.mem_append_right m' hmem)

/-- What is owed when a call has returned was owed before, or the client has waited behind this
call. -/
theorem Owes.of_returned {listener : ℕ}
    (h : Owes (log ++ [.flushed listener, .returned d true]) c c') :
    Owes log c c' ∨ (Open d log c ∧ Unread c' log) := by
  obtain ⟨l, d', m, heq, hopen, hunread, hm⟩ := h
  rcases append_eq_append_cons heq with ⟨m', rfl, hlog⟩ | ⟨os₁, rfl, hos⟩
  · rw [takenFrom_append, List.append_eq_nil_iff] at hm
    exact .inl ⟨l, d', m', hlog, hopen, hunread, hm.1⟩
  · obtain ⟨rfl, rfl⟩ : os₁ = [.flushed listener] ∧ d' = d := by
      rcases os₁ with _ | ⟨o₁, _ | ⟨o₂, os₁⟩⟩ <;> simp_all
    exact .inr ⟨hopen.of_append (by simp), (unread_append_quiet rfl (by simp)).1 hunread⟩

end Logs

/-- No client is read while one is owed that comes before it. -/
def Fair (log : List (AdapterObs δ ε)) : Prop :=
  ∀ l d c event text l', log = l ++ .taken d c event text :: l' → ∀ c', c' ≠ c → ¬ Owes l c c'

/-- The invariant of the rotation. -/
structure RotationOk (s : LoggerAdapter δ ε) (log : List (AdapterObs δ ε)) : Prop where
  cursor : s.cindex < s.clients.length
  turn : ∀ d i, (s.pc d).turn = some i → i < s.clients.length
  opened : ∀ d c, Open d log c → ∃ i, (s.pc d).turn = some i ∧ s.source i = c
  before : ∀ c c', c' ≠ c → Owes log c c' → Before s.cindex c' c
  passed : ∀ c c', c' ≠ c → Owes log c c' → ∀ d i, (s.pc d).turn = some i →
    Before s.cindex (s.source i) c'
  scanned : ∀ d k, s.pc d = .scan k → ∀ j < k, ∀ c, ¬ Owes log c (s.source j)
  fair : Fair log

section Append

variable {s s' : LoggerAdapter δ ε} {log os : List (AdapterObs δ ε)}

theorem Fair.append (h : Fair log) (hos : ∀ d c event text, .taken d c event text ∉ os) :
    Fair (log ++ os) := by
  intro l d c event text l' heq
  obtain ⟨l₁, rfl, hlog⟩ := append_eq_append_cons_of_notMem heq (hos d c event text)
  exact h l d c event text l₁ hlog

/-- A step that neither takes an event nor ends a call with one. -/
theorem RotationOk.append (h : RotationOk s log) (hcindex : s'.cindex = s.cindex)
    (hlength : s.clients.length ≤ s'.clients.length)
    (hturn : ∀ d, (s'.pc d).turn = (s.pc d).turn)
    (hsource : ∀ d i, (s.pc d).turn = some i → s'.source i = s.source i)
    (htaken : ∀ d c event text, .taken d c event text ∉ os)
    (hreturned : ∀ d, .returned d true ∉ os)
    (hscanned : ∀ d k, s'.pc d = .scan k → ∀ j < k, ∀ c, ¬ Owes log c (s'.source j)) :
    RotationOk s' (log ++ os) where
  cursor := by
    rw [hcindex]
    exact h.cursor.trans_le hlength
  turn d i hi := by
    rw [hturn] at hi
    exact (h.turn d i hi).trans_le hlength
  opened d c hopen := by
    obtain ⟨i, hi, hc⟩ := h.opened d c (hopen.of_append (htaken d c))
    exact ⟨i, (hturn d).trans hi, (hsource d i hi).trans hc⟩
  before c c' hne howes := by
    rw [hcindex]
    exact h.before c c' hne (howes.of_append hreturned)
  passed c c' hne howes d i hi := by
    rw [hturn] at hi
    rw [hcindex, hsource d i hi]
    exact h.passed c c' hne (howes.of_append hreturned) d i hi
  scanned d k hk j hj c howes := hscanned d k hk j hj c (howes.of_append hreturned)
  fair := h.fair.append htaken

end Append

/-! ## One step -/

section Step

variable {s s' : LoggerAdapter δ ε} {log os : List (AdapterObs δ ε)} {d : δ} {c c' k : ℕ}
  {pc : DispatchPc ε}

/-- A call that scans has the mutex. -/
theorem DeliveryOk.not_scan (h : DeliveryOk s log) (mutex : s.mutex = none) : s.pc d ≠ .scan k := by
  intro hpc
  obtain ⟨hlock, -, -⟩ := h.phaseOk hpc (by simp [hpc])
  rw [mutex] at hlock
  cases hlock

theorem Unread.lt (h : Unread c log) (hclients : ClientsOk s log) : c < s.clients.length := by
  by_contra hge
  have hnil := (hclients c).2 (List.getElem?_eq_none (not_lt.1 hge))
  rw [Unread, acceptedFrom_length, hnil] at h
  exact absurd h (by simp [toLog, writes])

/-- The scan has not come to a client that is owed. -/
theorem RotationOk.ahead (h : RotationOk s log) (hclients : ClientsOk s log)
    (hpc : s.pc d = .scan k) (howes : Owes log c c') :
    ∃ j < s.clients.length, s.source j = c' ∧ k ≤ j := by
  obtain ⟨j, hj, rfl⟩ := exists_source (howes.unread.lt hclients)
  refine ⟨j, hj, rfl, ?_⟩
  by_contra hlt
  exact h.scanned d k hpc j (not_le.1 hlt) c howes

theorem RotationOk.before_source_iff (h : RotationOk s log) {i j : ℕ} (hi : i < s.clients.length)
    (hj : j < s.clients.length) : Before s.cindex (s.source i) (s.source j) ↔ i < j :=
  before_add_mod_iff h.cursor hi hj

/-- The client whose event the scan takes owes to no other one. -/
theorem RotationOk.not_owes_source (h : RotationOk s log) (hclients : ClientsOk s log)
    (hpc : s.pc d = .scan k) (hk : k < s.clients.length) (hne : c' ≠ s.source k) :
    ¬ Owes log (s.source k) c' := by
  intro howes
  obtain ⟨j, hj, rfl, hkj⟩ := h.ahead hclients hpc howes
  have hlt := (h.before_source_iff hj hk).1 (h.before _ _ hne howes)
  omega

/-- It comes before every client that is owed. -/
theorem RotationOk.source_before (h : RotationOk s log) (hclients : ClientsOk s log)
    (hpc : s.pc d = .scan k) (hk : k < s.clients.length) (hne : c' ≠ s.source k)
    (howes : Owes log c c') : Before s.cindex (s.source k) c' := by
  obtain ⟨j, hj, rfl, hkj⟩ := h.ahead hclients hpc howes
  have hjk : j ≠ k := fun heq => hne (by rw [heq])
  exact (h.before_source_iff hk hj).2 (by omega)

theorem source_congr (hcindex : s'.cindex = s.cindex)
    (hlength : s'.clients.length = s.clients.length) (j : ℕ) : s'.source j = s.source j := by
  rw [LoggerAdapter.source, LoggerAdapter.source, hcindex, hlength]

/-- What is taken last, if it is not of an older call. -/
theorem append_taken_cases {c₁ c₂ : ℕ} {d' : δ} {o : ClientObs 1 ε}
    {event event' : Option (Stored (LoggerEvent ε))} {text text' : String}
    {l l' : List (AdapterObs δ ε)}
    (h : log ++ [.client c o, .taken d c₁ event text] = l ++ .taken d' c₂ event' text' :: l') :
    (∃ l₁, l' = l₁ ++ [.client c o, .taken d c₁ event text] ∧
      log = l ++ .taken d' c₂ event' text' :: l₁) ∨
    (d' = d ∧ c₂ = c₁ ∧ l = log ++ [.client c o]) := by
  rcases append_eq_append_cons h with hold | ⟨os₁, rfl, hos⟩
  · exact .inl hold
  · rcases os₁ with _ | ⟨o₁, _ | ⟨o₂, os₁⟩⟩ <;> simp_all

/-- Only the call that is on its way can have read from a client. -/
theorem RotationOk.opened_alone (h : RotationOk s log) (halone : ∀ d' ≠ d, s.pc d' = .idle) {d' : δ}
    (hopen : Open d' log c) : d' = d ∧ ∃ i, (s.pc d).turn = some i ∧ s.source i = c := by
  obtain ⟨i, hi, hc⟩ := h.opened d' c hopen
  by_cases heq : d' = d
  · rw [heq] at hi
    exact ⟨heq, i, hi, hc⟩
  · rw [halone d' heq] at hi
    cases hi

variable [DecidableEq δ] {print : ε → OStringStream → OStringStream} {sstream : OStringStream}
  {listener : ℕ}

/-- A step of a call that neither takes an event nor returns with one. -/
theorem RotationOk.move (h : RotationOk s log) (hcindex : s'.cindex = s.cindex)
    (hlength : s'.clients.length = s.clients.length) (hpc : s'.pc = Function.update s.pc d pc)
    (hturn : pc.turn = (s.pc d).turn) (htaken : ∀ d c event text, .taken d c event text ∉ os)
    (hreturned : ∀ d, .returned d true ∉ os)
    (hscan : ∀ k, pc = .scan k → ∀ j < k, ∀ c, ¬ Owes log c (s.source j)) :
    RotationOk s' (log ++ os) := by
  have hsource := source_congr hcindex hlength
  apply h.append hcindex hlength.ge _ (fun _ i _ => hsource i) htaken hreturned
  · intro d' k hk j hj c
    rw [hsource]
    rw [hpc] at hk
    by_cases heq : d' = d
    · rw [heq, Function.update_self] at hk
      exact hscan k hk j hj c
    · rw [Function.update_of_ne heq] at hk
      exact h.scanned d' k hk j hj c
  · intro d'
    rw [hpc]
    by_cases heq : d' = d
    · rw [heq, Function.update_self, hturn]
    · rw [Function.update_of_ne heq]

/-- A call takes the event of the first client that has one. -/
theorem RotationOk.taken (h : RotationOk s log) (hclients : ClientsOk s log)
    (halone : ∀ d' ≠ d, s.pc d' = .idle) (hscan : s.pc d = .scan k) (hk : k < s.clients.length)
    (hcindex : s'.cindex = s.cindex) (hlength : s'.clients.length = s.clients.length)
    (hpc : s'.pc = Function.update s.pc d pc) (hturn : pc.turn = some k) (o : ClientObs 1 ε)
    (event : Option (Stored (LoggerEvent ε))) (text : String) :
    RotationOk s' (log ++ [.client (s.source k) o, .taken d (s.source k) event text]) := by
  have hsource := source_congr hcindex hlength
  have hclosed : ∀ d' c, ¬ Open d' log c := by
    intro d' c hopen
    obtain ⟨-, i, hi, -⟩ := h.opened_alone halone hopen
    rw [hscan] at hi
    cases hi
  have hother : ∀ d' ≠ d, s'.pc d' = .idle := fun d' hd' => by
    rw [hpc, Function.update_of_ne hd', halone d' hd']
  have hself : s'.pc d = pc := by rw [hpc, Function.update_self]
  have hnew : ∀ d' i, (s'.pc d').turn = some i → i = k := by
    intro d' i hi
    by_cases heq : d' = d
    · rw [heq, hself, hturn] at hi
      exact (Option.some.inj hi).symm
    · rw [hother d' heq] at hi
      cases hi
  constructor
  case cursor =>
    rw [hcindex, hlength]
    exact h.cursor
  case turn =>
    intro d' i hi
    rw [hlength, hnew d' i hi]
    exact hk
  case opened =>
    rintro d' c ⟨l, event', text', m, heq, hm⟩
    rcases append_taken_cases heq with ⟨l₁, rfl, hlog⟩ | ⟨rfl, rfl, -⟩
    · have hopen : Open d' log c :=
        ⟨l, event', text', l₁, hlog, fun flush hmem => hm flush (List.mem_append_left _ hmem)⟩
      exact absurd hopen (hclosed d' c)
    · exact ⟨k, by rw [hself, hturn], hsource k⟩
  case before =>
    intro c c' hne howes
    rw [hcindex]
    exact h.before c c' hne (howes.of_append (by simp))
  case passed =>
    intro c c' hne howes d' i hi
    have hnil := howes.takenFrom_eq_nil (by simp)
    have hne' : c' ≠ s.source k := by
      rintro rfl
      simp [takenFrom] at hnil
    rw [hcindex, hsource, hnew d' i hi]
    exact h.source_before hclients hscan hk hne' (howes.of_append (by simp))
  case scanned =>
    intro d' k' hk'
    by_cases heq : d' = d
    · rw [heq, hself] at hk'
      rw [hk'] at hturn
      cases hturn
    · rw [hother d' heq] at hk'
      cases hk'
  case fair =>
    intro l d' c event' text' l' heq c' hne howes
    rcases append_taken_cases heq with ⟨l₁, -, hlog⟩ | ⟨-, rfl, rfl⟩
    · exact h.fair l d' c event' text' l₁ hlog c' hne howes
    · exact h.not_owes_source hclients hscan hk hne (howes.of_append (by simp))

/-- A call that has taken an event returns, and the cursor moves behind the client. -/
theorem RotationOk.finished (h : RotationOk s log) (hclients : ClientsOk s log)
    (halone : ∀ d' ≠ d, s.pc d' = .idle) (hturn : (s.pc d).turn = some k)
    (hcindex : s'.cindex = (s.cindex + (k + 1)) % s.clients.length)
    (hlength : s'.clients.length = s.clients.length)
    (hpc : s'.pc = Function.update s.pc d .idle) (listener : ℕ) :
    RotationOk s' (log ++ [.flushed listener, .returned d true]) := by
  have hk := h.turn d k hturn
  have hpos : 0 < s.clients.length := Nat.zero_lt_of_lt hk
  have hcursor : s'.cindex = (s.source k + 1) % s.clients.length := by
    rw [hcindex, LoggerAdapter.source, Nat.mod_add_mod, add_assoc]
  have hlt : s.source k < s.clients.length := Nat.mod_lt _ hpos
  have hidle : ∀ d', s'.pc d' = .idle := by
    intro d'
    rw [hpc]
    by_cases heq : d' = d
    · rw [heq, Function.update_self]
    · rw [Function.update_of_ne heq, halone d' heq]
  constructor
  case cursor =>
    rw [hcursor, hlength]
    exact Nat.mod_lt _ hpos
  case turn =>
    intro d' i hi
    rw [hidle] at hi
    cases hi
  case opened =>
    intro d' c hopen
    obtain ⟨rfl, -⟩ := h.opened_alone halone (hopen.of_append (by simp))
    have hmem : .returned d' true ∈ [.flushed listener, AdapterObs.returned (ε := ε) d' true] := by
      simp
    exact absurd hopen (not_open_of_returned hmem (by simp))
  case before =>
    intro c c' hne howes
    rw [hcursor]
    rcases howes.of_returned with hold | ⟨hopen, hunread⟩
    · -- the call has passed no client that is owed
      exact (h.before c c' hne hold).succ_mod (h.passed c c' hne hold d k hturn) hlt
        (hold.unread.lt hclients)
    · obtain ⟨-, i, hi, rfl⟩ := h.opened_alone halone hopen
      obtain rfl := Option.some.inj (hturn.symm.trans hi)
      exact before_succ_mod hlt (hunread.lt hclients) hne
  case passed =>
    intro c c' hne howes d' i hi
    rw [hidle] at hi
    cases hi
  case scanned =>
    intro d' k' hk'
    rw [hidle] at hk'
    cases hk'
  case fair => exact h.fair.append (by simp)

/-- Every step that meets the condition keeps the invariant. -/
theorem RotationOk.step (h : RotationOk s log) {i : AdapterInput δ ε}
    (hreach : (adapterMachine print).Reaches (.start sstream listener) s log)
    (hdelivery : DeliveryOk s log) (hok : Unwrapped s i)
    (hstep : (adapterMachine print).step s i = some (s', os)) : RotationOk s' (log ++ os) := by
  have hclients := clientsOk_of_reaches hreach
  have hreach' := hreach.step i hstep
  cases adapterStep_of_step hstep with
  | registered x mutex hx =>
    apply h.append
    · rfl
    · simp
    · exact fun d => rfl
    · intro d i hi
      have hlt := hok rfl d i hi
      simp only [LoggerAdapter.source, List.length_append, List.length_singleton]
      rw [Nat.mod_eq_of_lt hlt, Nat.mod_eq_of_lt (by omega)]
    · simp
    · simp
    · exact fun d k hk => absurd hk (hdelivery.not_scan mutex)
  | client c j hj x x' os' hx hstep =>
    apply h.append
    · rfl
    · simp [LoggerAdapter.setClient]
    · exact fun d => rfl
    · exact fun d i _ => source_setClient c x' i
    · simp
    · simp
    · intro d k hk j hj c''
      rw [source_setClient]
      exact h.scanned d k hk j hj c''
  | replaced listener' mutex =>
    apply h.append
    · rfl
    · rfl
    · exact fun d => rfl
    · exact fun d i _ => rfl
    · simp
    · simp
    · exact h.scanned
  | called d mutex hpc =>
    apply h.move
    · rfl
    · rfl
    · rfl
    · rw [hpc]
      rfl
    · simp
    · simp
    · rintro k ⟨⟩ j hj
      omega
  | empty d k hpc hk x x' hx hstep =>
    have hempty := taken_eq_accepted hreach' (takenFrom_eq_reads hreach _)
    apply h.move
    · rfl
    · simp [LoggerAdapter.setClient, LoggerAdapter.setPc]
    · rfl
    · rw [hpc]
      rfl
    · simp
    · simp
    · rintro k' ⟨⟩ j hj c howes
      rcases Nat.lt_succ_iff_lt_or_eq.1 hj with hlt | rfl
      · exact h.scanned d k hpc j hlt c howes
      · exact absurd howes.unread (by rw [Unread, hempty]; exact lt_irrefl _)
  | taken d k n hpc hk x x' event hx hstep =>
    have halone := (hdelivery.active (d := d) (by simp [hpc])).1
    apply h.taken hclients halone hpc hk
    · rfl
    · simp [LoggerAdapter.setClient, LoggerAdapter.setPc]
    · rfl
    · rfl
  | missed d k hpc hk =>
    apply h.move
    · rfl
    · rfl
    · rfl
    · rw [hpc]
      rfl
    · simp
    · simp
    · simp
  | notified d k c n event listener' hpc =>
    apply h.move
    · rfl
    · rfl
    · rfl
    · rw [hpc]
      rfl
    · simp
    · simp
    · simp
  | released d k c n j pc input hpc x x' os' hx hstep =>
    apply h.move
    · rfl
    · simp [LoggerAdapter.setClient, LoggerAdapter.setPc]
    · rfl
    · rcases hpc with ⟨hpc, -, rfl⟩ | ⟨hpc, -, rfl⟩ <;> rw [hpc] <;> rfl
    · simp
    · simp
    · rcases hpc with ⟨-, -, rfl⟩ | ⟨-, -, rfl⟩ <;> simp
  | finished d k hpc mutex =>
    have halone := (hdelivery.active (d := d) (by simp [hpc])).1
    apply h.finished hclients halone (by rw [hpc]; rfl)
    · rfl
    · rfl
    · rfl

end Step

/-! ## The queues that a call has seen -/

/-- The call of `d` has seen the queues of the first `k` clients empty. -/
structure SeenOk (s : LoggerAdapter δ ε) (log : List (AdapterObs δ ε)) : Prop where
  length : s.clients.length = registered log
  seen : ∀ d k, s.pc d = .scan k → ∀ l m, log = l ++ .called d :: m → .called d ∉ m → ∀ j < k,
    .client (s.source j) (.queue (.empty 0)) ∈ m
  sawEmpty : ∀ l d m l', log = l ++ .called d :: (m ++ .returned d false :: l') → .called d ∉ m →
    ∀ c < registered (l ++ .called d :: m), .client c (.queue (.empty 0)) ∈ m

section Seen

variable {s s' : LoggerAdapter δ ε} {log os : List (AdapterObs δ ε)} {d : δ} {k : ℕ}
  {pc : DispatchPc ε}

theorem registered_append (hos : .registered ∉ os) : registered (log ++ os) = registered log := by
  have hzero : (os.countP fun | .registered => true | _ => false) = 0 := by
    rw [List.countP_eq_zero]
    intro o ho
    cases o <;> simp_all
  rw [registered, List.countP_append, hzero]
  rfl

/-- A step that does not return from a call in vain. -/
theorem SeenOk.append (h : SeenOk s log) (hlength : s'.clients.length = registered (log ++ os))
    (hreturned : ∀ d, .returned d false ∉ os)
    (hseen : ∀ d k, s'.pc d = .scan k → ∀ l m, log ++ os = l ++ .called d :: m → .called d ∉ m →
      ∀ j < k, .client (s'.source j) (.queue (.empty 0)) ∈ m) : SeenOk s' (log ++ os) := by
  refine ⟨hlength, hseen, fun l d m l' heq hm => ?_⟩
  have heq' : log ++ os = (l ++ .called d :: m) ++ .returned d false :: l' := by simpa using heq
  obtain ⟨l₁, -, hlog⟩ := append_eq_append_cons_of_notMem heq' (hreturned d)
  exact h.sawEmpty l d m l₁ (by simpa using hlog) hm

/-- What the scan has seen stays seen. -/
theorem SeenOk.seen_append (h : SeenOk s log) (hpc : s.pc d = .scan k)
    (hsource : ∀ j, s'.source j = s.source j) (hcalled : .called d ∉ os)
    (l m : List (AdapterObs δ ε)) (heq : log ++ os = l ++ .called d :: m) (hm : .called d ∉ m) :
    ∀ j < k, .client (s'.source j) (.queue (.empty 0)) ∈ m := by
  intro j hj
  obtain ⟨m', rfl, hlog⟩ := append_eq_append_cons_of_notMem heq hcalled
  rw [hsource]
  exact List.mem_append_left os
    (h.seen d k hpc l m' hlog (fun hmem => hm (List.mem_append_left os hmem)) j hj)

/-- A step of the only call. -/
theorem SeenOk.resume (h : SeenOk s log) (hlength : s'.clients.length = s.clients.length)
    (hidle : ∀ d' ≠ d, s'.pc d' = .idle) (hregistered : .registered ∉ os)
    (hreturned : ∀ d, .returned d false ∉ os)
    (hseen : ∀ k, s'.pc d = .scan k → ∀ l m, log ++ os = l ++ .called d :: m → .called d ∉ m →
      ∀ j < k, .client (s'.source j) (.queue (.empty 0)) ∈ m) : SeenOk s' (log ++ os) := by
  apply h.append _ hreturned
  · intro d' k hk
    by_cases heq : d' = d
    · rw [heq] at hk ⊢
      exact hseen k hk
    · rw [hidle d' heq] at hk
      cases hk
  · rw [registered_append hregistered, hlength, h.length]

/-- It does not scan any more. -/
theorem SeenOk.move (h : SeenOk s log) (hlength : s'.clients.length = s.clients.length)
    (hidle : ∀ d' ≠ d, s'.pc d' = .idle) (hpc : ∀ k, s'.pc d ≠ .scan k)
    (hregistered : .registered ∉ os) (hreturned : ∀ d, .returned d false ∉ os) :
    SeenOk s' (log ++ os) :=
  h.resume hlength hidle hregistered hreturned fun k hk => absurd hk (hpc k)

/-- It begins its scan. -/
theorem SeenOk.called (h : SeenOk s log) (hlength : s'.clients.length = s.clients.length)
    (hidle : ∀ d' ≠ d, s'.pc d' = .idle) (hpc : s'.pc d = .scan 0) :
    SeenOk s' (log ++ [.called d]) := by
  apply h.resume hlength hidle (by simp) (by simp)
  intro k hk l m heq hm j hj
  rw [hpc] at hk
  cases hk
  exact absurd hj (Nat.not_lt_zero j)

/-- It finds the queue of one more client empty. -/
theorem SeenOk.empty (h : SeenOk s log) (hlength : s'.clients.length = s.clients.length)
    (hidle : ∀ d' ≠ d, s'.pc d' = .idle) (hscan : s.pc d = .scan k) (hpc : s'.pc d = .scan (k + 1))
    (hsource : ∀ j, s'.source j = s.source j) :
    SeenOk s' (log ++ [.client (s.source k) (.queue (.empty 0))]) := by
  apply h.resume hlength hidle (by simp) (by simp)
  intro k' hk' l m heq hm j hj
  rw [hpc] at hk'
  cases hk'
  rcases Nat.lt_succ_iff_lt_or_eq.1 hj with hlt | rfl
  · exact h.seen_append hscan hsource (by simp) l m heq hm j hlt
  · obtain ⟨m', rfl, -⟩ := append_eq_append_cons_of_notMem heq (by simp)
    rw [hsource]
    exact List.mem_append_right m' (List.mem_singleton_self _)

/-- A call that returns `false` has been at all clients. -/
theorem SeenOk.missed (h : SeenOk s log) (hlength : s'.clients.length = s.clients.length)
    (hidle : ∀ d, s'.pc d = .idle) (hpc : s.pc d = .scan k) (hk : s.clients.length ≤ k) :
    SeenOk s' (log ++ [.returned d false]) := by
  refine ⟨by rw [registered_append (by simp), hlength, h.length], fun d' k' hk' => ?_, ?_⟩
  · rw [hidle] at hk'
    cases hk'
  · intro l d' m l' heq hm c hc
    have heq' : log ++ [.returned d false] = (l ++ .called d' :: m) ++ .returned d' false :: l' := by
      simpa using heq
    rcases append_eq_append_cons heq' with ⟨l₁, -, hlog⟩ | ⟨os₁, hl, hos⟩
    · exact h.sawEmpty l d' m l₁ (by simpa using hlog) hm c hc
    · obtain ⟨rfl, rfl⟩ : os₁ = [] ∧ d' = d := by
        rcases os₁ with _ | ⟨o, os₁⟩ <;> simp_all
      rw [List.append_nil] at hl
      rw [hl, ← h.length] at hc
      obtain ⟨j, hj, rfl⟩ := exists_source hc
      exact h.seen d' k hpc l m hl.symm hm j (hj.trans_le hk)

variable [DecidableEq δ] {print : ε → OStringStream → OStringStream} {sstream : OStringStream}
  {listener : ℕ}

/-- Every step of calls that do not overlap. -/
theorem SeenOk.step (h : SeenOk s log) {i : AdapterInput δ ε} (hdelivery : DeliveryOk s log)
    (hok : NonOverlapping s i) (hstep : (adapterMachine print).step s i = some (s', os)) :
    SeenOk s' (log ++ os) := by
  have halone {d : δ} {pc pc' : DispatchPc ε} (hpc : s.pc d = pc) (hne : pc ≠ .idle) :
      ∀ d' ≠ d, Function.update s.pc d pc' d' = .idle := by
    intro d' hd'
    rw [Function.update_of_ne hd']
    exact (hdelivery.active (d := d) (by rwa [hpc])).1 d' hd'
  cases adapterStep_of_step hstep with
  | registered x mutex hx =>
    apply h.append
    · simp [registered, h.length]
    · simp
    · exact fun d k hk => absurd hk (hdelivery.not_scan mutex)
  | client c j hj x x' os' hx hstep =>
    apply h.append
    · rw [registered_append (by simp), ← h.length]
      simp [LoggerAdapter.setClient]
    · simp
    · exact fun d k hk => h.seen_append hk (source_setClient c x') (by simp)
  | replaced listener' mutex =>
    apply h.append
    · rw [registered_append (by simp), ← h.length]
    · simp
    · exact fun d k hk => h.seen_append hk (fun _ => rfl) (by simp)
  | called d mutex hpc =>
    apply h.called
    · rfl
    · intro d' hd'
      rw [show LoggerAdapter.pc _ d' = s.pc d' from Function.update_of_ne hd' ..]
      exact hok d rfl d'
    · exact Function.update_self ..
  | empty d k hpc hk x x' hx hstep =>
    apply h.empty _ _ hpc
    · exact Function.update_self ..
    · intro j
      change (s.setClient (s.source k) x').source j = _
      exact source_setClient _ x' j
    · simp [LoggerAdapter.setClient, LoggerAdapter.setPc]
    · exact halone hpc (by simp)
  | taken d k n hpc hk x x' event hx hstep =>
    apply h.move (d := d)
    · simp [LoggerAdapter.setClient, LoggerAdapter.setPc]
    · exact halone hpc (by simp)
    · simp [LoggerAdapter.setPc]
    · simp
    · simp
  | missed d k hpc hk =>
    apply h.missed _ _ hpc hk
    · rfl
    · intro d'
      by_cases hd : d' = d
      · rw [hd]
        exact Function.update_self ..
      · exact halone hpc (by simp) d' hd
  | notified d k c n event listener' hpc =>
    apply h.move (d := d)
    · rfl
    · exact halone hpc (by simp)
    · simp [LoggerAdapter.setPc]
    · simp
    · simp
  | released d k c n j pc input hpc x x' os' hx hstep =>
    apply h.move (d := d)
    · simp [LoggerAdapter.setClient, LoggerAdapter.setPc]
    · rcases hpc with ⟨hpc, -, -⟩ | ⟨hpc, -, -⟩ <;> exact halone hpc (by simp)
    · rcases hpc with ⟨-, -, rfl⟩ | ⟨-, -, rfl⟩ <;> simp [LoggerAdapter.setPc]
    · simp
    · simp
  | finished d k hpc mutex =>
    apply h.move (d := d)
    · rfl
    · exact halone hpc (by simp)
    · simp [LoggerAdapter.setPc]
    · simp
    · simp

end Seen

/-! ## Whole runs -/

section Runs

variable [DecidableEq δ] {print : ε → OStringStream → OStringStream} {sstream : OStringStream}
  {listener : ℕ} {s : LoggerAdapter δ ε} {log : List (AdapterObs δ ε)}

omit [DecidableEq δ] in
theorem length_start :
    (LoggerAdapter.start (δ := δ) (ε := ε) sstream listener).clients.length = 1 := by
  rw [LoggerAdapter.start, newClient_eq]
  rfl

/-- In every run of calls that do not overlap. -/
theorem seenOk_of_reaches
    (h : (adapterMachine print).ReachesWhile NonOverlapping (.start sstream listener) s log) :
    SeenOk s log := by
  apply h.invariant_while (I := SeenOk)
  · refine ⟨length_start, fun d k hk => (nomatch hk), fun l d m l' heq => ?_⟩
    simp at heq
  · exact fun s log i s' os hreach hi hok hs => hi.step (deliveryOk_of_reaches hreach) hok hs

/-- In every run of calls that do not overlap and go on where they have stopped. -/
theorem rotationOk_of_reaches (h : (adapterMachine print).ReachesWhile
      (fun s i => NonOverlapping s i ∧ Unwrapped s i) (.start sstream listener) s log) :
    RotationOk s log := by
  have hnot : ∀ c c', ¬ Owes ([] : List (AdapterObs δ ε)) c c' := by
    rintro c c' ⟨l, d, m, heq, -⟩
    simp at heq
  apply h.invariant_while (I := RotationOk)
  · refine ⟨?_, fun d i hi => (nomatch hi), ?_, fun c c' _ howes => absurd howes (hnot c c'),
      fun c c' _ howes => absurd howes (hnot c c'), fun d k hk => (nomatch hk), ?_⟩
    · rw [length_start]
      exact Nat.zero_lt_one
    · rintro d c ⟨l, event, text, m, heq, -⟩
      simp at heq
    · intro l d c event text l' heq
      simp at heq
  · intro s log i s' os hreach hi hok hs
    have hdelivery := deliveryOk_of_reaches (hreach.mono fun _ _ _ _ _ hok => hok.1)
    exact hi.step hreach.reaches hdelivery hok.2 hs

/-- Calls of `dispatch` that do not overlap rotate through the clients, unless a client is
registered behind a scan that has begun anew. -/
theorem dispatch_rotates (h : (adapterMachine print).ReachesWhile
      (fun s i => NonOverlapping s i ∧ Unwrapped s i) (.start sstream listener) s log) :
    Rotates log where
  fair l d c event text m₁ m₂ d' event' text' l' heq hm₁ _ c' hne hunread hnil := by
    have hfair := (rotationOk_of_reaches h).fair
      (l ++ .taken d c event text :: (m₁ ++ .returned d true :: m₂)) d' c event' text' l'
      (by simpa using heq) c' hne
    have hwaits : Unread c' (l ++ .taken d c event text :: m₁) := by
      have hstart := hunread [] m₂ rfl
      rw [← List.cons_append, ← List.append_assoc] at hstart
      exact (unread_append_quiet rfl (by simp)).1 hstart
    exact hfair ⟨l ++ .taken d c event text :: m₁, d, m₂, by simp,
      ⟨l, event, text, m₁, rfl, hm₁⟩, hwaits, hnil⟩
  sawEmpty := (seenOk_of_reaches (h.mono fun _ _ _ _ _ hok => hok.1)).sawEmpty

end Runs

/-! ## Two runs -/

/-- A call of `dispatch` that finds an event at the first client of its scan. -/
def dispatchCall : List (AdapterInput Unit String) := .dispatch () :: List.replicate 5 (.resume ())

/-- The second client is read between two events of the first one. -/
theorem dispatch_rotates_two : ∃ (s : LoggerAdapter Unit String) (log : List _),
    (adapterMachine printText).Reaches (.start plainStream 0) s log ∧ Rotates log ∧
      takenFrom 0 log = [some ⟨0, ⟨0, "first"⟩⟩, some ⟨1, ⟨1, "second"⟩⟩] ∧
      takenFrom 1 log = [some ⟨0, ⟨0, "waiting"⟩⟩] := by
  have hrun : (adapterMachine printText).ReachesWhile Unwrapped _ _ _ := .of_run (show
    (adapterMachine printText).run (LoggerAdapter.start (δ := Unit) plainStream 0)
      (.registerClient :: (logCall 0 "first" ++ logCall 0 "second" ++ logCall 1 "waiting" ++
        dispatchCall ++ dispatchCall ++ dispatchCall)) = some (_, _) from rfl) (by decide)
  exact ⟨_, _, hrun.reaches, dispatch_rotates (hrun.mono fun s i s' os hstep hok =>
    ⟨nonOverlapping_of_subsingleton hstep, hok⟩), by decide, by decide⟩

/-- The second call reads the last client of its scan, which is the first one; then a client is
registered, and the cursor stays at the first client, while the second one waits. -/
def skipping : List (AdapterInput Unit String) :=
  .registerClient :: (logCall 0 "first" ++ dispatchCall ++ logCall 0 "second" ++
    [.dispatch (), .resume ()] ++ logCall 1 "waiting" ++ List.replicate 4 (.resume ()) ++
    [.registerClient, .resume ()] ++ logCall 0 "third" ++ [.dispatch (), .resume ()])

def skippingLog : List (AdapterObs Unit String) :=
  ((adapterMachine printText).run (.start plainStream 0) skipping).elim [] Prod.snd

theorem dispatch_skips : ∃ (s : LoggerAdapter Unit String) (log : List _),
    (adapterMachine printText).ReachesWhile NonOverlapping (.start plainStream 0) s log ∧
      ¬ Rotates log := by
  have hrun := Machine.Reaches.of_run (show
    (adapterMachine printText).run (LoggerAdapter.start (δ := Unit) plainStream 0) skipping =
      some (_, skippingLog) from rfl)
  refine ⟨_, _, hrun.reachesWhile fun s i s' os hstep => nonOverlapping_of_subsingleton hstep, ?_⟩
  have hlog : skippingLog = skippingLog.take 22 ++
      .taken () 0 (some ⟨1, ⟨1, "second"⟩⟩) "second" :: ((skippingLog.drop 23).take 6 ++
        .returned () true :: ((skippingLog.drop 30).take 5 ++
          .taken () 0 (some ⟨2, ⟨2, "third"⟩⟩) "third" :: [])) := by decide
  have hwaits : Unread 1 (skippingLog.take 22 ++
      .taken () 0 (some ⟨1, ⟨1, "second"⟩⟩) "second" :: ((skippingLog.drop 23).take 6 ++
        [.returned () true])) := by
    unfold Unread
    decide
  have hnil : takenFrom 1 ((skippingLog.drop 30).take 5) = [] := by decide
  intro h
  apply h.fair _ _ _ _ _ _ _ _ _ _ _ hlog (by decide) (by decide) 1 (by decide) _ hnil
  intro m m' hm
  rw [hm, takenFrom_append, List.append_eq_nil_iff] at hnil
  simpa using hwaits.append hnil.1

end Ihft.Logger
