import Ihft.Channel.PodQueue

/-!
# The ping-pong of two queues

`ping_pong.cpp`: thread `a` sends a number to thread `b` through one queue and spins until the same
number comes back through another one, `repeats * iters` times.  Both threads spin on calls that
fail, so what they do depends on how their steps interleave; the numbers do not.  Between the
spinning there is one thread whose turn it is (`stageAt`), so no write is ever refused, thread `a`
never aborts, and under every fair schedule both threads end (`pingPong_exchanges`).

The program has `1024` rounds of `256` numbers.  The division by `iters` after the loop of a round,
which belongs to what is measured, is not part of the model; it rules out `iters` equal to `0`.
-/

namespace Ihft.Channel

open Observe Broadcast

/-- Where a thread stands in the body of its loops. -/
inductive PeerPc
  | tryWrite (event : ℕ) (c : Call)
  | tryRead (c : Call)
  | aborted
  deriving DecidableEq, Repr

/-- A thread with its loop variables. -/
structure Peer where
  j : ℕ
  i : ℕ
  pc : PeerPc
  deriving DecidableEq, Repr

namespace Peer

/-- The end of the body of the inner loop. -/
def next (iters : ℕ) (p : Peer) : Peer :=
  if p.i + 1 < iters then { p with i := p.i + 1 } else { p with j := p.j + 1, i := 0 }

/-- The thread `a` after a step of its call: it sends `i` and checks what comes back. -/
def ping (iters : ℕ) (p : Peer) (os : List (Obs (Fin 1) ℕ)) : Peer :=
  match p.pc, Call.after os with
  | .tryWrite event _, some c => { p with pc := .tryWrite event c }
  | .tryWrite _ _, none => { p with pc := .tryRead .spin }
  | .tryRead _, some c => { p with pc := .tryRead c }
  | .tryRead _, none =>
    if Call.result os = some p.i then
      { p.next iters with pc := .tryWrite (p.next iters).i .spin }
    else
      { p with pc := .aborted }
  | .aborted, _ => p

/-- The thread `b` after a step of its call: it sends back what it receives. -/
def pong (iters : ℕ) (p : Peer) (os : List (Obs (Fin 1) ℕ)) : Peer :=
  match p.pc, Call.after os with
  | .tryRead _, some c => { p with pc := .tryRead c }
  | .tryRead _, none =>
    match Call.result os with
    | some event => { p with pc := .tryWrite event .spin }
    | none => p
  | .tryWrite event _, some c => { p with pc := .tryWrite event c }
  | .tryWrite _ _, none => { p.next iters with pc := .tryRead .spin }
  | .aborted, _ => p

/-- The conditions of the loops. -/
def Running (repeats iters : ℕ) (p : Peer) : Prop :=
  p.j < repeats ∧ p.i < iters

instance (repeats iters : ℕ) (p : Peer) : Decidable (p.Running repeats iters) :=
  inferInstanceAs (Decidable (_ ∧ _))

end Peer

/-- The two queues and the two threads. -/
structure PingPong (σ : Type*) where
  ab : σ
  ba : σ
  a : Peer
  b : Peer

inductive PingPongThread
  | a
  | b
  deriving DecidableEq, Repr

inductive PingPongObs
  | ab (o : Obs (Fin 1) ℕ)
  | ba (o : Obs (Fin 1) ℕ)
  deriving DecidableEq, Repr

namespace PingPong

variable {σ : Type*} (Q : Machine σ (PodInput 1 ℕ) (Obs (Fin 1) ℕ)) (repeats iters : ℕ)

def start (queue : σ) : PingPong σ where
  ab := queue
  ba := queue
  a := ⟨0, 0, .tryWrite 0 .spin⟩
  b := ⟨0, 0, .tryRead .spin⟩

/-- A step of the thread `a`, which writes to one queue and reads from the other. -/
def stepA (s : PingPong σ) : Option (PingPong σ × List PingPongObs) :=
  if s.a.Running repeats iters then
    match s.a.pc with
    | .tryWrite event c => (Q.step s.ab (c.writing event)).map fun done =>
        ({ s with ab := done.1, a := s.a.ping iters done.2 }, done.2.map .ab)
    | .tryRead c => (Q.step s.ba (c.reading 0)).map fun done =>
        ({ s with ba := done.1, a := s.a.ping iters done.2 }, done.2.map .ba)
    | .aborted => none
  else
    none

/-- A step of the thread `b`; `abort` in the thread `a` ends it as well. -/
def stepB (s : PingPong σ) : Option (PingPong σ × List PingPongObs) :=
  if s.b.Running repeats iters ∧ s.a.pc ≠ .aborted then
    match s.b.pc with
    | .tryRead c => (Q.step s.ab (c.reading 0)).map fun done =>
        ({ s with ab := done.1, b := s.b.pong iters done.2 }, done.2.map .ab)
    | .tryWrite event c => (Q.step s.ba (c.writing event)).map fun done =>
        ({ s with ba := done.1, b := s.b.pong iters done.2 }, done.2.map .ba)
    | .aborted => none
  else
    none

variable {Q repeats iters} {s : PingPong σ} {q : σ} {event : ℕ} {c : Call} {p : Peer}
  {os : List (Obs (Fin 1) ℕ)} {os' : List PingPongObs}

theorem stepA_tryWrite (hrun : s.a.Running repeats iters) (hpc : s.a.pc = .tryWrite event c)
    (hq : Q.step s.ab (c.writing event) = some (q, os)) (hp : s.a.ping iters os = p)
    (hos : os.map .ab = os') : s.stepA Q repeats iters = some (⟨q, s.ba, p, s.b⟩, os') := by
  rw [stepA, if_pos hrun, hpc]
  simp only [hq, Option.map_some, hp, hos]

theorem stepA_tryRead (hrun : s.a.Running repeats iters) (hpc : s.a.pc = .tryRead c)
    (hq : Q.step s.ba (c.reading 0) = some (q, os)) (hp : s.a.ping iters os = p)
    (hos : os.map .ba = os') : s.stepA Q repeats iters = some (⟨s.ab, q, p, s.b⟩, os') := by
  rw [stepA, if_pos hrun, hpc]
  simp only [hq, Option.map_some, hp, hos]

theorem stepB_tryRead (hrun : s.b.Running repeats iters) (ha : s.a.pc ≠ .aborted)
    (hpc : s.b.pc = .tryRead c) (hq : Q.step s.ab (c.reading 0) = some (q, os))
    (hp : s.b.pong iters os = p) (hos : os.map .ab = os') :
    s.stepB Q repeats iters = some (⟨q, s.ba, s.a, p⟩, os') := by
  rw [stepB, if_pos ⟨hrun, ha⟩, hpc]
  simp only [hq, Option.map_some, hp, hos]

theorem stepB_tryWrite (hrun : s.b.Running repeats iters) (ha : s.a.pc ≠ .aborted)
    (hpc : s.b.pc = .tryWrite event c) (hq : Q.step s.ba (c.writing event) = some (q, os))
    (hp : s.b.pong iters os = p) (hos : os.map .ba = os') :
    s.stepB Q repeats iters = some (⟨s.ab, q, s.a, p⟩, os') := by
  rw [stepB, if_pos ⟨hrun, ha⟩, hpc]
  simp only [hq, Option.map_some, hp, hos]

variable (repeats iters)

/-- Both threads can be joined. -/
def Finished (s : PingPong σ) : Prop :=
  ¬ s.a.Running repeats iters ∧ ¬ s.b.Running repeats iters

end PingPong

/-- The two threads of `main` over two queues of one kind. -/
def pingPongMachine {σ : Type*} (Q : Machine σ (PodInput 1 ℕ) (Obs (Fin 1) ℕ))
    (repeats iters : ℕ) : Machine (PingPong σ) PingPongThread PingPongObs where
  step s
    | .a => s.stepA Q repeats iters
    | .b => s.stepB Q repeats iters

/-! ## The logs of the two queues -/

/-- What is seen of the queue from `a` to `b`. -/
def abLog (log : List PingPongObs) : List (Obs (Fin 1) ℕ) :=
  log.filterMap fun
    | .ab o => some o
    | .ba _ => none

/-- What is seen of the queue from `b` to `a`. -/
def baLog (log : List PingPongObs) : List (Obs (Fin 1) ℕ) :=
  log.filterMap fun
    | .ab _ => none
    | .ba o => some o

/-! ## Whose turn it is -/

/-- The first `k` numbers that go round. -/
def exchanged (iters k : ℕ) : List ℕ :=
  (List.range k).map fun m => m % iters

theorem exchanged_succ (iters k : ℕ) :
    exchanged iters (k + 1) = exchanged iters k ++ [k % iters] := by
  simp [exchanged, List.range_succ]

@[simp] theorem length_exchanged (iters k : ℕ) : (exchanged iters k).length = k := by
  simp [exchanged]

theorem getElem?_exchanged (iters m : ℕ) : (exchanged iters (m + 1))[m]? = some (m % iters) := by
  simp [exchanged]

/-- A queue that `written` numbers have been written to and `taken` read from. -/
def link (iters written taken : ℕ) (offer : Option (ℕ × ℕ)) (inside : ℕ) : Underway 1 ℕ :=
  ⟨⟨exchanged iters written, fun _ => taken⟩, offer, fun _ => inside⟩

/-- A thread in its iteration `m`. -/
def peer (iters m : ℕ) (pc : PeerPc) : Peer :=
  ⟨m / iters, m % iters, pc⟩

/-- Whose turn it is, and how far it has got; `k` steps of the call are to follow on the next
one. -/
inductive Stage
  | aTurn
  | aWrites (k : ℕ)
  | sent
  | bReads (k : ℕ)
  | bTurn
  | bWrites (k : ℕ)
  | returned
  | aReads (k : ℕ)

/-- The state in which the number `m` has come to the given stage. -/
def stageAt (iters m : ℕ) : Stage → PingPong (Underway 1 ℕ)
  | .aTurn => ⟨link iters m m none 0, link iters m m none 0,
      peer iters m (.tryWrite (m % iters) .spin), peer iters m (.tryRead .spin)⟩
  | .aWrites k => ⟨link iters m m (some (m % iters, k)) 0, link iters m m none 0,
      peer iters m (.tryWrite (m % iters) .inside), peer iters m (.tryRead .spin)⟩
  | .sent => ⟨link iters (m + 1) m none 0, link iters m m none 0,
      peer iters m (.tryRead .spin), peer iters m (.tryRead .spin)⟩
  | .bReads k => ⟨link iters (m + 1) m none (k + 1), link iters m m none 0,
      peer iters m (.tryRead .spin), peer iters m (.tryRead .inside)⟩
  | .bTurn => ⟨link iters (m + 1) (m + 1) none 0, link iters m m none 0,
      peer iters m (.tryRead .spin), peer iters m (.tryWrite (m % iters) .spin)⟩
  | .bWrites k => ⟨link iters (m + 1) (m + 1) none 0, link iters m m (some (m % iters, k)) 0,
      peer iters m (.tryRead .spin), peer iters m (.tryWrite (m % iters) .inside)⟩
  | .returned => ⟨link iters (m + 1) (m + 1) none 0, link iters (m + 1) m none 0,
      peer iters m (.tryRead .spin), peer iters (m + 1) (.tryRead .spin)⟩
  | .aReads k => ⟨link iters (m + 1) (m + 1) none 0, link iters (m + 1) m none (k + 1),
      peer iters m (.tryRead .inside), peer iters (m + 1) (.tryRead .spin)⟩

namespace Stage

/-- The thread whose turn it is. -/
def turn : Stage → PingPongThread
  | aTurn | aWrites _ | returned | aReads _ => .a
  | sent | bReads _ | bTurn | bWrites _ => .b

/-- The stage after a step of that thread, in the same iteration or in the next one. -/
def next (w m : ℕ) : Stage → ℕ × Stage
  | aTurn => (m, aWrites w)
  | aWrites 0 => (m, sent)
  | aWrites (k + 1) => (m, aWrites k)
  | sent => (m, bReads 1)
  | bReads 0 => (m, bTurn)
  | bReads (k + 1) => (m, bReads k)
  | bTurn => (m, bWrites w)
  | bWrites 0 => (m, returned)
  | bWrites (k + 1) => (m, bWrites k)
  | returned => (m, aReads 1)
  | aReads 0 => (m + 1, aTurn)
  | aReads (k + 1) => (m, aReads k)

/-- What is seen of that step. -/
def shows (iters m : ℕ) : Stage → List PingPongObs
  | aWrites 0 => [.ab (.wrote (m % iters))]
  | bReads 0 => [.ab (.read 0 (some (m % iters)))]
  | bWrites 0 => [.ba (.wrote (m % iters))]
  | aReads 0 => [.ba (.read 0 (some (m % iters)))]
  | _ => []

/-- What is seen of the other thread, which spins on a `try_read`. -/
def spins : Stage → List PingPongObs
  | aTurn | aWrites _ | returned | aReads _ => [.ab (.empty 0)]
  | sent | bReads _ | bTurn | bWrites _ => [.ba (.empty 0)]

theorem shows_not_refused (iters m : ℕ) (st : Stage) (e : ℕ) :
    .ab (.refused e) ∉ st.shows iters m ∧ .ba (.refused e) ∉ st.shows iters m := by
  unfold shows
  split <;> simp

theorem spins_not_refused (st : Stage) (e : ℕ) :
    .ab (.refused e) ∉ st.spins ∧ .ba (.refused e) ∉ st.spins := by
  cases st <;> simp [spins]

/-- The steps left before the next iteration. -/
def left (w : ℕ) : Stage → ℕ
  | aTurn => 2 * w + 10
  | aWrites k => w + 9 + k
  | sent => w + 8
  | bReads k => w + 6 + k
  | bTurn => w + 5
  | bWrites k => 4 + k
  | returned => 3
  | aReads k => k + 1

end Stage

/-! ### The queues -/

section Link

variable {iters m w C : ℕ} {offer : Option (ℕ × ℕ)} {inside : ℕ}

theorem update_fin_one {β : Type*} (f : Fin 1 → β) (r : Fin 1) (v : β) :
    Function.update f r v = fun _ => v :=
  Function.update_eq_const_of_subsingleton r v f

theorem link_tryWrite (hC : 0 < C) (event : ℕ) :
    (underwayMachine 1 ℕ C w).step (link iters m m none inside) (Call.writing event .spin) =
      some (link iters m m (some (event, w)) inside, []) := by
  simp [underwayMachine, Call.writing, Underway.tryWrite, link, hC]

theorem link_writes (written taken event k : ℕ) : (underwayMachine 1 ℕ C w).step
    (link iters written taken (some (event, k + 1)) inside) (Call.writing event .inside) =
      some (link iters written taken (some (event, k)) inside, []) := rfl

theorem link_wrote : (underwayMachine 1 ℕ C w).step
    (link iters m m (some (m % iters, 0)) inside) (Call.writing (m % iters) .inside) =
      some (link iters (m + 1) m none inside, [.wrote (m % iters)]) := by
  simp [underwayMachine, Call.writing, Underway.resumeWriter, link, State.write, exchanged_succ]

theorem link_empty : (underwayMachine 1 ℕ C w).step (link iters m m offer 0)
    (Call.reading 0 .spin) = some (link iters m m offer 0, [.empty 0]) := by
  simp [underwayMachine, Call.reading, Underway.tryRead, link]

theorem link_tryRead : (underwayMachine 1 ℕ C w).step (link iters (m + 1) m offer 0)
    (Call.reading 0 .spin) = some (link iters (m + 1) m offer 2, []) := by
  simp only [underwayMachine, Call.reading, Underway.tryRead, link, length_exchanged,
    Nat.lt_succ_self, if_true, Underway.setInside, update_fin_one]

theorem link_reads (written taken k : ℕ) : (underwayMachine 1 ℕ C w).step
    (link iters written taken offer (k + 2)) (Call.reading 0 .inside) =
      some (link iters written taken offer (k + 1), []) := by
  simp only [underwayMachine, Call.reading, Underway.resumeReader, link, Underway.setInside,
    update_fin_one]

theorem link_read : (underwayMachine 1 ℕ C w).step (link iters (m + 1) m offer 1)
    (Call.reading 0 .inside) =
      some (link iters (m + 1) (m + 1) offer 0, [.read 0 (some (m % iters))]) := by
  simp only [underwayMachine, Call.reading, Underway.resumeReader, link, Underway.setInside,
    State.take, update_fin_one, getElem?_exchanged]

end Link

/-! ### The threads -/

section Turns

variable {repeats iters m w C : ℕ}

theorem peer_running (pc : PeerPc) (hm : m < repeats * iters) :
    (peer iters m pc).Running repeats iters := by
  have hpos : 0 < iters := Nat.pos_of_lt_mul_left hm
  exact ⟨(Nat.div_lt_iff_lt_mul hpos).2 hm, Nat.mod_lt m hpos⟩

theorem not_peer_running (pc : PeerPc) (hm : repeats * iters ≤ m) :
    ¬ (peer iters m pc).Running repeats iters := by
  rintro ⟨hj, hi⟩
  have hpos : 0 < iters := (Nat.zero_le _).trans_lt hi
  exact absurd ((Nat.div_lt_iff_lt_mul hpos).1 hj) (by omega)

theorem peer_next (pc : PeerPc) (hpos : 0 < iters) :
    (peer iters m pc).next iters = peer iters (m + 1) pc := by
  have hdiv := Nat.div_add_mod m iters
  have hlt := Nat.mod_lt m hpos
  unfold Peer.next peer
  by_cases h : m % iters + 1 < iters
  · obtain ⟨hq, hr⟩ := (Nat.div_mod_unique hpos (a := m + 1) (c := m % iters + 1)
      (d := m / iters)).2 ⟨by omega, h⟩
    rw [if_pos h, hq, hr]
  · obtain ⟨hq, hr⟩ := (Nat.div_mod_unique hpos (a := m + 1) (c := 0) (d := m / iters + 1)).2
      ⟨by rw [Nat.mul_add]; omega, hpos⟩
    rw [if_neg h, hq, hr]

/-- Thread `a` goes on with the next number when its own has come back. -/
theorem ping_read (hpos : 0 < iters) (c : Call) (r : Fin 1) :
    (peer iters m (.tryRead c)).ping iters [.read r (some (m % iters))] =
      peer iters (m + 1) (.tryWrite ((m + 1) % iters) .spin) := by
  have hnext := peer_next (m := m) (.tryRead c) hpos
  simp only [Peer.ping, peer, Call.after, Call.result, if_true] at hnext ⊢
  rw [hnext]

theorem pong_wrote (hpos : 0 < iters) (event event' : ℕ) (c : Call) :
    (peer iters m (.tryWrite event c)).pong iters [.wrote event'] =
      peer iters (m + 1) (.tryRead .spin) := by
  have hnext := peer_next (m := m) (.tryWrite event c) hpos
  simp only [Peer.pong, peer, Call.after] at hnext ⊢
  rw [hnext]

/-- The thread whose turn it is comes to the next stage. -/
theorem stageAt_turn (hC : 0 < C) (hm : m < repeats * iters) (st : Stage) :
    (pingPongMachine (underwayMachine 1 ℕ C w) repeats iters).step (stageAt iters m st) st.turn =
      some (stageAt iters (st.next w m).1 (st.next w m).2, st.shows iters m) := by
  have hpos : 0 < iters := Nat.pos_of_lt_mul_left hm
  have hrun (pc : PeerPc) := peer_running pc hm
  match st with
  | .aTurn => exact PingPong.stepA_tryWrite (hrun _) rfl (link_tryWrite hC _) rfl rfl
  | .aWrites 0 => exact PingPong.stepA_tryWrite (hrun _) rfl link_wrote rfl rfl
  | .aWrites (k + 1) => exact PingPong.stepA_tryWrite (hrun _) rfl (link_writes ..) rfl rfl
  | .sent => exact PingPong.stepB_tryRead (hrun _) nofun rfl link_tryRead rfl rfl
  | .bReads 0 => exact PingPong.stepB_tryRead (hrun _) nofun rfl link_read rfl rfl
  | .bReads (k + 1) => exact PingPong.stepB_tryRead (hrun _) nofun rfl (link_reads ..) rfl rfl
  | .bTurn => exact PingPong.stepB_tryWrite (hrun _) nofun rfl (link_tryWrite hC _) rfl rfl
  | .bWrites 0 =>
    exact PingPong.stepB_tryWrite (hrun _) nofun rfl link_wrote (pong_wrote hpos ..) rfl
  | .bWrites (k + 1) => exact PingPong.stepB_tryWrite (hrun _) nofun rfl (link_writes ..) rfl rfl
  | .returned => exact PingPong.stepA_tryRead (hrun _) rfl link_tryRead rfl rfl
  | .aReads 0 => exact PingPong.stepA_tryRead (hrun _) rfl link_read (ping_read hpos ..) rfl
  | .aReads (k + 1) => exact PingPong.stepA_tryRead (hrun _) rfl (link_reads ..) rfl rfl

/-- The other thread spins, or has ended. -/
theorem stageAt_spin (hm : m < repeats * iters) (st : Stage) {t : PingPongThread}
    (ht : t ≠ st.turn) :
    (pingPongMachine (underwayMachine 1 ℕ C w) repeats iters).step (stageAt iters m st) t = none ∨
      (pingPongMachine (underwayMachine 1 ℕ C w) repeats iters).step (stageAt iters m st) t =
        some (stageAt iters m st, st.spins) := by
  have hrun (pc : PeerPc) := peer_running pc hm
  have hb (hturn : st.turn = .a) : t = .b := by
    cases t with
    | a => exact absurd hturn.symm ht
    | b => rfl
  have ha (hturn : st.turn = .b) : t = .a := by
    cases t with
    | a => rfl
    | b => exact absurd hturn.symm ht
  match st with
  | .aTurn =>
    obtain rfl := hb rfl
    exact .inr (PingPong.stepB_tryRead (hrun _) nofun rfl link_empty rfl rfl)
  | .aWrites k =>
    obtain rfl := hb rfl
    exact .inr (PingPong.stepB_tryRead (hrun _) nofun rfl link_empty rfl rfl)
  | .sent =>
    obtain rfl := ha rfl
    exact .inr (PingPong.stepA_tryRead (hrun _) rfl link_empty rfl rfl)
  | .bReads k =>
    obtain rfl := ha rfl
    exact .inr (PingPong.stepA_tryRead (hrun _) rfl link_empty rfl rfl)
  | .bTurn =>
    obtain rfl := ha rfl
    exact .inr (PingPong.stepA_tryRead (hrun _) rfl link_empty rfl rfl)
  | .bWrites k =>
    obtain rfl := ha rfl
    exact .inr (PingPong.stepA_tryRead (hrun _) rfl link_empty rfl rfl)
  | .returned =>
    obtain rfl := hb rfl
    by_cases hrun' : (peer iters (m + 1) (.tryRead .spin)).Running repeats iters
    · exact .inr (PingPong.stepB_tryRead hrun' nofun rfl link_empty rfl rfl)
    · exact .inl (if_neg fun h => hrun' h.1)
  | .aReads k =>
    obtain rfl := hb rfl
    by_cases hrun' : (peer iters (m + 1) (.tryRead .spin)).Running repeats iters
    · exact .inr (PingPong.stepB_tryRead hrun' nofun rfl link_empty rfl rfl)
    · exact .inl (if_neg fun h => hrun' h.1)

/-- After the last number both threads have ended. -/
theorem stageAt_last (t : PingPongThread) :
    (pingPongMachine (underwayMachine 1 ℕ C w) repeats iters).step
      (stageAt iters (repeats * iters) .aTurn) t = none := by
  cases t with
  | a => exact if_neg (not_peer_running _ le_rfl)
  | b => exact if_neg fun h => not_peer_running _ le_rfl h.1

end Turns

/-! ## Runs -/

/-- The number `m` has come to the stage `st`; after the last number there is no stage left. -/
inductive Exchange (N iters : ℕ) (s : PingPong (Underway 1 ℕ)) : ℕ → Stage → Prop
  | going {m : ℕ} {st : Stage} (hm : m < N) (hs : s = stageAt iters m st) : Exchange N iters s m st
  | ended (hs : s = stageAt iters N .aTurn) : Exchange N iters s N .aTurn

section Runs

variable {repeats iters m w C : ℕ} {s s' : PingPong (Underway 1 ℕ)} {st : Stage}
  {t : PingPongThread} {os : List PingPongObs}

theorem exchange_aTurn (hm : m ≤ repeats * iters) :
    Exchange (repeats * iters) iters (stageAt iters m .aTurn) m .aTurn := by
  rcases hm.lt_or_eq with hlt | rfl
  · exact .going hlt rfl
  · exact .ended rfl

theorem exchange_next (hm : m < repeats * iters) (st : Stage) :
    Exchange (repeats * iters) iters (stageAt iters (st.next w m).1 (st.next w m).2)
      (st.next w m).1 (st.next w m).2 := by
  match st with
  | .aReads 0 => exact exchange_aTurn hm
  | .aTurn | .aWrites 0 | .aWrites (_ + 1) | .sent | .bReads 0 | .bReads (_ + 1) | .bTurn
  | .bWrites 0 | .bWrites (_ + 1) | .returned | .aReads (_ + 1) => exact .going hm rfl

/-- One step: the number comes to its next stage, or a thread spins. -/
theorem Exchange.step (hC : 0 < C) (h : Exchange (repeats * iters) iters s m st)
    (hs : (pingPongMachine (underwayMachine 1 ℕ C w) repeats iters).step s t = some (s', os)) :
    (s' = s ∧ os = st.spins) ∨ (m < repeats * iters ∧ t = st.turn ∧ os = st.shows iters m ∧
      Exchange (repeats * iters) iters s' (st.next w m).1 (st.next w m).2) := by
  cases h with
  | ended hs' =>
    rw [hs', stageAt_last] at hs
    cases hs
  | going hm hs' =>
    subst hs'
    by_cases ht : t = st.turn
    · subst ht
      rw [stageAt_turn hC hm] at hs
      cases hs
      exact .inr ⟨hm, rfl, rfl, exchange_next hm st⟩
    · obtain hnone | hspin := stageAt_spin (C := C) (w := w) hm st ht
      · rw [hnone] at hs
        cases hs
      · rw [hspin] at hs
        cases hs
        exact .inl ⟨rfl, rfl⟩

/-- The steps left of the whole exchange. -/
def stepsLeft (N w m : ℕ) (st : Stage) : ℕ :=
  if m < N then (N - (m + 1)) * (2 * w + 10) + st.left w else 0

theorem stepsLeft_next {N : ℕ} (hm : m < N) (st : Stage) :
    stepsLeft N w (st.next w m).1 (st.next w m).2 < stepsLeft N w m st := by
  have hsame (st' : Stage) (h : st'.left w < st.left w) :
      stepsLeft N w m st' < stepsLeft N w m st := by
    rw [stepsLeft, stepsLeft, if_pos hm, if_pos hm]
    omega
  match st with
  | .aReads 0 =>
    change stepsLeft N w (m + 1) .aTurn < _
    simp only [stepsLeft, Stage.left, if_pos hm]
    by_cases hlt : m + 1 < N
    · rw [if_pos hlt, show N - (m + 1) = N - (m + 1 + 1) + 1 by omega,
        Nat.succ_mul (N - (m + 1 + 1))]
      omega
    · rw [if_neg hlt]
      omega
  | .aTurn | .aWrites 0 | .aWrites (_ + 1) | .sent | .bReads 0 | .bReads (_ + 1) | .bTurn
  | .bWrites 0 | .bWrites (_ + 1) | .returned | .aReads (_ + 1) =>
    exact hsame _ (by simp only [Stage.next, Stage.left]; omega)

theorem Exchange.eq_of_stepsLeft_eq_zero {N : ℕ} (h : Exchange N iters s m st)
    (hzero : stepsLeft N w m st = 0) : m = N := by
  cases h with
  | ended => rfl
  | going hm _ => exact absurd hzero ((Nat.zero_le _).trans_lt (stepsLeft_next hm st)).ne'

theorem pingPong_progress (hC : 0 < C) :
    Progress (pingPongMachine (underwayMachine 1 ℕ C w) repeats iters)
      (fun s n => ∃ m st, Exchange (repeats * iters) iters s m st ∧
        n = stepsLeft (repeats * iters) w m st) id where
  step {s n t s' os} h hs := by
    obtain ⟨m, st, hex, rfl⟩ := h
    obtain ⟨rfl, -⟩ | ⟨hm, -, -, hex'⟩ := hex.step hC hs
    · exact .inr ⟨⟨m, st, hex, rfl⟩, rfl⟩
    · exact .inl ⟨_, stepsLeft_next hm st, _, _, hex', rfl⟩
  helps {s n} h hn := by
    obtain ⟨m, st, hex, rfl⟩ := h
    have hm : m < repeats * iters := by
      by_contra hm
      rw [stepsLeft, if_neg hm] at hn
      exact absurd hn (lt_irrefl 0)
    refine ⟨st.turn, fun s₁ _ heq => ?_⟩
    obtain rfl : s₁ = s := heq
    cases hex with
    | ended => exact absurd hm (lt_irrefl _)
    | going _ hs =>
      subst hs
      exact ⟨_, _, _, stageAt_turn hC hm st, stepsLeft_next hm st, _, _, exchange_next hm st, rfl⟩

end Runs

/-! ## The logs and the queues -/

/-- A step is one of a queue, and leaves the other one alone. -/
theorem pingPong_step_cases {σ : Type*} {Q : Machine σ (PodInput 1 ℕ) (Obs (Fin 1) ℕ)}
    {repeats iters : ℕ} {s s' : PingPong σ} {t : PingPongThread} {os : List PingPongObs}
    (hs : (pingPongMachine Q repeats iters).step s t = some (s', os)) :
    (∃ i os', Q.step s.ab i = some (s'.ab, os') ∧ s'.ba = s.ba ∧ os = os'.map .ab) ∨
      ∃ i os', Q.step s.ba i = some (s'.ba, os') ∧ s'.ab = s.ab ∧ os = os'.map .ba := by
  cases t with
  | a =>
    simp only [pingPongMachine, PingPong.stepA] at hs
    split_ifs at hs
    split at hs
    · obtain ⟨⟨q, os'⟩, hq, h⟩ := Option.map_eq_some_iff.1 hs
      cases h
      exact .inl ⟨_, _, hq, rfl, rfl⟩
    · obtain ⟨⟨q, os'⟩, hq, h⟩ := Option.map_eq_some_iff.1 hs
      cases h
      exact .inr ⟨_, _, hq, rfl, rfl⟩
    · cases hs
  | b =>
    simp only [pingPongMachine, PingPong.stepB] at hs
    split_ifs at hs
    split at hs
    · obtain ⟨⟨q, os'⟩, hq, h⟩ := Option.map_eq_some_iff.1 hs
      cases h
      exact .inl ⟨_, _, hq, rfl, rfl⟩
    · obtain ⟨⟨q, os'⟩, hq, h⟩ := Option.map_eq_some_iff.1 hs
      cases h
      exact .inr ⟨_, _, hq, rfl, rfl⟩
    · cases hs

@[simp] theorem abLog_append (l l' : List PingPongObs) : abLog (l ++ l') = abLog l ++ abLog l' :=
  List.filterMap_append

@[simp] theorem baLog_append (l l' : List PingPongObs) : baLog (l ++ l') = baLog l ++ baLog l' :=
  List.filterMap_append

@[simp] theorem abLog_map_ab (os : List (Obs (Fin 1) ℕ)) : abLog (os.map .ab) = os := by
  simp [abLog, List.filterMap_map]

@[simp] theorem abLog_map_ba (os : List (Obs (Fin 1) ℕ)) : abLog (os.map .ba) = [] := by
  simp [abLog]

@[simp] theorem baLog_map_ab (os : List (Obs (Fin 1) ℕ)) : baLog (os.map .ab) = [] := by
  simp [baLog]

@[simp] theorem baLog_map_ba (os : List (Obs (Fin 1) ℕ)) : baLog (os.map .ba) = os := by
  simp [baLog, List.filterMap_map]

/-- Each queue has a run of its own. -/
theorem pingPong_queues {σ : Type*} {Q : Machine σ (PodInput 1 ℕ) (Obs (Fin 1) ℕ)}
    {repeats iters : ℕ} {q : σ} {s : PingPong σ} {log : List PingPongObs}
    (h : (pingPongMachine Q repeats iters).Reaches (.start q) s log) :
    Q.Reaches q s.ab (abLog log) ∧ Q.Reaches q s.ba (baLog log) := by
  constructor
  · refine h.project PingPong.ab abLog rfl abLog_append fun s t s' os hs => ?_
    obtain ⟨i, os', hq, -, rfl⟩ | ⟨i, os', -, hab, rfl⟩ := pingPong_step_cases hs
    · exact .inr ⟨i, by rw [abLog_map_ab, hq]⟩
    · exact .inl ⟨hab, abLog_map_ba os'⟩
  · refine h.project PingPong.ba baLog rfl baLog_append fun s t s' os hs => ?_
    obtain ⟨i, os', -, hba, rfl⟩ | ⟨i, os', hq, -, rfl⟩ := pingPong_step_cases hs
    · exact .inl ⟨hba, baLog_map_ab os'⟩
    · exact .inr ⟨i, by rw [baLog_map_ba, hq]⟩

/-! ## Over the calls, and over the steps of the queues -/

/-- The same threads over related queues. -/
structure PingPongRel {σ τ : Type*} (R : σ → τ → Prop) (s : PingPong σ) (t : PingPong τ) :
    Prop where
  ab : R s.ab t.ab
  ba : R s.ba t.ba
  a : s.a = t.a
  b : s.b = t.b

theorem PingPongRel.finished_iff {σ τ : Type*} {R : σ → τ → Prop} {s : PingPong σ} {t : PingPong τ}
    (h : PingPongRel R s t) {repeats iters : ℕ} :
    s.Finished repeats iters ↔ t.Finished repeats iters := by
  rw [PingPong.Finished, PingPong.Finished, h.a, h.b]

theorem pingPong_bisimulates {σ τ : Type*} {Q : Machine σ (PodInput 1 ℕ) (Obs (Fin 1) ℕ)}
    {Q' : Machine τ (PodInput 1 ℕ) (Obs (Fin 1) ℕ)} {R : σ → τ → Prop} (h : Bisimulates Q Q' R)
    (repeats iters : ℕ) : Bisimulates (pingPongMachine Q repeats iters)
      (pingPongMachine Q' repeats iters) (PingPongRel R) where
  step {s t} hrel i := by
    obtain ⟨hab, hba, ha, hb⟩ := hrel
    cases i with
    | a =>
      simp only [pingPongMachine, PingPong.stepA, ha]
      split_ifs
      · split
        · exact (h.step hab _).map fun _ _ _ hq => ⟨⟨hq, hba, rfl, hb⟩, rfl⟩
        · exact (h.step hba _).map fun _ _ _ hq => ⟨⟨hab, hq, rfl, hb⟩, rfl⟩
        · exact .none
      · exact .none
    | b =>
      simp only [pingPongMachine, PingPong.stepB, ha, hb]
      split_ifs
      · split
        · exact (h.step hab _).map fun _ _ _ hq => ⟨⟨hq, hba, rfl, rfl⟩, rfl⟩
        · exact (h.step hba _).map fun _ _ _ hq => ⟨⟨hab, hq, rfl, rfl⟩, rfl⟩
        · exact .none
      · exact .none

/-- What has gone through the queues. -/
theorem Exchange.links {N iters m : ℕ} {st : Stage} {s : PingPong (Underway 1 ℕ)}
    (h : Exchange N iters s m st) : ∃ k₁ k₂ k₃ k₄, k₄ ≤ k₃ ∧ k₃ ≤ k₂ ∧ k₂ ≤ k₁ ∧ k₁ ≤ k₄ + 1 ∧
      k₁ ≤ N ∧ s.ab.queue = ⟨exchanged iters k₁, fun _ => k₂⟩ ∧
      s.ba.queue = ⟨exchanged iters k₃, fun _ => k₄⟩ ∧ (m = N → k₄ = N) := by
  cases h with
  | ended hs =>
    subst hs
    exact ⟨N, N, N, N, le_rfl, le_rfl, le_rfl, Nat.le_succ N, le_rfl, rfl, rfl, fun _ => rfl⟩
  | going hm hs =>
    subst hs
    match st with
    | .aTurn | .aWrites _ =>
      exact ⟨m, m, m, m, le_rfl, le_rfl, le_rfl, Nat.le_succ m, hm.le, rfl, rfl, id⟩
    | .sent | .bReads _ =>
      exact ⟨m + 1, m, m, m, le_rfl, le_rfl, Nat.le_succ m, le_rfl, hm, rfl, rfl, id⟩
    | .bTurn | .bWrites _ =>
      exact ⟨m + 1, m + 1, m, m, le_rfl, Nat.le_succ m, le_rfl, le_rfl, hm, rfl, rfl, id⟩
    | .returned | .aReads _ =>
      exact ⟨m + 1, m + 1, m + 1, m, Nat.le_succ m, le_rfl, le_rfl, le_rfl, hm, rfl, rfl, id⟩

section Exchange

variable {repeats iters w C : ℕ} {s : PingPong (Underway 1 ℕ)} {log : List PingPongObs}

theorem stageAt_a (iters m : ℕ) (st : Stage) : (stageAt iters m st).a.pc ≠ .aborted ∧
    (stageAt iters m st).a = peer iters m (stageAt iters m st).a.pc := by
  cases st <;> exact ⟨nofun, rfl⟩

theorem Exchange.not_aborted {N m : ℕ} {st : Stage} (h : Exchange N iters s m st) :
    s.a.pc ≠ .aborted := by
  obtain ⟨hpc, -⟩ := stageAt_a iters m st
  cases h with
  | ended hs => rwa [hs]
  | going _ hs => rwa [hs]

/-- The threads end with the last number. -/
theorem Exchange.finished_iff {m : ℕ} {st : Stage} (h : Exchange (repeats * iters) iters s m st) :
    s.Finished repeats iters ↔ m = repeats * iters := by
  cases h with
  | ended hs =>
    subst hs
    exact iff_of_true ⟨not_peer_running _ le_rfl, not_peer_running _ le_rfl⟩ rfl
  | going hm hs =>
    subst hs
    obtain ⟨-, ha⟩ := stageAt_a iters m st
    refine iff_of_false (fun hfin => hfin.1 ?_) hm.ne
    rw [ha]
    exact peer_running _ hm

/-- Along every run one number after the other goes round, and no write is refused. -/
theorem exchange_of_reaches (hC : 0 < C) (h : (pingPongMachine (underwayMachine 1 ℕ C w) repeats
    iters).Reaches (.start .start) s log) : (∃ m st, Exchange (repeats * iters) iters s m st) ∧
      ∀ e, .ab (.refused e) ∉ log ∧ .ba (.refused e) ∉ log := by
  have hstart : Exchange (repeats * iters) iters (.start .start) 0 .aTurn := by
    have h₀ : PingPong.start .start = stageAt iters 0 .aTurn := by
      simp [PingPong.start, stageAt, link, peer, exchanged, Underway.start, Broadcast.start]
    rw [h₀]
    exact exchange_aTurn (Nat.zero_le _)
  refine h.invariant (I := fun s log => (∃ m st, Exchange (repeats * iters) iters s m st) ∧
    ∀ e, .ab (.refused e) ∉ log ∧ .ba (.refused e) ∉ log) ⟨⟨0, _, hstart⟩, by simp⟩ ?_
  rintro s log t s' os ⟨⟨m, st, hex⟩, hlog⟩ hs
  obtain ⟨rfl, rfl⟩ | ⟨-, -, rfl, hex'⟩ := hex.step hC hs
  · exact ⟨⟨m, st, hex⟩, fun e => by simp [hlog e, st.spins_not_refused e]⟩
  · exact ⟨⟨_, _, hex'⟩, fun e => by simp [hlog e, st.shows_not_refused iters m e]⟩

theorem take_exchanged {k l : ℕ} (hkl : k ≤ l) :
    (exchanged iters l).take k = exchanged iters k := by
  rw [exchanged, exchanged, ← List.map_take, List.take_range, min_eq_left hkl]

/-- The log of a queue by what has gone through it. -/
theorem log_of_queue {x : Underway 1 ℕ} {l : List (Obs (Fin 1) ℕ)} {k k' : ℕ} (hk : k' ≤ k)
    (h : (underwayMachine 1 ℕ C w).Reaches .start x l)
    (hx : x.queue = ⟨exchanged iters k, fun _ => k'⟩) :
    writes l = exchanged iters k ∧ reads 0 l = (exchanged iters k').map some := by
  obtain ⟨legal, hqueue⟩ := underway_log h
  rw [hx, State.mk.injEq] at hqueue
  have hreads := reads_eq_take legal 0
  rw [← hqueue.1, ← congrFun hqueue.2 0, take_exchanged hk] at hreads
  exact ⟨hqueue.1.symm, hreads⟩

end Exchange

/-- The ping-pong never aborts and never has a write refused; whatever the interleaving, the numbers
come back in order, at most one is on its way, and a fair schedule ends both threads. -/
theorem pingPong_exchanges {T : SeqnumCounter} {n repeats iters : ℕ} {producer : QueueImpl T}
    {reader : StreamReader T} {s : PingPong (One2One.PodState T ℕ)} {log : List PingPongObs}
    (hmake : One2One.make T n 1 = some ⟨producer, [reader]⟩)
    (h : (pingPongMachine (One2One.podMachine T ℕ) repeats iters).Reaches
      (.start (.start producer reader)) s log) :
    s.a.pc ≠ .aborted ∧ (∀ e, .ab (.refused e) ∉ log ∧ .ba (.refused e) ∉ log) ∧
      (∃ k₁ k₂ k₃ k₄, k₄ ≤ k₃ ∧ k₃ ≤ k₂ ∧ k₂ ≤ k₁ ∧ k₁ ≤ k₄ + 1 ∧ k₁ ≤ repeats * iters ∧
        writes (abLog log) = exchanged iters k₁ ∧
        reads 0 (abLog log) = (exchanged iters k₂).map some ∧
        writes (baLog log) = exchanged iters k₃ ∧
        reads 0 (baLog log) = (exchanged iters k₄).map some ∧
        (s.Finished repeats iters → k₄ = repeats * iters)) ∧
      ∀ schedule, Fair schedule → ∃ k, ((pingPongMachine (One2One.podMachine T ℕ) repeats
        iters).execution s schedule k).Finished repeats iters := by
  obtain ⟨C, -, hC, -, hpair⟩ := One2One.make_eq_some hmake
  simp only [ProducerAndConsumers.mk.injEq, List.cons.injEq, and_true] at hpair
  obtain ⟨rfl, rfl⟩ := hpair
  have hbisim := pingPong_bisimulates (One2One.pod_bisimulates (T := T) (α := ℕ) hC) repeats iters
  have hq := One2One.podUnderway_start (T := T) (α := ℕ) C
  have h₀ : PingPongRel (One2One.PodUnderway C)
      (.start (.start (producerAfter T C 1) (.new (C - 1) 0))) (.start .start) := ⟨hq, hq, rfl, rfl⟩
  obtain ⟨t, ht, hrel⟩ := hbisim.reaches h₀ h
  obtain ⟨⟨m, st, hex⟩, hlog⟩ := exchange_of_reaches hC.pos ht
  obtain ⟨hab, hba⟩ := pingPong_queues ht
  refine ⟨?_, hlog, ?_, fun schedule hfair => ?_⟩
  · rw [hrel.a]
    exact hex.not_aborted
  · obtain ⟨k₁, k₂, k₃, k₄, h₄₃, h₃₂, h₂₁, h₁₄, hN, habq, hbaq, hend⟩ := hex.links
    obtain ⟨hw, hr⟩ := log_of_queue h₂₁ hab habq
    obtain ⟨hw', hr'⟩ := log_of_queue h₄₃ hba hbaq
    refine ⟨k₁, k₂, k₃, k₄, h₄₃, h₃₂, h₂₁, h₁₄, hN, hw, hr, hw', hr', fun hfin => hend ?_⟩
    exact hex.finished_iff.1 (hrel.finished_iff.1 hfin)
  · obtain ⟨k, m', st', hex', hzero⟩ :=
      (pingPong_progress hC.pos).eventually hfair ⟨m, st, hex, rfl⟩
    refine ⟨k, (hbisim.execution hrel schedule k).finished_iff.2 (hex'.finished_iff.2 ?_)⟩
    exact hex'.eq_of_stepsLeft_eq_zero hzero.symm

/-- Two numbers through queues of four places, with the second thread spinning on the first one. -/
theorem pingPong_exchanges_uint8 : ∃ producer reader s log,
    One2One.make .uint8 3 1 = some ⟨producer, [reader]⟩ ∧
      (pingPongMachine (One2One.podMachine .uint8 ℕ) 1 2).run (.start (.start producer reader))
        [.b, .a, .a, .b, .a, .b, .a, .b, .b, .b] = some (s, log) ∧
      ∀ schedule, Fair schedule → ∃ k, ((pingPongMachine (One2One.podMachine .uint8 ℕ) 1
        2).execution s schedule k).Finished 1 2 := by
  have hmake : One2One.make .uint8 3 1 = some ⟨producerAfter .uint8 4 1, [.new 3 0]⟩ := by decide
  have hrun : (pingPongMachine (One2One.podMachine .uint8 ℕ) 1 2).run
      (.start (.start (producerAfter .uint8 4 1) (.new 3 0)))
      [.b, .a, .a, .b, .a, .b, .a, .b, .b, .b] = some (_, _) := rfl
  exact ⟨_, _, _, _, hmake, hrun, (pingPong_exchanges hmake (.of_run hrun)).2.2.2⟩

end Ihft.Channel
