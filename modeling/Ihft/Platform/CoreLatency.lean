import Ihft.Lib.Progress

/-!
# The latency between two cores

`core_2_core_latancy.cpp` measures two cores with two threads that answer each other through `seq1`
and `seq2`, `iters` times in each of `repeats` rounds.  Only the main thread resets the two
variables before a round, and it does not wait for the other one, which may already look for the
number `0` of this round.  That goes well unless the last number of the round before is a `0` as
well: with `iters` equal to `1` the other thread takes the old `0` for the new one, and the main
thread waits for ever (`latency_measures_iff`).  The program has `1024` rounds of `256` numbers.

What is read from the clock is not part of the model, only when it is read; so the division by
`iters` after the join, which rules out `iters` equal to `0`, is not part of it either.  The
accesses to the two variables take effect in one order.
-/

namespace Ihft.Platform.CoreLatency

open Observe

/-- Where the main thread stands, with its loop variables. -/
inductive MainPc
  | resetSeq2 (k : ℕ)
  | resetSeq1 (k : ℕ)
  | ts1 (k : ℕ)
  | store (k h : ℕ)
  | load (k h : ℕ)
  | ts2 (k : ℕ)
  | join
  | returned
  deriving DecidableEq, Repr

/-- Where the thread `t` stands, with its loop variables. -/
inductive ThreadPc
  | load (k h : ℕ)
  | store (k h : ℕ)
  | ended
  deriving DecidableEq, Repr

/-- The conditions of the main thread's loops. -/
def MainPc.inner (iters k h : ℕ) : MainPc :=
  if h < iters then .store k h else .ts2 k

def MainPc.outer (repeats k : ℕ) : MainPc :=
  if k < repeats then .resetSeq2 k else .join

/-- The conditions of the loops of `t`.  Where the inner one ends, the next round is begun at
once. -/
def ThreadPc.loops (repeats iters k h : ℕ) : ThreadPc :=
  if k < repeats ∧ h < iters then .load k h
  else if k + 1 < repeats ∧ 0 < iters then .load (k + 1) 0
  else .ended

inductive Thread
  | main
  | t
  deriving DecidableEq, Repr

/-- What is seen: the clock is read, a number is stored, or a load returns the number waited for. -/
inductive Obs
  | ts1 (k : ℕ)
  | sent (k h : ℕ)
  | received (k h : ℕ)
  | answered (k h : ℕ)
  | confirmed (k h : ℕ)
  | ts2 (k : ℕ)
  deriving DecidableEq, Repr

structure State where
  seq1 : ℤ
  seq2 : ℤ
  main : MainPc
  t : ThreadPc
  deriving DecidableEq, Repr

section Machine

variable (repeats iters : ℕ)

def start : State where
  seq1 := -1
  seq2 := -1
  main := .outer repeats 0
  t := .loops repeats iters 0 0

def stepMain (s : State) : Option (State × List Obs) :=
  match s.main with
  -- `seq1 = seq2 = -1` assigns from the right
  | .resetSeq2 k => some ({ s with seq2 := -1, main := .resetSeq1 k }, [])
  | .resetSeq1 k => some ({ s with seq1 := -1, main := .ts1 k }, [])
  | .ts1 k => some ({ s with main := .inner iters k 0 }, [.ts1 k])
  | .store k h => some ({ s with seq1 := h, main := .load k h }, [.sent k h])
  | .load k h =>
    if s.seq2 = h then some ({ s with main := .inner iters k (h + 1) }, [.confirmed k h])
    else some (s, [])
  | .ts2 k => some ({ s with main := .outer repeats (k + 1) }, [.ts2 k])
  | .join => if s.t = .ended then some ({ s with main := .returned }, []) else none
  | .returned => none

def stepThread (s : State) : Option (State × List Obs) :=
  match s.t with
  | .load k h =>
    if s.seq1 = h then some ({ s with t := .store k h }, [.received k h]) else some (s, [])
  | .store k h => some ({ s with seq2 := h, t := .loops repeats iters k (h + 1) }, [.answered k h])
  | .ended => none

/-- The two threads that measure a pair of cores. -/
def latencyMachine : Machine State Thread Obs where
  step s
    | .main => stepMain repeats iters s
    | .t => stepThread repeats iters s

end Machine

/-! ## What is to be seen -/

/-- A number goes to the other core and comes back. -/
def trip (k h : ℕ) : List Obs :=
  [.sent k h, .received k h, .answered k h, .confirmed k h]

/-- The first `h` numbers of a round. -/
def trips (k h : ℕ) : List Obs :=
  (List.range h).flatMap (trip k)

/-- What is timed in a round. -/
def round (iters k : ℕ) : List Obs :=
  .ts1 k :: trips k iters ++ [.ts2 k]

def rounds (iters k : ℕ) : List Obs :=
  (List.range k).flatMap (round iters)

theorem trips_succ (k h : ℕ) : trips k (h + 1) = trips k h ++ trip k h := by
  simp [trips, List.range_succ]

theorem rounds_succ (iters k : ℕ) : rounds iters (k + 1) = rounds iters k ++ round iters k := by
  simp [rounds, List.range_succ]

/-! ## Whose turn it is -/

/-- How far the two threads have come. -/
inductive Stage
  | resetSeq2 (k : ℕ)
  | resetSeq1 (k : ℕ)
  | ts1 (k : ℕ)
  | send (k h : ℕ)
  | receive (k h : ℕ)
  | answer (k h : ℕ)
  | confirm (k h : ℕ)
  | ts2 (k : ℕ)
  | join
  | returned
  deriving DecidableEq, Repr

/-- The number left in the two variables when a round begins. -/
def lastSeq (iters : ℕ) : ℕ → ℤ
  | 0 => -1
  | _ + 1 => iters - 1

/-- The state in which the threads have come to the given stage. -/
def stageAt (repeats iters : ℕ) : Stage → State
  | .resetSeq2 k =>
    ⟨lastSeq iters k, lastSeq iters k, .resetSeq2 k, .loops repeats iters k 0⟩
  | .resetSeq1 k => ⟨lastSeq iters k, -1, .resetSeq1 k, .loops repeats iters k 0⟩
  | .ts1 k => ⟨-1, -1, .ts1 k, .loops repeats iters k 0⟩
  | .send k h => ⟨h - 1, h - 1, .store k h, .loops repeats iters k h⟩
  | .receive k h => ⟨h, h - 1, .load k h, .load k h⟩
  | .answer k h => ⟨h, h - 1, .load k h, .store k h⟩
  | .confirm k h => ⟨h, h, .load k h, .loops repeats iters k (h + 1)⟩
  | .ts2 k => ⟨iters - 1, iters - 1, .ts2 k, .loops repeats iters k iters⟩
  | .join => ⟨lastSeq iters repeats, lastSeq iters repeats, .join, .ended⟩
  | .returned => ⟨lastSeq iters repeats, lastSeq iters repeats, .returned, .ended⟩

namespace Stage

variable (repeats iters : ℕ)

/-- The loop variables are within their bounds. -/
def Within : Stage → Prop
  | resetSeq2 k | resetSeq1 k | ts1 k | ts2 k => k < repeats
  | send k h | receive k h | answer k h | confirm k h => k < repeats ∧ h < iters
  | join | returned => True

/-- The thread whose turn it is. -/
def turn : Stage → Thread
  | receive _ _ | answer _ _ => .t
  | _ => .main

/-- The stage after the conditions of the loops. -/
def inner (k h : ℕ) : Stage :=
  if h < iters then send k h else ts2 k

def outer (k : ℕ) : Stage :=
  if k < repeats then resetSeq2 k else join

/-- The stage after a step of the thread whose turn it is. -/
def next : Stage → Stage
  | resetSeq2 k => resetSeq1 k
  | resetSeq1 k => ts1 k
  | ts1 k => inner iters k 0
  | send k h => receive k h
  | receive k h => answer k h
  | answer k h => confirm k h
  | confirm k h => inner iters k (h + 1)
  | ts2 k => outer repeats (k + 1)
  | join => returned
  | returned => returned

/-- What is seen of that step. -/
def shows : Stage → List Obs
  | ts1 k => [.ts1 k]
  | send k h => [.sent k h]
  | receive k h => [.received k h]
  | answer k h => [.answered k h]
  | confirm k h => [.confirmed k h]
  | ts2 k => [.ts2 k]
  | resetSeq2 _ | resetSeq1 _ | join | returned => []

/-- What has been seen before. -/
def before : Stage → List Obs
  | resetSeq2 k | resetSeq1 k | ts1 k => rounds iters k
  | send k h => rounds iters k ++ .ts1 k :: trips k h
  | receive k h => rounds iters k ++ .ts1 k :: trips k h ++ [.sent k h]
  | answer k h => rounds iters k ++ .ts1 k :: trips k h ++ [.sent k h, .received k h]
  | confirm k h =>
    rounds iters k ++ .ts1 k :: trips k h ++ [.sent k h, .received k h, .answered k h]
  | ts2 k => rounds iters k ++ .ts1 k :: trips k iters
  | join | returned => rounds iters repeats

/-- The steps left, of which a round takes `4 * iters + 4`. -/
def left : Stage → ℕ
  | resetSeq2 k => (repeats - (k + 1)) * (4 * iters + 4) + (4 * iters + 5)
  | resetSeq1 k => (repeats - (k + 1)) * (4 * iters + 4) + (4 * iters + 4)
  | ts1 k => (repeats - (k + 1)) * (4 * iters + 4) + (4 * iters + 3)
  | send k h => (repeats - (k + 1)) * (4 * iters + 4) + (4 * (iters - h) + 2)
  | receive k h => (repeats - (k + 1)) * (4 * iters + 4) + (4 * (iters - h) + 1)
  | answer k h => (repeats - (k + 1)) * (4 * iters + 4) + 4 * (iters - h)
  | confirm k h => (repeats - (k + 1)) * (4 * iters + 4) + (4 * (iters - h) - 1)
  | ts2 k => (repeats - (k + 1)) * (4 * iters + 4) + 2
  | join => 1
  | returned => 0

end Stage

section Stages

variable {repeats iters : ℕ} {st : Stage} {k h : ℕ}

/-- The end of a round of `t` is the beginning of its next one. -/
theorem loops_iters :
    ThreadPc.loops repeats iters k iters = .loops repeats iters (k + 1) 0 := by
  unfold ThreadPc.loops
  split_ifs <;> first | rfl | omega

theorem loops_repeats : ThreadPc.loops repeats iters repeats 0 = .ended := by
  unfold ThreadPc.loops
  split_ifs <;> first | rfl | omega

theorem loops_of_lt (hk : k < repeats) (hh : h < iters) :
    ThreadPc.loops repeats iters k h = .load k h := by
  rw [ThreadPc.loops, if_pos ⟨hk, hh⟩]

theorem stageAt_inner (hh : h ≤ iters) :
    stageAt repeats iters (.inner iters k h) =
      ⟨h - 1, h - 1, .inner iters k h, .loops repeats iters k h⟩ := by
  rcases hh.lt_or_eq with hlt | rfl
  · rw [Stage.inner, MainPc.inner, if_pos hlt, if_pos hlt]
    rfl
  · rw [Stage.inner, MainPc.inner, if_neg (lt_irrefl _), if_neg (lt_irrefl _)]
    rfl

theorem stageAt_outer (hk : k ≤ repeats) : stageAt repeats iters (.outer repeats k) =
    ⟨lastSeq iters k, lastSeq iters k, .outer repeats k, .loops repeats iters k 0⟩ := by
  rcases hk.lt_or_eq with hlt | rfl
  · rw [Stage.outer, MainPc.outer, if_pos hlt, if_pos hlt]
    rfl
  · rw [Stage.outer, MainPc.outer, if_neg (lt_irrefl _), if_neg (lt_irrefl _), loops_repeats]
    rfl

theorem within_inner (hk : k < repeats) : (Stage.inner iters k h).Within repeats iters := by
  unfold Stage.inner
  split_ifs with hlt
  · exact ⟨hk, hlt⟩
  · exact hk

theorem within_outer : (Stage.outer repeats k).Within repeats iters := by
  unfold Stage.outer
  split_ifs with hlt
  · exact hlt
  · trivial

theorem within_next (hst : st.Within repeats iters) :
    (st.next repeats iters).Within repeats iters := by
  cases st with
  | ts1 k => exact within_inner hst
  | confirm k h => exact within_inner hst.1
  | ts2 k => exact within_outer
  | join | returned => trivial
  | resetSeq2 | resetSeq1 | send | receive | answer => exact hst

/-- A step of the thread whose turn it is leads to the next stage. -/
theorem stageAt_turn (hst : st.Within repeats iters) (hne : st ≠ .returned) :
    (latencyMachine repeats iters).step (stageAt repeats iters st) st.turn =
      some (stageAt repeats iters (st.next repeats iters), st.shows) := by
  cases st with
  | resetSeq2 | resetSeq1 => rfl
  | ts1 k =>
    rw [Stage.next, stageAt_inner (Nat.zero_le _)]
    rfl
  | send k h =>
    obtain ⟨hk, hh⟩ := hst
    simp [latencyMachine, Stage.turn, Stage.next, Stage.shows, stageAt, stepMain,
      loops_of_lt hk hh]
  | receive k h => simp [latencyMachine, Stage.turn, Stage.next, Stage.shows, stageAt, stepThread]
  | answer k h => rfl
  | confirm k h =>
    rw [Stage.next, stageAt_inner hst.2]
    simp [latencyMachine, Stage.turn, Stage.shows, stageAt, stepMain]
  | ts2 k =>
    rw [Stage.next, stageAt_outer hst, ← loops_iters]
    rfl
  | join => rfl
  | returned => exact absurd rfl hne

/-- The thread `t` spins, or has ended, while the number it waits for is not there. -/
theorem stepThread_loops {s : State} (hs : s.t = .loops repeats iters k h)
    (hload : k < repeats → h < iters → s.seq1 ≠ h)
    (hnext : k + 1 < repeats → iters ≤ h → s.seq1 ≠ 0) :
    stepThread repeats iters s = none ∨ stepThread repeats iters s = some (s, []) := by
  unfold stepThread
  rw [hs, ThreadPc.loops]
  split_ifs with hin hout
  · exact .inr (if_neg (hload hin.1 hin.2))
  · exact .inr (if_neg (hnext hout.1 (by omega)))
  · exact .inl rfl

/-- The number left from the round before is not the first one of a round. -/
theorem lastSeq_ne_zero (hloops : iters ≠ 1 ∨ repeats ≤ 1) (hk : k < repeats) :
    lastSeq iters k ≠ 0 := by
  cases k with
  | zero => exact neg_ne_zero.2 one_ne_zero
  | succ k =>
    change (iters : ℤ) - 1 ≠ 0
    omega

/-- The other thread spins, or has ended. -/
theorem stageAt_spin (hloops : iters ≠ 1 ∨ repeats ≤ 1) (hst : st.Within repeats iters) {i : Thread}
    (hi : i ≠ st.turn) :
    (latencyMachine repeats iters).step (stageAt repeats iters st) i = none ∨
      (latencyMachine repeats iters).step (stageAt repeats iters st) i =
        some (stageAt repeats iters st, []) := by
  have ht (hturn : st.turn = .main) : i = .t := by
    cases i with
    | main => exact absurd hturn.symm hi
    | t => rfl
  have hmain (hturn : st.turn = .t) : i = .main := by
    cases i with
    | main => rfl
    | t => exact absurd hturn.symm hi
  cases st with
  | resetSeq2 k =>
    obtain rfl := ht rfl
    exact stepThread_loops rfl (fun hk _ => lastSeq_ne_zero hloops hk)
      fun hk _ => lastSeq_ne_zero hloops (by omega)
  | resetSeq1 k =>
    obtain rfl := ht rfl
    exact stepThread_loops rfl (fun hk _ => lastSeq_ne_zero hloops hk)
      fun hk _ => lastSeq_ne_zero hloops (by omega)
  | ts1 k =>
    obtain rfl := ht rfl
    have hreset : (-1 : ℤ) ≠ 0 := neg_ne_zero.2 one_ne_zero
    exact stepThread_loops rfl (fun _ _ => hreset) fun _ _ => hreset
  | send k h =>
    obtain rfl := ht rfl
    exact stepThread_loops rfl (fun _ _ => (sub_one_lt (h : ℤ)).ne) fun _ hh =>
      absurd hst.2 hh.not_gt
  | receive k h =>
    obtain rfl := hmain rfl
    exact .inr (if_neg (sub_one_lt (h : ℤ)).ne)
  | answer k h =>
    obtain rfl := hmain rfl
    exact .inr (if_neg (sub_one_lt (h : ℤ)).ne)
  | confirm k h =>
    obtain rfl := ht rfl
    obtain ⟨hk, hh⟩ := hst
    refine stepThread_loops rfl (fun _ _ => ?_) fun _ _ => ?_
    · change (h : ℤ) ≠ (h + 1 : ℕ)
      omega
    · -- the last number of the round, and there is another round
      change (h : ℤ) ≠ 0
      omega
  | ts2 k =>
    obtain rfl := ht rfl
    refine stepThread_loops rfl (fun _ hlt => absurd hlt (lt_irrefl _)) fun hk _ => ?_
    exact lastSeq_ne_zero hloops hk
  | join | returned =>
    obtain rfl := ht rfl
    exact .inl rfl

/-- A step leads to the next stage, or a thread spins. -/
theorem stageAt_step {s' : State} {i : Thread} {os : List Obs}
    (hloops : iters ≠ 1 ∨ repeats ≤ 1) (hst : st.Within repeats iters)
    (hs : (latencyMachine repeats iters).step (stageAt repeats iters st) i = some (s', os)) :
    (s' = stageAt repeats iters st ∧ os = []) ∨
      (st ≠ .returned ∧ s' = stageAt repeats iters (st.next repeats iters) ∧ os = st.shows) := by
  by_cases hi : i = st.turn
  · subst hi
    by_cases hne : st = .returned
    · subst hne
      cases hs
    · rw [stageAt_turn hst hne] at hs
      cases hs
      exact .inr ⟨hne, rfl, rfl⟩
  · obtain hnone | hspin := stageAt_spin hloops hst hi
    · rw [hnone] at hs
      cases hs
    · rw [hspin] at hs
      cases hs
      exact .inl ⟨rfl, rfl⟩

/-! ## The steps left -/

theorem left_inner_lt (k : ℕ) {n : ℕ}
    (hn : (repeats - (k + 1)) * (4 * iters + 4) + (4 * (iters - h) + 2) < n) :
    (Stage.inner iters k h).left repeats iters < n := by
  unfold Stage.inner
  split_ifs
  · exact hn
  · exact lt_of_le_of_lt (Nat.add_le_add_left (Nat.le_add_left 2 _) _) hn

theorem left_outer_lt (k : ℕ) :
    (Stage.outer repeats (k + 1)).left repeats iters < (Stage.ts2 k).left repeats iters := by
  unfold Stage.outer
  split_ifs with hk
  · simp only [Stage.left]
    rw [show repeats - (k + 1) = repeats - (k + 1 + 1) + 1 by omega,
      Nat.succ_mul (repeats - (k + 1 + 1))]
    omega
  · simp only [Stage.left]
    omega

theorem left_next (hst : st.Within repeats iters) (hne : st ≠ .returned) :
    (st.next repeats iters).left repeats iters < st.left repeats iters := by
  cases st with
  | ts1 k =>
    refine left_inner_lt k ?_
    simp only [Stage.left]
    omega
  | confirm k h =>
    obtain ⟨-, hh⟩ := hst
    refine left_inner_lt k ?_
    simp only [Stage.left]
    omega
  | ts2 k => exact left_outer_lt k
  | resetSeq2 | resetSeq1 | join =>
    simp only [Stage.next, Stage.left]
    omega
  | send k h | receive k h | answer k h =>
    obtain ⟨-, hh⟩ := hst
    simp only [Stage.next, Stage.left]
    omega
  | returned => exact absurd rfl hne

theorem latency_progress (hloops : iters ≠ 1 ∨ repeats ≤ 1) :
    Progress (latencyMachine repeats iters) (fun s n => ∃ st : Stage, st.Within repeats iters ∧
      s = stageAt repeats iters st ∧ n = st.left repeats iters) id where
  step {s n i s' os} h hs := by
    obtain ⟨st, hst, rfl, rfl⟩ := h
    obtain ⟨rfl, -⟩ | ⟨hne, rfl, -⟩ := stageAt_step hloops hst hs
    · exact .inr ⟨⟨st, hst, rfl, rfl⟩, rfl⟩
    · exact .inl ⟨_, left_next hst hne, _, within_next hst, rfl, rfl⟩
  helps {s n} h hn := by
    obtain ⟨st, hst, rfl, rfl⟩ := h
    have hne : st ≠ .returned := by
      rintro rfl
      exact absurd hn (lt_irrefl 0)
    refine ⟨st.turn, fun s₁ _ heq => ?_⟩
    obtain rfl : s₁ = stageAt repeats iters st := heq
    exact ⟨_, _, _, stageAt_turn hst hne, left_next hst hne, _, within_next hst, rfl, rfl⟩

theorem eq_returned_of_left (hst : st.Within repeats iters) (hzero : st.left repeats iters = 0) :
    st = .returned := by
  by_contra hne
  exact absurd (left_next hst hne) (by omega)

/-! ## The log -/

theorem before_inner (hh : h ≤ iters) : (Stage.inner iters k h).before repeats iters =
    rounds iters k ++ .ts1 k :: trips k h := by
  rcases hh.lt_or_eq with hlt | rfl
  · rw [Stage.inner, if_pos hlt]
    rfl
  · rw [Stage.inner, if_neg (lt_irrefl _)]
    rfl

theorem before_outer (hk : k ≤ repeats) :
    (Stage.outer repeats k).before repeats iters = rounds iters k := by
  rcases hk.lt_or_eq with hlt | rfl
  · rw [Stage.outer, if_pos hlt]
    rfl
  · rw [Stage.outer, if_neg (lt_irrefl _)]
    rfl

theorem before_next (hst : st.Within repeats iters) :
    (st.next repeats iters).before repeats iters = st.before repeats iters ++ st.shows := by
  cases st with
  | resetSeq2 | resetSeq1 | join | returned => exact (List.append_nil _).symm
  | ts1 k =>
    rw [Stage.next, before_inner (Nat.zero_le _)]
    rfl
  | send | receive | answer => simp [Stage.next, Stage.before, Stage.shows]
  | confirm k h =>
    rw [Stage.next, before_inner hst.2, trips_succ]
    simp [Stage.before, Stage.shows, trip]
  | ts2 k =>
    rw [Stage.next, before_outer hst, rounds_succ]
    simp [Stage.before, Stage.shows, round]

/-- What has been seen is the beginning of what is to be seen. -/
theorem before_isPrefix (hst : st.Within repeats iters) :
    st.before repeats iters <+: rounds iters repeats := by
  generalize hn : st.left repeats iters = n
  induction n using Nat.strong_induction_on generalizing st with
  | _ n ih =>
    subst hn
    by_cases hne : st = .returned
    · subst hne
      exact List.prefix_rfl
    · have hnext := ih _ (left_next hst hne) (within_next hst) rfl
      rw [before_next hst] at hnext
      exact (List.prefix_append _ _).trans hnext

/-- Along every run the threads come from one stage to the next. -/
theorem stageAt_of_reaches {s : State} {log : List Obs} (hloops : iters ≠ 1 ∨ repeats ≤ 1)
    (h : (latencyMachine repeats iters).Reaches (start repeats iters) s log) :
    ∃ st : Stage, st.Within repeats iters ∧ s = stageAt repeats iters st ∧
      log = st.before repeats iters := by
  refine h.invariant (I := fun s log => ∃ st : Stage, st.Within repeats iters ∧
    s = stageAt repeats iters st ∧ log = st.before repeats iters) ?_ ?_
  · exact ⟨.outer repeats 0, within_outer, (stageAt_outer (Nat.zero_le _)).symm,
      (before_outer (Nat.zero_le _)).symm⟩
  · rintro _ _ i s' os ⟨st, hst, rfl, rfl⟩ hs
    obtain ⟨rfl, rfl⟩ | ⟨-, rfl, rfl⟩ := stageAt_step hloops hst hs
    · exact ⟨st, hst, rfl, List.append_nil _⟩
    · exact ⟨_, within_next hst, rfl, (before_next hst).symm⟩

theorem eq_returned_of_main (hmain : (stageAt repeats iters st).main = .returned) :
    st = .returned := by
  cases st with
  | returned => rfl
  | resetSeq2 | resetSeq1 | ts1 | send | receive | answer | confirm | ts2 | join => cases hmain

end Stages

/-! ## One number a round -/

/-- The other thread has gone through all its rounds, and nobody is left to answer. -/
def hung : State where
  seq1 := 0
  seq2 := -1
  main := .load 1 0
  t := .ended

/-- In its later rounds `t` takes the number of the first one for a new one. -/
theorem reaches_ended {repeats : ℕ} (k n : ℕ) (hn : repeats = k + n) :
    ∃ log, (latencyMachine repeats 1).Reaches ⟨0, 0, .load 0 0, .loops repeats 1 k 0⟩
      ⟨0, 0, .load 0 0, .ended⟩ log := by
  induction n generalizing k with
  | zero =>
    rw [← @loops_repeats repeats 1, hn]
    exact ⟨[], .start⟩
  | succ n ih =>
    obtain ⟨log, hrest⟩ := ih (k + 1) (by omega)
    have hround : (latencyMachine repeats 1).run ⟨0, 0, .load 0 0, .load k 0⟩ [.t, .t] =
        some (⟨0, 0, .load 0 0, .loops repeats 1 k 1⟩, [.received k 0, .answered k 0]) := rfl
    rw [loops_iters] at hround
    rw [loops_of_lt (by omega) one_pos]
    exact ⟨_, (Machine.Reaches.of_run hround).trans hrest⟩

theorem reaches_hung {repeats : ℕ} (hrepeats : 1 < repeats) :
    ∃ log, (latencyMachine repeats 1).Reaches (start repeats 1) hung log := by
  have houter (k : ℕ) (hk : k < repeats) : MainPc.outer repeats k = .resetSeq2 k := if_pos hk
  have hfirst : (latencyMachine repeats 1).run (start repeats 1)
      [.main, .main, .main, .main, .t, .t] = some (⟨0, 0, .load 0 0, .loops repeats 1 0 1⟩,
        [.ts1 0, .sent 0 0, .received 0 0, .answered 0 0]) := by
    rw [start, houter 0 (by omega), loops_of_lt (by omega) one_pos]
    rfl
  rw [loops_iters] at hfirst
  have hlater : repeats = 1 + (repeats - 1) := by omega
  obtain ⟨log, hrest⟩ := reaches_ended 1 (repeats - 1) hlater
  have hconfirm : (latencyMachine repeats 1).run ⟨0, 0, .load 0 0, .ended⟩ [.main, .main] =
      some (⟨0, 0, .outer repeats 1, .ended⟩, [.confirmed 0 0, .ts2 0]) := rfl
  rw [houter 1 hrepeats] at hconfirm
  have hsecond : (latencyMachine repeats 1).run ⟨0, 0, .resetSeq2 1, .ended⟩
      [.main, .main, .main, .main] = some (hung, [.ts1 1, .sent 1 0]) := rfl
  have hround := (Machine.Reaches.of_run hfirst).trans hrest
  exact ⟨_, (hround.trans (.of_run hconfirm)).trans (.of_run hsecond)⟩

theorem hung_stays {repeats : ℕ} {s : State} {log : List Obs}
    (h : (latencyMachine repeats 1).Reaches hung s log) : s = hung := by
  refine h.invariant (I := fun s _ => s = hung) rfl ?_
  rintro _ _ i s' os rfl hs
  cases i <;> cases hs
  rfl

/-- The two threads take turns. -/
def alternating (n : ℕ) : Thread :=
  if n % 2 = 0 then .main else .t

theorem alternating_fair : Fair alternating := by
  intro i n
  cases i with
  | main => exact ⟨2 * n, by omega, if_pos (by omega)⟩
  | t => exact ⟨2 * n + 1, by omega, if_neg (by omega)⟩

/-- The rounds are measured, each with all its numbers, under every interleaving, and every fair
schedule ends both threads, exactly if a round has another number of numbers than one, or there is
one round at most. -/
theorem latency_measures_iff {repeats iters : ℕ} :
    (∀ s log, (latencyMachine repeats iters).Reaches (start repeats iters) s log →
      log <+: rounds iters repeats ∧
      (s.main = .returned → s.t = .ended ∧ log = rounds iters repeats) ∧
      ∀ schedule, Fair schedule →
        ∃ n, ((latencyMachine repeats iters).execution s schedule n).main = .returned) ↔
      iters ≠ 1 ∨ repeats ≤ 1 := by
  constructor
  · intro h
    by_contra hloops
    obtain ⟨rfl, hrepeats⟩ : iters = 1 ∧ 1 < repeats := by omega
    obtain ⟨log, hhung⟩ := reaches_hung hrepeats
    obtain ⟨n, hn⟩ := (h _ _ hhung).2.2 alternating alternating_fair
    obtain ⟨_, hreaches⟩ := Machine.execution_reaches (M := latencyMachine repeats 1) hung
      alternating n
    rw [hung_stays hreaches] at hn
    cases hn
  · intro hloops s log h
    obtain ⟨st, hst, rfl, rfl⟩ := stageAt_of_reaches hloops h
    refine ⟨before_isPrefix hst, fun hmain => ?_, fun schedule hfair => ?_⟩
    · obtain rfl := eq_returned_of_main hmain
      exact ⟨rfl, rfl⟩
    · obtain ⟨n, st', hst', hs', hzero⟩ :=
        (latency_progress hloops).eventually hfair ⟨st, hst, rfl, rfl⟩
      obtain rfl := eq_returned_of_left hst' hzero.symm
      exact ⟨n, by rw [hs']; rfl⟩

end Ihft.Platform.CoreLatency
