import Ihft.Channel.PodQueue

/-!
# The threads of a benchmark

`main.h` with the `perf_plain_test`: one writer and its readers, each a thread of its own, over a
POD queue.  The writer waits in a barrier until every reader has counted itself down, then writes
`0, 1, …, total_events - 1`, spinning where the queue is full; a reader spins where there is nothing
to read, and aborts unless it reads these numbers in order.  In every interleaving it does read
them, and under every fair schedule all threads end (`measure_completes`).
-/

namespace Ihft.Channel

open Observe Broadcast Counting

/-- Where `writer_method` stands: in the barrier or in its loop. -/
inductive WriterMethodPc
  | barrier
  | tryWrite (c : Call)
  deriving DecidableEq, Repr

/-- The variables of `writer_method` and `writer_method_impl`. -/
structure WriterMethod where
  pc : WriterMethodPc
  j : ℕ
  waitCounter : ℕ
  deriving DecidableEq, Repr

/-- Where `reader_method` stands: before `waitinig--`, in its loop, or at the `abort` of
`check_data`. -/
inductive ReaderMethodPc
  | start
  | tryRead (c : Call)
  | aborted
  deriving DecidableEq, Repr

/-- The variables of `reader_method` and `reader_method_impl`. -/
structure ReaderMethod where
  pc : ReaderMethodPc
  j : ℕ
  waitCounter : ℕ
  deriving DecidableEq, Repr

variable {R : ℕ}

/-- `writer_method_impl` after a step of `w.try_write(std::move(data))`. -/
def WriterMethod.after (m : WriterMethod) (os : List (Obs (Fin R) ℕ)) : WriterMethod :=
  match Call.after os with
  | some .inside => { m with pc := .tryWrite .inside }
  | some .spin => { m with pc := .tryWrite .spin, waitCounter := m.waitCounter + 1 }
  | none => { m with pc := .tryWrite .spin, j := m.j + 1 }

/-- `reader_method_impl` after a step of `r.try_read()`, with `check_data`. -/
def ReaderMethod.after (m : ReaderMethod) (os : List (Obs (Fin R) ℕ)) : ReaderMethod :=
  match Call.after os with
  | some .inside => { m with pc := .tryRead .inside }
  | some .spin => { m with pc := .tryRead .spin, waitCounter := m.waitCounter + 1 }
  | none =>
    if Call.result os = some m.j then
      { m with pc := .tryRead .spin, j := m.j + 1 }
    else
      { m with pc := .aborted }

theorem ReaderMethod.after_ne_start (m : ReaderMethod) (os : List (Obs (Fin R) ℕ)) :
    (m.after os).pc ≠ .start := by
  unfold ReaderMethod.after
  split
  · simp
  · simp
  · split_ifs <;> simp

/-- The queue, the counter of the barrier and the threads. -/
structure MeasureThreads (σ : Type*) (R : ℕ) where
  queue : σ
  waitinig : ℕ
  writer : WriterMethod
  readers : Fin R → ReaderMethod

inductive MeasureThread (R : ℕ)
  | writer
  | reader (r : Fin R)
  deriving DecidableEq, Repr

namespace MeasureThreads

variable {σ : Type*} (Q : Machine σ (PodInput R ℕ) (Obs (Fin R) ℕ)) (total : ℕ)

/-- `waitinig{ readers.size() }`. -/
def start (queue : σ) : MeasureThreads σ R where
  queue := queue
  waitinig := R
  writer := ⟨.barrier, 0, 0⟩
  readers _ := ⟨.start, 0, 0⟩

def setReader (s : MeasureThreads σ R) (r : Fin R) (m : ReaderMethod) : MeasureThreads σ R :=
  { s with readers := Function.update s.readers r m }

/-- A step of `writer_method`; the event is `create_data(j)`. -/
def stepWriter (s : MeasureThreads σ R) : Option (MeasureThreads σ R × List (Obs (Fin R) ℕ)) :=
  match s.writer.pc with
  | .barrier =>
    if 0 < s.waitinig then
      some (s, [])
    else
      some ({ s with writer := { s.writer with pc := .tryWrite .spin } }, [])
  | .tryWrite c =>
    if s.writer.j < total then
      (Q.step s.queue (c.writing s.writer.j)).map fun done =>
        ({ s with queue := done.1, writer := s.writer.after done.2 }, done.2)
    else
      none

/-- A step of `reader_method`. -/
def stepReader (s : MeasureThreads σ R) (r : Fin R) :
    Option (MeasureThreads σ R × List (Obs (Fin R) ℕ)) :=
  match (s.readers r).pc with
  | .start =>
    some ({ s with waitinig := s.waitinig - 1 }.setReader r
      { s.readers r with pc := .tryRead .spin }, [])
  | .tryRead c =>
    if (s.readers r).j < total then
      (Q.step s.queue (c.reading r)).map fun done =>
        ({ s with queue := done.1 }.setReader r ((s.readers r).after done.2), done.2)
    else
      none
  | .aborted => none

/-- `abort` ends all threads. -/
def Aborted (s : MeasureThreads σ R) : Prop :=
  ∃ r, (s.readers r).pc = .aborted

instance (s : MeasureThreads σ R) : Decidable s.Aborted :=
  inferInstanceAs (Decidable (∃ _, _))

/-- All threads can be joined. -/
def Finished (s : MeasureThreads σ R) : Prop :=
  (s.writer.pc ≠ .barrier ∧ s.writer.j = total) ∧
    ∀ r, (s.readers r).pc ≠ .start ∧ (s.readers r).j = total

end MeasureThreads

/-- The threads of a benchmark over a queue. -/
def measureThreads {σ : Type*} (Q : Machine σ (PodInput R ℕ) (Obs (Fin R) ℕ)) (total : ℕ) :
    Machine (MeasureThreads σ R) (MeasureThread R) (Obs (Fin R) ℕ) where
  step s t :=
    if s.Aborted then
      none
    else
      match t with
      | .writer => s.stepWriter Q total
      | .reader r => s.stepReader Q total r

/-! ## The steps left -/

/-- The steps that the writer still has to make, where a call of `try_write` has `w + 2` of them. -/
def WriterMethod.left (total w : ℕ) (m : WriterMethod) (offer : Option (ℕ × ℕ)) : ℕ :=
  (match m.pc with
    | .barrier => 1
    | .tryWrite _ => 0) +
  match offer with
    | none => (total - m.j) * (w + 2)
    | some (_, k) => (total - (m.j + 1)) * (w + 2) + (k + 1)

/-- The steps that a reader still has to make, where a call of `try_read` has three. -/
def ReaderMethod.left (total : ℕ) (m : ReaderMethod) (inside : ℕ) : ℕ :=
  (match m.pc with
    | .start => 1
    | _ => 0) +
  match inside with
    | 0 => (total - m.j) * 3
    | k + 1 => (total - (m.j + 1)) * 3 + (k + 1)

/-- One call is one of those left. -/
theorem sub_mul_eq {j total : ℕ} (h : j < total) (k : ℕ) :
    (total - j) * k = (total - (j + 1)) * k + k := by
  rw [← Nat.succ_mul, Nat.succ_eq_add_one, show total - (j + 1) + 1 = total - j by omega]

namespace MeasureThreads

variable {s s' : MeasureThreads (Underway R ℕ) R} {total w : ℕ} {r : Fin R}

def left (total w : ℕ) (s : MeasureThreads (Underway R ℕ) R) : ℕ :=
  s.writer.left total w s.queue.offer + ∑ r, (s.readers r).left total (s.queue.inside r)

theorem left_lt_of_writer
    (hw : s'.writer.left total w s'.queue.offer < s.writer.left total w s.queue.offer)
    (hr : s'.readers = s.readers) (hi : s'.queue.inside = s.queue.inside) :
    s'.left total w < s.left total w := by
  rw [left, left, hr, hi]
  omega

theorem left_lt_of_reader (hw : s'.writer = s.writer) (ho : s'.queue.offer = s.queue.offer)
    (hr : (s'.readers r).left total (s'.queue.inside r) <
      (s.readers r).left total (s.queue.inside r))
    (hne : ∀ r' ≠ r, s'.readers r' = s.readers r' ∧ s'.queue.inside r' = s.queue.inside r') :
    s'.left total w < s.left total w := by
  rw [left, left, hw, ho]
  refine Nat.add_lt_add_left (Finset.sum_lt_sum (fun r' _ => ?_) ⟨r, Finset.mem_univ r, hr⟩) _
  rcases eq_or_ne r' r with rfl | h
  · exact hr.le
  · rw [(hne r' h).1, (hne r' h).2]

/-- The state without what the spinning threads count. -/
def core (s : MeasureThreads (Underway R ℕ) R) : MeasureThreads (Underway R ℕ) R :=
  { s with
    writer := ⟨s.writer.pc, s.writer.j, 0⟩
    readers := fun r => ⟨(s.readers r).pc, (s.readers r).j, 0⟩ }

theorem core_setReader {m : ReaderMethod} (hpc : m.pc = (s.readers r).pc)
    (hj : m.j = (s.readers r).j) : (s.setReader r m).core = s.core := by
  have hreader (r' : Fin R) : (⟨(Function.update s.readers r m r').pc,
      (Function.update s.readers r m r').j, 0⟩ : ReaderMethod) =
        ⟨(s.readers r').pc, (s.readers r').j, 0⟩ := by
    rcases eq_or_ne r' r with rfl | hne
    · rw [Function.update_self, hpc, hj]
    · rw [Function.update_of_ne hne]
  simp only [core, setReader, hreader]

/-- The next step of the thread is not a spin. -/
def Helps (C total : ℕ) (s : MeasureThreads (Underway R ℕ) R) : MeasureThread R → Prop
  | .writer => match s.writer.pc with
    | .barrier => s.waitinig = 0
    | .tryWrite _ => s.writer.j < total ∧
        ∀ r, s.queue.queue.written.length < s.queue.queue.taken r + C
  | .reader r => match (s.readers r).pc with
    | .start => True
    | .tryRead _ => s.queue.queue.taken r < s.queue.queue.written.length
    | .aborted => False

end MeasureThreads

/-! ## The invariant -/

/-- The threads next to the calls of the queue they are in. -/
structure MeasureThreadsOk (C w total : ℕ) (s : MeasureThreads (Underway R ℕ) R) : Prop where
  calls : UnderwayOk C s.queue
  written : s.queue.queue.written = List.range s.writer.j
  taken : ∀ r, s.queue.queue.taken r = (s.readers r).j
  le_total : s.writer.j ≤ total
  writing : s.writer.pc = .tryWrite .inside →
    s.writer.j < total ∧ ∃ k ≤ w, s.queue.offer = some (s.writer.j, k)
  not_writing : s.writer.pc ≠ .tryWrite .inside → s.queue.offer = none
  reading : ∀ r, (s.readers r).pc = .tryRead .inside ↔ s.queue.inside r ≠ 0
  inside_le : ∀ r, s.queue.inside r ≤ 2
  not_aborted : ¬ s.Aborted
  waitinig : s.waitinig = count fun r => (s.readers r).pc = .start
  barrier : s.writer.pc ≠ .barrier → s.waitinig = 0

section Steps

variable {C w total : ℕ} {s s' : MeasureThreads (Underway R ℕ) R} {os : List (Obs (Fin R) ℕ)}

/-- A step leads on, or spins without being any help. -/
def MovesOn (C w total : ℕ) (s s' : MeasureThreads (Underway R ℕ) R) (t : MeasureThread R) : Prop :=
  MeasureThreadsOk C w total s' ∧
    (s'.left total w < s.left total w ∨ ¬ s.Helps C total t ∧ s'.core = s.core)

theorem MeasureThreadsOk.barrier_step (hok : MeasureThreadsOk C w total s)
    (hpc : s.writer.pc = .barrier)
    (hs : s.stepWriter (underwayMachine R ℕ C w) total = some (s', os)) :
    MovesOn C w total s s' .writer := by
  have hoffer := hok.not_writing (by simp [hpc])
  simp only [MeasureThreads.stepWriter, hpc] at hs
  split_ifs at hs with hwait
  · cases hs
    exact ⟨hok, .inr ⟨by simp only [MeasureThreads.Helps, hpc]; omega, rfl⟩⟩
  · cases hs
    refine ⟨{ hok with
      writing := fun h => absurd h (by simp)
      not_writing := fun _ => hoffer
      barrier := fun _ => Nat.eq_zero_of_not_pos hwait },
      .inl (MeasureThreads.left_lt_of_writer ?_ rfl rfl)⟩
    simp only [WriterMethod.left, hpc, hoffer]
    omega

theorem MeasureThreadsOk.tryWrite (hok : MeasureThreadsOk C w total s)
    (hpc : s.writer.pc = .tryWrite .spin)
    (hs : s.stepWriter (underwayMachine R ℕ C w) total = some (s', os)) :
    MovesOn C w total s s' .writer := by
  have hoffer := hok.not_writing (by simp [hpc])
  simp only [MeasureThreads.stepWriter, hpc] at hs
  split_ifs at hs with hj
  obtain ⟨⟨q, os'⟩, hq, h⟩ := Option.map_eq_some_iff.1 hs
  cases h
  have hcalls := (hok.calls.tryWrite hq).1
  simp only [underwayMachine, Call.writing, Underway.tryWrite, hoffer] at hq
  split_ifs at hq with hroom
  · cases hq
    refine ⟨{ hok with
      calls := hcalls
      writing := fun _ => ⟨hj, w, le_rfl, rfl⟩
      not_writing := fun h => absurd rfl h
      barrier := fun _ => hok.barrier (by simp [hpc]) },
      .inl (MeasureThreads.left_lt_of_writer ?_ rfl rfl)⟩
    simp only [WriterMethod.left, WriterMethod.after, Call.after, hpc, hoffer]
    rw [sub_mul_eq hj]
    omega
  · cases hq
    refine ⟨{ hok with
      writing := fun h => absurd h (by simp [WriterMethod.after, Call.after])
      not_writing := fun _ => hoffer
      barrier := fun _ => hok.barrier (by simp [hpc]) }, .inr ⟨?_, ?_⟩⟩
    · simp only [MeasureThreads.Helps, hpc]
      exact fun h => hroom h.2
    · simp [MeasureThreads.core, WriterMethod.after, Call.after, hpc]

theorem MeasureThreadsOk.resumeWriter (hok : MeasureThreadsOk C w total s)
    (hpc : s.writer.pc = .tryWrite .inside)
    (hs : s.stepWriter (underwayMachine R ℕ C w) total = some (s', os)) :
    MovesOn C w total s s' .writer := by
  obtain ⟨hj, k, hk, hoffer⟩ := hok.writing hpc
  simp only [MeasureThreads.stepWriter, hpc, if_pos hj] at hs
  obtain ⟨⟨q, os'⟩, hq, h⟩ := Option.map_eq_some_iff.1 hs
  cases h
  have hcalls := (hok.calls.resumeWriter hq).1
  cases k with
  | zero =>
    simp only [underwayMachine, Call.writing, Underway.resumeWriter, hoffer] at hq
    cases hq
    refine ⟨{ hok with
      calls := hcalls
      written := ?_
      le_total := hj
      writing := fun h => absurd h (by simp [WriterMethod.after, Call.after])
      not_writing := fun _ => rfl
      barrier := fun _ => hok.barrier (by simp [hpc]) },
      .inl (MeasureThreads.left_lt_of_writer ?_ rfl rfl)⟩
    · simp [WriterMethod.after, Call.after, hok.written, List.range_succ]
    · simp only [WriterMethod.left, WriterMethod.after, Call.after, hpc, hoffer]
      omega
  | succ k =>
    simp only [underwayMachine, Call.writing, Underway.resumeWriter, hoffer] at hq
    cases hq
    refine ⟨{ hok with
      calls := hcalls
      writing := fun _ => ⟨hj, k, by omega, rfl⟩
      not_writing := fun h => absurd rfl h
      barrier := fun _ => hok.barrier (by simp [hpc]) },
      .inl (MeasureThreads.left_lt_of_writer ?_ rfl rfl)⟩
    simp only [WriterMethod.left, WriterMethod.after, Call.after, hpc, hoffer]
    omega

/-- A reader moves, and nobody else. -/
structure ReaderMoves (C : ℕ) (s : MeasureThreads (Underway R ℕ) R) (x : Underway R ℕ) (r : Fin R)
    (m : ReaderMethod) : Prop where
  calls : UnderwayOk C x
  written : x.queue.written = s.queue.queue.written
  offer : x.offer = s.queue.offer
  taken : x.queue.taken r = m.j
  reading : m.pc = .tryRead .inside ↔ x.inside r ≠ 0
  inside_le : x.inside r ≤ 2
  not_aborted : m.pc ≠ .aborted
  others : ∀ r' ≠ r, x.queue.taken r' = s.queue.queue.taken r' ∧ x.inside r' = s.queue.inside r'

theorem MeasureThreadsOk.move (hok : MeasureThreadsOk C w total s) {x : Underway R ℕ} {r : Fin R}
    {m : ReaderMethod} {n : ℕ} (h : ReaderMoves C s x r m) (hle : n ≤ s.waitinig)
    (hn : n = count fun r' => (Function.update s.readers r m r').pc = .start) :
    MeasureThreadsOk C w total ({ s with queue := x, waitinig := n }.setReader r m) where
  calls := h.calls
  written := h.written.trans hok.written
  taken r' := by
    simp only [MeasureThreads.setReader]
    rcases eq_or_ne r' r with rfl | hne
    · rw [Function.update_self, h.taken]
    · rw [Function.update_of_ne hne, (h.others r' hne).1, hok.taken]
  le_total := hok.le_total
  writing hpc := by
    obtain ⟨hj, k, hk, hoffer⟩ := hok.writing hpc
    exact ⟨hj, k, hk, h.offer.trans hoffer⟩
  not_writing hpc := h.offer.trans (hok.not_writing hpc)
  reading r' := by
    simp only [MeasureThreads.setReader]
    rcases eq_or_ne r' r with rfl | hne
    · rw [Function.update_self, h.reading]
    · rw [Function.update_of_ne hne, (h.others r' hne).2, hok.reading]
  inside_le r' := by
    simp only [MeasureThreads.setReader]
    rcases eq_or_ne r' r with rfl | hne
    · exact h.inside_le
    · rw [(h.others r' hne).2]
      exact hok.inside_le r'
  not_aborted := by
    rintro ⟨r', hr'⟩
    simp only [MeasureThreads.setReader] at hr'
    rcases eq_or_ne r' r with rfl | hne
    · rw [Function.update_self] at hr'
      exact h.not_aborted hr'
    · rw [Function.update_of_ne hne] at hr'
      exact hok.not_aborted ⟨r', hr'⟩
  waitinig := hn
  barrier hpc := by
    have := hok.barrier hpc
    change n = 0
    omega

/-- The steps left once a reader has moved. -/
theorem ReaderMoves.left_lt {x : Underway R ℕ} {r : Fin R} {m : ReaderMethod} {n : ℕ}
    (h : ReaderMoves C s x r m)
    (hlt : m.left total (x.inside r) < (s.readers r).left total (s.queue.inside r)) :
    ({ s with queue := x, waitinig := n }.setReader r m).left total w < s.left total w := by
  refine MeasureThreads.left_lt_of_reader (r := r) rfl h.offer ?_ fun r' hne => ?_
  · simpa only [MeasureThreads.setReader, Function.update_self] using hlt
  · exact ⟨Function.update_of_ne hne .., (h.others r' hne).2⟩

/-- A reader that has counted itself down already leaves the counter alone. -/
theorem MeasureThreadsOk.waitinig_update (hok : MeasureThreadsOk C w total s) {r : Fin R}
    {m : ReaderMethod} (hpc : (s.readers r).pc ≠ .start) (hm : m.pc ≠ .start) :
    s.waitinig = count fun r' => (Function.update s.readers r m r').pc = .start := by
  rw [hok.waitinig]
  refine count_congr fun r' => ?_
  rcases eq_or_ne r' r with rfl | hne
  · rw [Function.update_self]
    exact iff_of_false hpc hm
  · rw [Function.update_of_ne hne]

theorem MeasureThreadsOk.countDown (hok : MeasureThreadsOk C w total s) {r : Fin R}
    (hpc : (s.readers r).pc = .start)
    (hs : s.stepReader (underwayMachine R ℕ C w) total r = some (s', os)) :
    MovesOn C w total s s' (.reader r) := by
  simp only [MeasureThreads.stepReader, hpc] at hs
  cases hs
  have hinside : s.queue.inside r = 0 := by
    by_contra hne
    have := (hok.reading r).2 hne
    rw [hpc] at this
    cases this
  have hmoves : ReaderMoves C s s.queue r { s.readers r with pc := .tryRead .spin } :=
    ⟨hok.calls, rfl, rfl, hok.taken r, by simp [hinside], hok.inside_le r, by simp,
      fun _ _ => ⟨rfl, rfl⟩⟩
  have hcount : s.waitinig = (count fun r' => (Function.update s.readers r
      { s.readers r with pc := .tryRead .spin } r').pc = .start) + 1 := by
    rw [hok.waitinig]
    refine count_eq_succ (r := r) hpc ?_ fun r' hne => ?_
    · simp
    · rw [Function.update_of_ne hne]
  refine ⟨hok.move hmoves (Nat.sub_le _ _) (by rw [hcount, Nat.add_sub_cancel]),
    .inl (hmoves.left_lt ?_)⟩
  simp only [ReaderMethod.left, hpc, hinside]
  omega

theorem MeasureThreadsOk.tryRead (hok : MeasureThreadsOk C w total s) {r : Fin R}
    (hpc : (s.readers r).pc = .tryRead .spin)
    (hs : s.stepReader (underwayMachine R ℕ C w) total r = some (s', os)) :
    MovesOn C w total s s' (.reader r) := by
  have hinside : s.queue.inside r = 0 := by
    by_contra hne
    have := (hok.reading r).2 hne
    rw [hpc] at this
    cases this
  simp only [MeasureThreads.stepReader, hpc] at hs
  split_ifs at hs with hj
  obtain ⟨⟨q, os'⟩, hq, h⟩ := Option.map_eq_some_iff.1 hs
  cases h
  have hcalls := (hok.calls.tryRead hq).1
  simp only [underwayMachine, Call.reading, Underway.tryRead, hinside] at hq
  split_ifs at hq with hlt
  · cases hq
    have hmoves : ReaderMoves C s (s.queue.setInside r 2) r
        ((s.readers r).after ([] : List (Obs (Fin R) ℕ))) :=
      ⟨hcalls, rfl, rfl, hok.taken r, by simp [ReaderMethod.after, Call.after], by simp,
        by simp [ReaderMethod.after, Call.after], fun r' hne => ⟨rfl, by simp [Function.update_of_ne hne]⟩⟩
    refine ⟨hok.move hmoves le_rfl (hok.waitinig_update (by simp [hpc])
      ((s.readers r).after_ne_start _)),
      .inl (hmoves.left_lt ?_)⟩
    simp only [ReaderMethod.left, ReaderMethod.after, Call.after, hpc, hinside,
      Underway.setInside_inside, Function.update_self]
    rw [sub_mul_eq hj]
    omega
  · cases hq
    have hmoves : ReaderMoves C s s.queue r ((s.readers r).after [Obs.empty r]) :=
      ⟨hok.calls, rfl, rfl, hok.taken r, by simp [ReaderMethod.after, Call.after, hinside],
        hok.inside_le r, by simp [ReaderMethod.after, Call.after], fun _ _ => ⟨rfl, rfl⟩⟩
    refine ⟨hok.move hmoves le_rfl (hok.waitinig_update (by simp [hpc])
      ((s.readers r).after_ne_start _)), .inr ⟨?_, ?_⟩⟩
    · simpa only [MeasureThreads.Helps, hpc] using hlt
    · exact MeasureThreads.core_setReader hpc.symm rfl

theorem MeasureThreadsOk.resumeReader (hok : MeasureThreadsOk C w total s) {r : Fin R}
    (hpc : (s.readers r).pc = .tryRead .inside)
    (hs : s.stepReader (underwayMachine R ℕ C w) total r = some (s', os)) :
    MovesOn C w total s s' (.reader r) := by
  simp only [MeasureThreads.stepReader, hpc] at hs
  split_ifs at hs with hj
  obtain ⟨⟨q, os'⟩, hq, h⟩ := Option.map_eq_some_iff.1 hs
  cases h
  have hcalls := (hok.calls.resumeReader hq).1
  have hlt := hok.calls.unread r ((hok.reading r).1 hpc)
  have htaken := hok.taken r
  have hle := hok.inside_le r
  simp only [underwayMachine, Call.reading, Underway.resumeReader] at hq
  split at hq
  · cases hq
  · rename_i hinside
    cases hq
    -- the event read is the one that `check_data` expects
    have hread : s.queue.queue.written[s.queue.queue.taken r]? = some (s.readers r).j := by
      rw [hok.written, List.length_range] at hlt
      rw [hok.written, htaken, List.getElem?_range (by omega)]
    have hafter : (s.readers r).after [Obs.read r s.queue.queue.written[s.queue.queue.taken r]?] =
        { s.readers r with pc := .tryRead .spin, j := (s.readers r).j + 1 } := by
      simp only [ReaderMethod.after, Call.after, Call.result, hread, if_true]
    rw [hafter]
    have hmoves : ReaderMoves C s ({ s.queue with queue := s.queue.queue.take r }.setInside r 0) r
        { s.readers r with pc := .tryRead .spin, j := (s.readers r).j + 1 } :=
      ⟨hcalls, rfl, rfl, by simp [htaken], by simp, by simp, by simp, fun r' hne =>
        ⟨by simp [Function.update_of_ne hne], by simp [Function.update_of_ne hne]⟩⟩
    refine ⟨hok.move hmoves le_rfl (hok.waitinig_update (by simp [hpc]) (by simp)),
      .inl (hmoves.left_lt ?_)⟩
    simp only [ReaderMethod.left, hpc, hinside, Underway.setInside_inside, Function.update_self]
    omega
  · rename_i k hinside
    cases hq
    have hmoves : ReaderMoves C s (s.queue.setInside r (k + 1)) r
        ((s.readers r).after ([] : List (Obs (Fin R) ℕ))) :=
      ⟨hcalls, rfl, rfl, htaken, by simp [ReaderMethod.after, Call.after],
        by simp only [Underway.setInside_inside, Function.update_self]; omega,
        by simp [ReaderMethod.after, Call.after],
        fun r' hne => ⟨rfl, by simp [Function.update_of_ne hne]⟩⟩
    refine ⟨hok.move hmoves le_rfl (hok.waitinig_update (by simp [hpc])
      ((s.readers r).after_ne_start _)),
      .inl (hmoves.left_lt ?_)⟩
    simp only [ReaderMethod.left, ReaderMethod.after, Call.after, hpc, hinside,
      Underway.setInside_inside, Function.update_self]
    omega

theorem MeasureThreadsOk.step (hok : MeasureThreadsOk C w total s) {t : MeasureThread R}
    (hs : (measureThreads (underwayMachine R ℕ C w) total).step s t = some (s', os)) :
    MovesOn C w total s s' t := by
  simp only [measureThreads, if_neg hok.not_aborted] at hs
  cases t with
  | writer =>
    cases hpc : s.writer.pc with
    | barrier => exact hok.barrier_step hpc hs
    | tryWrite c =>
      cases c with
      | spin => exact hok.tryWrite hpc hs
      | inside => exact hok.resumeWriter hpc hs
  | reader r =>
    cases hpc : (s.readers r).pc with
    | start => exact hok.countDown hpc hs
    | tryRead c =>
      cases c with
      | spin => exact hok.tryRead hpc hs
      | inside => exact hok.resumeReader hpc hs
    | aborted => exact absurd ⟨r, hpc⟩ hok.not_aborted

/-- A thread that helps has a step to take. -/
theorem MeasureThreadsOk.enabled (hok : MeasureThreadsOk C w total s) {t : MeasureThread R}
    (ht : s.Helps C total t) : ∃ s' os,
      (measureThreads (underwayMachine R ℕ C w) total).step s t = some (s', os) := by
  simp only [measureThreads, if_neg hok.not_aborted]
  cases t with
  | writer =>
    simp only [MeasureThreads.Helps, MeasureThreads.stepWriter] at ht ⊢
    cases hpc : s.writer.pc with
    | barrier =>
      simp only [hpc] at ht ⊢
      exact ⟨_, _, if_neg (by omega)⟩
    | tryWrite c =>
      simp only [hpc] at ht ⊢
      cases c with
      | spin =>
        simp only [if_pos ht.1, underwayMachine, Call.writing, Underway.tryWrite,
          hok.not_writing (by simp [hpc]), if_pos ht.2]
        exact ⟨_, _, rfl⟩
      | inside =>
        obtain ⟨hj, k, -, hoffer⟩ := hok.writing hpc
        simp only [if_pos hj, underwayMachine, Call.writing, Underway.resumeWriter, hoffer]
        cases k <;> exact ⟨_, _, rfl⟩
  | reader r =>
    simp only [MeasureThreads.Helps, MeasureThreads.stepReader] at ht ⊢
    have hj : s.queue.queue.taken r < s.queue.queue.written.length → (s.readers r).j < total := by
      intro hlt
      rw [hok.taken, hok.written, List.length_range] at hlt
      exact hlt.trans_le hok.le_total
    have hreading := hok.reading r
    cases hpc : (s.readers r).pc with
    | start => exact ⟨_, _, rfl⟩
    | tryRead c =>
      simp only [hpc] at ht hreading ⊢
      cases c with
      | spin =>
        have hinside : s.queue.inside r = 0 := by simpa using hreading
        simp only [if_pos (hj ht), underwayMachine, Call.reading, Underway.tryRead, hinside,
          if_pos ht]
        exact ⟨_, _, rfl⟩
      | inside =>
        simp only [if_pos (hj ht), underwayMachine, Call.reading, Underway.resumeReader]
        obtain ⟨k, hinside⟩ := Nat.exists_eq_succ_of_ne_zero (hreading.1 rfl)
        rw [hinside]
        cases k <;> exact ⟨_, _, rfl⟩
    | aborted => simp only [hpc] at ht

/-- As long as the benchmark has not finished, some thread helps. -/
theorem MeasureThreadsOk.exists_helps (hC : 0 < C) (hok : MeasureThreadsOk C w total s)
    (hfin : ¬ s.Finished total) : ∃ t, s.Helps C total t := by
  by_contra hno
  simp only [not_exists] at hno
  have hstarted (r : Fin R) : (s.readers r).pc ≠ .start := by
    intro hpc
    exact hno (.reader r) (by simp only [MeasureThreads.Helps, hpc])
  have hwait : s.waitinig = 0 := by
    rw [hok.waitinig, count_eq_zero_iff]
    exact hstarted
  have hread (r : Fin R) : s.queue.queue.taken r = s.queue.queue.written.length := by
    refine (hok.calls.window.taken_le r).eq_or_lt.resolve_right fun hlt => ?_
    refine hno (.reader r) ?_
    cases hpc : (s.readers r).pc with
    | start => exact absurd hpc (hstarted r)
    | tryRead c => simpa only [MeasureThreads.Helps, hpc] using hlt
    | aborted => exact absurd ⟨r, hpc⟩ hok.not_aborted
  have hpc : s.writer.pc ≠ .barrier := by
    intro hpc
    exact hno .writer (by simp only [MeasureThreads.Helps, hpc, hwait])
  have hj : s.writer.j = total := by
    refine hok.le_total.eq_or_lt.resolve_right fun hlt => hno .writer ?_
    cases hpc' : s.writer.pc with
    | barrier => exact absurd hpc' hpc
    | tryWrite c =>
      simp only [MeasureThreads.Helps, hpc', hread]
      exact ⟨hlt, fun _ => by omega⟩
  refine hfin ⟨⟨hpc, hj⟩, fun r => ⟨hstarted r, ?_⟩⟩
  rw [← hok.taken, hread, hok.written, List.length_range, hj]

theorem MeasureThreadsOk.left_eq_zero (hok : MeasureThreadsOk C w total s)
    (hfin : s.Finished total) : s.left total w = 0 := by
  obtain ⟨⟨hpc, hj⟩, hreaders⟩ := hfin
  have hoffer : s.queue.offer = none := by
    refine hok.not_writing fun hinside => ?_
    exact absurd (hok.writing hinside).1 (by omega)
  have hinside (r : Fin R) : s.queue.inside r = 0 := by
    by_contra hne
    have hlt := hok.calls.unread r hne
    rw [hok.taken, hok.written, List.length_range, (hreaders r).2] at hlt
    omega
  have hwriter : s.writer.left total w s.queue.offer = 0 := by
    cases hpc' : s.writer.pc with
    | barrier => exact absurd hpc' hpc
    | tryWrite c => simp [WriterMethod.left, hpc', hoffer, hj]
  have hreader (r : Fin R) : (s.readers r).left total (s.queue.inside r) = 0 := by
    have hstarted := (hreaders r).1
    cases hpc' : (s.readers r).pc with
    | start => exact absurd hpc' hstarted
    | tryRead c => simp [ReaderMethod.left, hpc', hinside, (hreaders r).2]
    | aborted => simp [ReaderMethod.left, hpc', hinside, (hreaders r).2]
  rw [MeasureThreads.left, hwriter]
  simp [hreader]

/-- A thread that helps uses up a step. -/
theorem MeasureThreadsOk.helps_step (hok : MeasureThreadsOk C w total s) {t : MeasureThread R}
    (ht : s.Helps C total t) : ∃ s' os,
      (measureThreads (underwayMachine R ℕ C w) total).step s t = some (s', os) ∧
        MeasureThreadsOk C w total s' ∧ s'.left total w < s.left total w := by
  obtain ⟨s', os, hs⟩ := hok.enabled ht
  obtain ⟨hok', hlt | ⟨hno, -⟩⟩ := hok.step hs
  · exact ⟨s', os, hs, hok', hlt⟩
  · exact absurd ht hno

theorem MeasureThreadsOk.finished (hC : 0 < C) (hok : MeasureThreadsOk C w total s)
    (hleft : s.left total w = 0) : s.Finished total := by
  by_contra hfin
  obtain ⟨t, ht⟩ := hok.exists_helps hC hfin
  obtain ⟨s', os, -, -, hlt⟩ := hok.helps_step ht
  omega

theorem measureThreads_progress (hC : 0 < C) :
    Progress (measureThreads (underwayMachine R ℕ C w) total)
      (fun s n => MeasureThreadsOk C w total s ∧ n = s.left total w) MeasureThreads.core where
  step {s n t s' os} h hs := by
    obtain ⟨hok, rfl⟩ := h
    obtain ⟨hok', hlt | ⟨-, hcore⟩⟩ := hok.step hs
    · exact .inl ⟨_, hlt, hok', rfl⟩
    · exact .inr ⟨⟨hok', (congrArg (MeasureThreads.left total w) hcore).symm⟩, hcore⟩
  helps {s n} h hn := by
    obtain ⟨hok, rfl⟩ := h
    obtain ⟨t, ht⟩ := hok.exists_helps hC fun hfin => hn.ne' (hok.left_eq_zero hfin)
    refine ⟨t, fun s₁ h₁ hcore => ?_⟩
    -- whether a thread helps does not depend on what is outside the core
    have ht₁ : s₁.core.Helps C total t := hcore ▸ ht
    obtain ⟨s', os, hs, hok', hlt⟩ := h₁.1.helps_step (t := t) ht₁
    exact ⟨s', os, _, hs, h₁.2 ▸ hlt, hok', rfl⟩

theorem measureThreadsOk_start (C w total : ℕ) :
    MeasureThreadsOk C w total (.start (R := R) .start) where
  calls := underwayOk_start C
  written := rfl
  taken _ := rfl
  le_total := Nat.zero_le total
  writing h := absurd h (by simp [MeasureThreads.start])
  not_writing _ := rfl
  reading _ := iff_of_false (by simp [MeasureThreads.start]) fun h => h rfl
  inside_le _ := Nat.zero_le 2
  not_aborted := by
    rintro ⟨r, hr⟩
    cases hr
  waitinig := by
    have hall : (count fun _ : Fin R => ReaderMethodPc.start = .start) = R := by
      rw [count_all fun _ => rfl, Fintype.card_fin]
    exact hall.symm
  barrier h := absurd rfl h

end Steps

/-! ## Runs over the steps of a queue -/

section Runs

variable {σ τ : Type*} {Q : Machine σ (PodInput R ℕ) (Obs (Fin R) ℕ)}
  {Q' : Machine τ (PodInput R ℕ) (Obs (Fin R) ℕ)} {K : σ → τ → Prop} {total : ℕ}

/-- The queue has a run of its own with the same observations. -/
theorem measureThreads_queue {q : σ} {s : MeasureThreads σ R} {log : List (Obs (Fin R) ℕ)}
    (h : (measureThreads Q total).Reaches (.start q) s log) : Q.Reaches q s.queue log := by
  refine h.project MeasureThreads.queue id rfl (fun _ _ => rfl) fun s t s' os hs => ?_
  simp only [measureThreads] at hs
  split_ifs at hs
  cases t with
  | writer =>
    simp only [MeasureThreads.stepWriter] at hs
    split at hs
    · split_ifs at hs <;> cases hs <;> exact .inl ⟨rfl, rfl⟩
    · split_ifs at hs
      obtain ⟨⟨q, os'⟩, hq, h⟩ := Option.map_eq_some_iff.1 hs
      cases h
      exact .inr ⟨_, hq⟩
  | reader r =>
    simp only [MeasureThreads.stepReader] at hs
    split at hs
    · cases hs
      exact .inl ⟨rfl, rfl⟩
    · split_ifs at hs
      obtain ⟨⟨q, os'⟩, hq, h⟩ := Option.map_eq_some_iff.1 hs
      cases h
      exact .inr ⟨_, hq⟩
    · cases hs

/-- The same threads over related queues. -/
structure MeasureThreadsRel (K : σ → τ → Prop) (s : MeasureThreads σ R) (t : MeasureThreads τ R) :
    Prop where
  queue : K s.queue t.queue
  waitinig : s.waitinig = t.waitinig
  writer : s.writer = t.writer
  readers : s.readers = t.readers

theorem MeasureThreadsRel.finished_iff {s : MeasureThreads σ R} {t : MeasureThreads τ R}
    (h : MeasureThreadsRel K s t) : s.Finished total ↔ t.Finished total := by
  rw [MeasureThreads.Finished, MeasureThreads.Finished, h.writer, h.readers]

theorem measureThreads_bisimulates (h : Bisimulates Q Q' K) (total : ℕ) :
    Bisimulates (measureThreads Q total) (measureThreads Q' total) (MeasureThreadsRel K) where
  step {s t} hrel i := by
    obtain ⟨hqueue, hwait, hwriter, hreaders⟩ := hrel
    have haborted : s.Aborted ↔ t.Aborted := by
      rw [MeasureThreads.Aborted, MeasureThreads.Aborted, hreaders]
    simp only [measureThreads, haborted]
    split_ifs
    · exact .none
    · cases i with
      | writer =>
        simp only [MeasureThreads.stepWriter, hwriter, hwait]
        split
        · split_ifs
          · exact .some ⟨hqueue, hwait, hwriter, hreaders⟩
          · exact .some ⟨hqueue, rfl, rfl, hreaders⟩
        · split_ifs
          · exact (h.step hqueue _).map fun _ _ _ hq => ⟨⟨hq, rfl, rfl, hreaders⟩, rfl⟩
          · exact .none
      | reader r =>
        simp only [MeasureThreads.stepReader, hreaders, hwait]
        split
        · exact .some ⟨hqueue, rfl, hwriter, by simp only [MeasureThreads.setReader]⟩
        · split_ifs
          · exact (h.step hqueue _).map fun _ _ _ hq =>
              ⟨⟨hq, rfl, hwriter, by simp only [MeasureThreads.setReader]⟩, rfl⟩
          · exact .none
        · exact .none

/-- What holds at every moment of a benchmark. -/
structure Completes (Q : Machine σ (PodInput R ℕ) (Obs (Fin R) ℕ)) (total : ℕ)
    (s : MeasureThreads σ R) (log : List (Obs (Fin R) ℕ)) : Prop where
  not_aborted : ¬ s.Aborted
  barrier : s.writer.pc ≠ .barrier → ∀ r, (s.readers r).pc ≠ .start
  writes : writes log = List.range s.writer.j
  reads : ∀ r, reads r log = (List.range (s.readers r).j).map some
  le_total : (∀ r, (s.readers r).j ≤ s.writer.j) ∧ s.writer.j ≤ total
  ends : ∀ schedule, Fair schedule →
    ∃ k, ((measureThreads Q total).execution s schedule k).Finished total

theorem completes_of_bisimulates {C w : ℕ} {K : σ → Underway R ℕ → Prop} (hC : 0 < C)
    (h : Bisimulates Q (underwayMachine R ℕ C w) K) {q : σ} (hq : K q .start)
    {s : MeasureThreads σ R} {log : List (Obs (Fin R) ℕ)}
    (hr : (measureThreads Q total).Reaches (.start q) s log) : Completes Q total s log := by
  have hbisim := measureThreads_bisimulates h total
  have h₀ : MeasureThreadsRel (R := R) K (.start q) (.start .start) := ⟨hq, rfl, rfl, rfl⟩
  obtain ⟨t, ht, hrel⟩ := hbisim.reaches h₀ hr
  have hok : MeasureThreadsOk C w total t :=
    ht.invariant (I := fun t _ => MeasureThreadsOk C w total t) (measureThreadsOk_start C w total)
      fun _ _ _ _ _ hok hs => (hok.step hs).1
  obtain ⟨legal, hqueue⟩ := underway_log (measureThreads_queue ht)
  have hwrites : writes log = List.range t.writer.j := by
    rw [← hok.written, hqueue]
  have htaken (r : Fin R) : (reads r log).length = (t.readers r).j := by
    rw [← hok.taken, hqueue]
  have hle (r : Fin R) : (t.readers r).j ≤ t.writer.j := by
    have := hok.calls.window.taken_le r
    rwa [hok.taken, hok.written, List.length_range] at this
  refine ⟨?_, fun hpc r hr => ?_, by rw [hrel.writer, hwrites], fun r => ?_, ?_,
    fun schedule hfair => ?_⟩
  · rw [MeasureThreads.Aborted, hrel.readers]
    exact hok.not_aborted
  · rw [hrel.writer] at hpc
    rw [hrel.readers] at hr
    have hzero := hok.waitinig.symm.trans (hok.barrier hpc)
    exact count_eq_zero_iff.1 hzero r hr
  · rw [reads_eq_take legal r, hwrites, htaken, List.take_range, min_eq_left (hle r), hrel.readers]
  · rw [hrel.writer, hrel.readers]
    exact ⟨hle, hok.le_total⟩
  · obtain ⟨k, hok', hzero⟩ := (measureThreads_progress hC).eventually hfair ⟨hok, rfl⟩
    exact ⟨k, (hbisim.execution hrel schedule k).finished_iff.2 (hok'.finished hC hzero.symm)⟩

end Runs

/-- The benchmark of the one-to-one POD queue. -/
theorem One2One.singleReader_completes {T : SeqnumCounter} {n total : ℕ} {producer : QueueImpl T}
    {reader : StreamReader T} {s : MeasureThreads (PodState T ℕ) 1} {log : List (Obs (Fin 1) ℕ)}
    (hmake : make T n 1 = some ⟨producer, [reader]⟩)
    (h : (measureThreads (podMachine T ℕ) total).Reaches (.start (.start producer reader)) s log) :
    Completes (podMachine T ℕ) total s log := by
  obtain ⟨C, -, hC, -, hpair⟩ := make_eq_some hmake
  simp only [ProducerAndConsumers.mk.injEq, List.cons.injEq, and_true] at hpair
  obtain ⟨rfl, rfl⟩ := hpair
  exact completes_of_bisimulates hC.pos (pod_bisimulates hC) (podUnderway_start C) h

/-- The benchmark of the one-to-each POD queue, with any number of readers. -/
theorem One2Each.allReaders_complete {T : SeqnumCounter} {n R total : ℕ}
    {ch : ProducerAndConsumers T} {s : MeasureThreads (PodState T ch.consumers.length ℕ) _}
    {log : List (Obs (Fin ch.consumers.length) ℕ)} (hmake : make T n R = some ch)
    (h : (measureThreads (podMachine T _ ℕ) total).Reaches (.start (.start ℕ ch)) s log) :
    Completes (podMachine T _ ℕ) total s log := by
  obtain ⟨C, -, hC, -, hR, rfl⟩ := make_eq_some hmake
  have hlen : (consumersFrom T C 0 R).length < 2 ^ T.digits := by
    rw [consumersFrom_length]
    exact hR.trans_lt (max_reader_lt T)
  exact completes_of_bisimulates hC.pos (pod_bisimulates hC hlen) (podUnderway_start C R) h

/-- The benchmarks of the POD queues: every moment of every run is in order, and leads to the end of
all threads. -/
theorem measure_completes (T : SeqnumCounter) (n total : ℕ) :
    (∀ producer reader s log, One2One.make T n 1 = some ⟨producer, [reader]⟩ →
      (measureThreads (One2One.podMachine T ℕ) total).Reaches
        (.start (.start producer reader)) s log →
      Completes (One2One.podMachine T ℕ) total s log) ∧
    ∀ R ch s log, One2Each.make T n R = some ch →
      (measureThreads (One2Each.podMachine T ch.consumers.length ℕ) total).Reaches
        (.start (.start ℕ ch)) s log →
      Completes (One2Each.podMachine T ch.consumers.length ℕ) total s log :=
  ⟨fun _ _ _ _ hmake h => One2One.singleReader_completes hmake h,
    fun _ _ _ _ hmake h => One2Each.allReaders_complete hmake h⟩

/-- Two readers, one of which starts late, while the other one and the writer wait. -/
theorem measure_completes_late : ∃ ch s log, One2Each.make .uint8 3 2 = some ch ∧
    (measureThreads (One2Each.podMachine .uint8 2 ℕ) 3).run
      (.start (.start ℕ ⟨producerAfter .uint8 4 2, consumersFrom .uint8 4 0 2⟩))
      [.reader 0, .writer, .reader 0, .reader 1, .writer, .writer, .reader 1, .writer, .writer,
        .writer, .reader 0, .reader 0, .reader 0] = some (s, log) ∧
      log = [.empty 0, .empty 1, .wrote 0, .read 0 (some 0)] ∧
      Completes (One2Each.podMachine .uint8 2 ℕ) 3 s log := by
  have hmake : One2Each.make .uint8 3 2 =
      some ⟨producerAfter .uint8 4 2, consumersFrom .uint8 4 0 2⟩ := by
    decide
  have hrun : (measureThreads (One2Each.podMachine .uint8 2 ℕ) 3).run
      (.start (.start ℕ ⟨producerAfter .uint8 4 2, consumersFrom .uint8 4 0 2⟩))
      [.reader 0, .writer, .reader 0, .reader 1, .writer, .writer, .reader 1, .writer, .writer,
        .writer, .reader 0, .reader 0, .reader 0] = some (_, _) := rfl
  exact ⟨_, _, _, hmake, hrun, rfl, (measure_completes .uint8 3 3).2 2 _ _ _ hmake (.of_run hrun)⟩

end Ihft.Channel
