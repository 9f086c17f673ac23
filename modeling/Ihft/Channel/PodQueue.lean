import Ihft.Lib.Progress
import Ihft.Channel.One2One.Pod
import Ihft.Channel.One2Each.Pod

/-!
# The calls of a POD queue

What the users of a POD queue have to know of it: how many steps of a call are left, next to the
broadcast that the queue is.  `underwayMachine` has the calls of both families of queues, which
differ in the number of steps of a `try_write`; the queues are bisimilar to it.
-/

namespace Ihft.Channel

open Observe Broadcast

/-- A broadcast with the calls that are under way: the event that is being written with the steps
left before the last one, and the steps left of every `try_read`. -/
structure Underway (R : ℕ) (α : Type*) where
  queue : State (Fin R) α
  offer : Option (α × ℕ)
  inside : Fin R → ℕ

namespace Underway

variable {R : ℕ} {α : Type*}

def start : Underway R α := ⟨Broadcast.start, none, fun _ => 0⟩

def setInside (x : Underway R α) (r : Fin R) (k : ℕ) : Underway R α :=
  { x with inside := Function.update x.inside r k }

@[simp] theorem setInside_queue (x : Underway R α) (r : Fin R) (k : ℕ) :
    (x.setInside r k).queue = x.queue := rfl

@[simp] theorem setInside_offer (x : Underway R α) (r : Fin R) (k : ℕ) :
    (x.setInside r k).offer = x.offer := rfl

@[simp] theorem setInside_inside (x : Underway R α) (r : Fin R) (k : ℕ) :
    (x.setInside r k).inside = Function.update x.inside r k := rfl

/-- `try_write`, which has `w` steps between its load and its last store. -/
def tryWrite (C w : ℕ) (x : Underway R α) (event : α) :
    Option (Underway R α × List (Obs (Fin R) α)) :=
  match x.offer with
  | some _ => none
  | none =>
    if ∀ r, x.queue.written.length < x.queue.taken r + C then
      some ({ x with offer := some (event, w) }, [])
    else
      some (x, [.refused event])

def resumeWriter (x : Underway R α) : Option (Underway R α × List (Obs (Fin R) α)) :=
  match x.offer with
  | none => none
  | some (event, 0) => some ({ x with queue := x.queue.write event, offer := none }, [.wrote event])
  | some (event, k + 1) => some ({ x with offer := some (event, k) }, [])

def tryRead (x : Underway R α) (r : Fin R) : Option (Underway R α × List (Obs (Fin R) α)) :=
  match x.inside r with
  | 0 =>
    if x.queue.taken r < x.queue.written.length then
      some (x.setInside r 2, [])
    else
      some (x, [.empty r])
  | _ => none

def resumeReader (x : Underway R α) (r : Fin R) : Option (Underway R α × List (Obs (Fin R) α)) :=
  match x.inside r with
  | 0 => none
  | 1 => some ({ x with queue := x.queue.take r }.setInside r 0,
      [.read r x.queue.written[x.queue.taken r]?])
  | k + 2 => some (x.setInside r (k + 1), [])

end Underway

/-- A POD queue with `C` places, as its users see it. -/
def underwayMachine (R : ℕ) (α : Type*) (C w : ℕ) :
    Machine (Underway R α) (PodInput R α) (Obs (Fin R) α) where
  step x
    | .tryWrite event => x.tryWrite C w event
    | .writer => x.resumeWriter
    | .tryRead r => x.tryRead r
    | .reader r => x.resumeReader r

/-! ## The broadcast of the calls -/

section Underway

variable {R : ℕ} {α : Type*} {C w : ℕ} {x x' : Underway R α} {e : α} {r : Fin R}
  {os : List (Obs (Fin R) α)}

/-- What was let in by the first step of a call is still true at its last one. -/
structure UnderwayOk (C : ℕ) (x : Underway R α) : Prop where
  window : Window C x.queue
  room : x.offer ≠ none → ∀ r, x.queue.written.length < x.queue.taken r + C
  unread : ∀ r, x.inside r ≠ 0 → x.queue.taken r < x.queue.written.length

theorem underwayOk_start (C : ℕ) : UnderwayOk C (Underway.start (R := R) (α := α)) :=
  ⟨window_start C, fun h => absurd rfl h, fun _ h => absurd rfl h⟩

theorem UnderwayOk.tryWrite (h : UnderwayOk C x) (hs : x.tryWrite C w e = some (x', os)) :
    UnderwayOk C x' ∧ (spec (Fin R) α C).Legal x.queue os ∧
      x'.queue = (spec (Fin R) α C).after x.queue os := by
  unfold Underway.tryWrite at hs
  split at hs
  · cases hs
  · split_ifs at hs with hroom
    · cases hs
      exact ⟨⟨h.window, fun _ => hroom, h.unread⟩, trivial, rfl⟩
    · cases hs
      simp only [not_forall, not_lt] at hroom
      exact ⟨h, ⟨hroom, trivial⟩, rfl⟩

theorem UnderwayOk.resumeWriter (h : UnderwayOk C x) (hs : x.resumeWriter = some (x', os)) :
    UnderwayOk C x' ∧ (spec (Fin R) α C).Legal x.queue os ∧
      x'.queue = (spec (Fin R) α C).after x.queue os := by
  unfold Underway.resumeWriter at hs
  split at hs
  · cases hs
  · rename_i event hoffer
    cases hs
    have hallowed : (spec (Fin R) α C).allowed x.queue (.wrote event) :=
      h.room (by simp [hoffer])
    refine ⟨⟨h.window.next hallowed, fun hne => absurd rfl hne, fun r hr => ?_⟩,
      ⟨hallowed, trivial⟩, rfl⟩
    have := h.unread r hr
    simp only [State.write_taken, State.write_written, List.length_append, List.length_singleton]
    omega
  · rename_i event k hoffer
    cases hs
    exact ⟨⟨h.window, fun _ => h.room (by simp [hoffer]), h.unread⟩, trivial, rfl⟩

theorem UnderwayOk.tryRead (h : UnderwayOk C x) (hs : x.tryRead r = some (x', os)) :
    UnderwayOk C x' ∧ (spec (Fin R) α C).Legal x.queue os ∧
      x'.queue = (spec (Fin R) α C).after x.queue os := by
  unfold Underway.tryRead at hs
  split at hs
  · split_ifs at hs with hlt
    · cases hs
      refine ⟨⟨h.window, h.room, fun r' hr' => ?_⟩, trivial, rfl⟩
      rcases eq_or_ne r' r with rfl | hne
      · exact hlt
      · rw [Underway.setInside_inside, Function.update_of_ne hne] at hr'
        exact h.unread r' hr'
    · cases hs
      have hle := h.window.taken_le r
      exact ⟨h, ⟨show _ = _ by omega, trivial⟩, rfl⟩
  · cases hs

theorem UnderwayOk.resumeReader (h : UnderwayOk C x) (hs : x.resumeReader r = some (x', os)) :
    UnderwayOk C x' ∧ (spec (Fin R) α C).Legal x.queue os ∧
      x'.queue = (spec (Fin R) α C).after x.queue os := by
  unfold Underway.resumeReader at hs
  split at hs
  · cases hs
  · rename_i hinside
    cases hs
    have hlt := h.unread r (by omega)
    have hallowed : (spec (Fin R) α C).allowed x.queue
        (.read r x.queue.written[x.queue.taken r]?) := ⟨hlt, rfl⟩
    refine ⟨⟨h.window.next hallowed, fun hne r' => ?_, fun r' hr' => ?_⟩, ⟨hallowed, trivial⟩, rfl⟩
    · have := h.room hne r'
      simp only [Underway.setInside_queue, State.take_written, State.take_taken]
      rcases eq_or_ne r' r with rfl | hne'
      · rw [Function.update_self]
        omega
      · rwa [Function.update_of_ne hne']
    · rcases eq_or_ne r' r with rfl | hne'
      · simp at hr'
      · simp only [Underway.setInside_inside, Function.update_of_ne hne'] at hr'
        simpa [Function.update_of_ne hne'] using h.unread r' hr'
  · rename_i k hinside
    cases hs
    refine ⟨⟨h.window, h.room, fun r' hr' => ?_⟩, trivial, rfl⟩
    rcases eq_or_ne r' r with rfl | hne'
    · exact h.unread r' (by omega)
    · simp only [Underway.setInside_inside, Function.update_of_ne hne'] at hr'
      exact h.unread r' hr'

theorem underway_simulates : Simulates (underwayMachine R α C w) (spec (Fin R) α C)
    (fun x a => UnderwayOk C x ∧ x.queue = a) where
  step {x a i x' os} h hs := by
    obtain ⟨hok, rfl⟩ := h
    cases i with
    | tryWrite e =>
      obtain ⟨h₁, h₂, h₃⟩ := hok.tryWrite hs
      exact ⟨h₂, h₁, h₃⟩
    | writer =>
      obtain ⟨h₁, h₂, h₃⟩ := hok.resumeWriter hs
      exact ⟨h₂, h₁, h₃⟩
    | tryRead r =>
      obtain ⟨h₁, h₂, h₃⟩ := hok.tryRead hs
      exact ⟨h₂, h₁, h₃⟩
    | reader r =>
      obtain ⟨h₁, h₂, h₃⟩ := hok.resumeReader hs
      exact ⟨h₂, h₁, h₃⟩

/-- The broadcast of a run is read off its log. -/
theorem underway_log {log : List (Obs (Fin R) α)}
    (h : (underwayMachine R α C w).Reaches .start x log) :
    (spec (Fin R) α C).Legal start log ∧
      x.queue = ⟨writes log, fun r => (reads r log).length⟩ := by
  have h₀ : UnderwayOk C (Underway.start (R := R) (α := α)) ∧
      (Underway.start (R := R) (α := α)).queue = start := ⟨underwayOk_start C, rfl⟩
  obtain ⟨legal, -, hqueue⟩ := underway_simulates.reaches h₀ h
  exact ⟨legal, hqueue.trans (after_start C log)⟩

end Underway

/-- The steps left of a `try_read`. -/
def PodReaderPc.left {α : Type*} : PodReaderPc α → ℕ
  | .idle => 0
  | .copy _ => 2
  | .release _ _ => 1

/-! ## The one-to-one queue -/

namespace One2One

variable {T : SeqnumCounter} {α : Type*}

/-- The event that is being written, and the steps left of its `try_write`. -/
def WriterPc.left : WriterPc α → Option (α × ℕ)
  | .idle => none
  | .construct event => some (event, 1)
  | .publish event => some (event, 0)

/-- The queue next to its calls. -/
structure PodUnderway (C : ℕ) (s : PodState T α) (x : Underway 1 α) : Prop where
  rel : PodRel C s x.queue
  offer : x.offer = s.writer.pc.left
  inside : ∀ r, x.inside r = s.readerPc.left

theorem podUnderway_start (C : ℕ) :
    PodUnderway C (PodState.start (α := α) (producerAfter T C 1) (.new (C - 1) 0)) .start :=
  ⟨podRel_start C, rfl, fun _ => rfl⟩

variable {C : ℕ} {s : PodState T α} {x : Underway 1 α}

theorem PodUnderway.tryWrite (hC : IsCapacity T C) (h : PodUnderway C s x) (e : α) :
    Matched (PodUnderway C) (s.tryWrite e) (x.tryWrite C 1 e) := by
  obtain ⟨hrel, hoffer, hinside⟩ := h
  cases hpc : s.writer.pc with
  | idle =>
    rw [hpc] at hoffer
    obtain ⟨⟨w, evs⟩, hw⟩ : ∃ done, s.writer.tryWrite s.ring e = some done := by
      unfold Writer.tryWrite
      rw [hpc]
      dsimp only
      split_ifs <;> exact ⟨_, rfl⟩
    simp only [PodState.tryWrite, Underway.tryWrite, hw, hoffer, WriterPc.left, Fin.forall_fin_one]
    obtain ⟨hring, -, ⟨hfree, rfl, rfl⟩ | ⟨hfull, rfl, rfl⟩⟩ := hrel.ring.tryWrite hC hw
    · rw [if_pos (not_le.1 hfree)]
      exact .some ⟨⟨hrel.window, hring, hrel.reader⟩, rfl, hinside⟩
    · rw [if_neg (not_lt.2 hfull)]
      exact .some ⟨hrel, by rw [hoffer, hpc], hinside⟩
  | construct e' =>
    simp only [PodState.tryWrite, Writer.tryWrite, Underway.tryWrite, hoffer, hpc, WriterPc.left]
    exact .none
  | publish e' =>
    simp only [PodState.tryWrite, Writer.tryWrite, Underway.tryWrite, hoffer, hpc, WriterPc.left]
    exact .none

theorem PodUnderway.resumeWriter (hC : IsCapacity T C) (h : PodUnderway C s x) :
    Matched (PodUnderway C) s.resumeWriter x.resumeWriter := by
  obtain ⟨hrel, hoffer, hinside⟩ := h
  have hstep (s' os) (hs : s.resumeWriter = some (s', os)) := hrel.resumeWriter hC hs
  cases hpc : s.writer.pc with
  | idle =>
    simp only [PodState.resumeWriter, Writer.resume, Underway.resumeWriter, hoffer, hpc,
      WriterPc.left]
    exact .none
  | construct e =>
    simp only [PodState.resumeWriter, Writer.resume, Underway.resumeWriter, hoffer, hpc,
      WriterPc.left] at hstep ⊢
    exact .some ⟨(hstep _ _ rfl).2, rfl, hinside⟩
  | publish e =>
    simp only [PodState.resumeWriter, Writer.resume, Underway.resumeWriter, hoffer, hpc,
      WriterPc.left] at hstep ⊢
    exact .some ⟨(hstep _ _ rfl).2, rfl, hinside⟩

theorem PodUnderway.tryRead (hC : IsCapacity T C) (h : PodUnderway C s x) (r : Fin 1) :
    Matched (PodUnderway C) s.tryRead (x.tryRead r) := by
  obtain ⟨hrel, hoffer, hinside⟩ := h
  rw [Subsingleton.elim r 0]
  cases hpc : s.readerPc with
  | idle =>
    rw [hpc] at hinside
    have hidx := hrel.reader
    rw [hpc] at hidx
    have hidx : s.reader.AtIndex C (x.queue.taken 0) := hidx
    have hload := hrel.ring.load_iff hC (hrel.window.taken_le 0) (hrel.window.le_taken 0)
      (fun _ => le_rfl)
    have hstep (s' os) (hs : s.tryRead = some (s', os)) := hrel.tryRead hC hs
    simp only [PodState.tryRead, Underway.tryRead, hpc, hinside 0, PodReaderPc.left, hidx.next_eq,
      hidx.nextBucket, hload] at hstep ⊢
    split_ifs at hstep ⊢ with hlt
    · refine .some ⟨(hstep _ _ rfl).1, hoffer, fun r => ?_⟩
      simp [Subsingleton.elim r 0, PodReaderPc.left]
    · exact .some ⟨hrel, hoffer, by rwa [hpc]⟩
  | copy b =>
    simp only [PodState.tryRead, Underway.tryRead, hpc, hinside, PodReaderPc.left]
    exact .none
  | release b opt =>
    simp only [PodState.tryRead, Underway.tryRead, hpc, hinside, PodReaderPc.left]
    exact .none

theorem PodUnderway.resumeReader (h : PodUnderway C s x) (r : Fin 1) :
    Matched (PodUnderway C) s.resumeReader (x.resumeReader r) := by
  obtain ⟨hrel, hoffer, hinside⟩ := h
  rw [Subsingleton.elim r 0]
  have hstep (s' os) (hs : s.resumeReader = some (s', os)) := hrel.resumeReader hs
  cases hpc : s.readerPc with
  | idle =>
    simp only [PodState.resumeReader, Underway.resumeReader, hpc, hinside, PodReaderPc.left]
    exact .none
  | copy b =>
    simp only [PodState.resumeReader, Underway.resumeReader, hpc, hinside,
      PodReaderPc.left] at hstep ⊢
    refine .some ⟨(hstep _ _ rfl).2, hoffer, fun r => ?_⟩
    simp [Subsingleton.elim r 0, PodReaderPc.left]
  | release b opt =>
    have hread := hrel.reader
    rw [hpc] at hread
    obtain ⟨-, -, -, rfl⟩ := hread
    simp only [PodState.resumeReader, Underway.resumeReader, hpc, hinside,
      PodReaderPc.left] at hstep ⊢
    refine .some ⟨(hstep _ _ rfl).2, hoffer, fun r => ?_⟩
    simp [Subsingleton.elim r 0, PodReaderPc.left]

theorem pod_bisimulates (hC : IsCapacity T C) :
    Bisimulates (podMachine T α) (underwayMachine 1 α C 1) (PodUnderway C) where
  step h i :=
    match i with
    | .tryWrite e => h.tryWrite hC e
    | .writer => h.resumeWriter hC
    | .tryRead r => h.tryRead hC r
    | .reader r => h.resumeReader r

end One2One

/-! ## The one-to-each queue -/

namespace One2Each

variable {T : SeqnumCounter} {R : ℕ} {α : Type*}

/-- The event that is being written, and the steps left of its `try_write`. -/
def WriterPc.left : WriterPc T α → Option (α × ℕ)
  | .idle => none
  | .construct event _ => some (event, 2)
  | .storeCounter event _ => some (event, 1)
  | .publish event _ => some (event, 0)

/-- The queue next to its calls. -/
structure PodUnderway (C : ℕ) (s : PodState T R α) (x : Underway R α) : Prop where
  rel : PodRel C s x.queue
  offer : x.offer = s.writer.pc.left
  inside : ∀ r, x.inside r = (s.readers r).pc.left

theorem podUnderway_start (C R : ℕ) :
    PodUnderway C (PodState.start α ⟨producerAfter T C R, consumersFrom T C 0 R⟩) .start :=
  ⟨podRel_start C R, rfl, fun _ => rfl⟩

variable {C : ℕ} {s : PodState T R α} {x : Underway R α} {r : Fin R}

theorem PodUnderway.tryWrite (hC : IsCapacity T C) (hR : R < 2 ^ T.digits) (h : PodUnderway C s x)
    (e : α) : Matched (PodUnderway C) (s.tryWrite e) (x.tryWrite C 2 e) := by
  obtain ⟨hrel, hoffer, hinside⟩ := h
  cases hpc : s.writer.pc with
  | idle =>
    rw [hpc] at hoffer
    have hmark : BitVec.ofNat T.digits s.writer.impl.readersCount = BitVec.ofNat T.digits R := by
      rw [QueueImpl.readersCount, BitVec.ofNat_toNat, hrel.readersCount, BitVec.setWidth_eq]
    obtain ⟨⟨w, evs⟩, hw⟩ :
        ∃ done, s.writer.tryWrite s.ring e (BitVec.ofNat T.digits R) = some done := by
      unfold Writer.tryWrite
      rw [hpc]
      dsimp only
      split_ifs <;> exact ⟨_, rfl⟩
    simp only [PodState.tryWrite, Underway.tryWrite, hmark, hw, hoffer, WriterPc.left]
    obtain ⟨hring, -, ⟨hfree, rfl, rfl⟩ | ⟨hfull, rfl, rfl⟩⟩ :=
      hrel.ring.tryWrite hC (ofNat_pending_ne_empty hR) hw
    · rw [if_pos ((ofNat_pending_eq_empty hR _).1 hfree)]
      exact .some ⟨⟨hrel.window, hrel.readersCount, hring, hrel.readers⟩, rfl, hinside⟩
    · rw [if_neg fun hroom => hfull ((ofNat_pending_eq_empty hR _).2 hroom)]
      exact .some ⟨hrel, by rw [hoffer, hpc], hinside⟩
  | construct e' c =>
    simp only [PodState.tryWrite, Writer.tryWrite, Underway.tryWrite, hoffer, hpc, WriterPc.left]
    exact .none
  | storeCounter e' c =>
    simp only [PodState.tryWrite, Writer.tryWrite, Underway.tryWrite, hoffer, hpc, WriterPc.left]
    exact .none
  | publish e' c =>
    simp only [PodState.tryWrite, Writer.tryWrite, Underway.tryWrite, hoffer, hpc, WriterPc.left]
    exact .none

theorem PodUnderway.resumeWriter (hC : IsCapacity T C) (hR : R < 2 ^ T.digits)
    (h : PodUnderway C s x) : Matched (PodUnderway C) s.resumeWriter x.resumeWriter := by
  obtain ⟨hrel, hoffer, hinside⟩ := h
  have hstep (s' os) (hs : s.resumeWriter = some (s', os)) := hrel.resumeWriter hC hR hs
  cases hpc : s.writer.pc with
  | idle =>
    simp only [PodState.resumeWriter, Writer.resume, Underway.resumeWriter, hoffer, hpc,
      WriterPc.left]
    exact .none
  | construct e c =>
    simp only [PodState.resumeWriter, Writer.resume, Underway.resumeWriter, hoffer, hpc,
      WriterPc.left] at hstep ⊢
    exact .some ⟨(hstep _ _ rfl).2, rfl, hinside⟩
  | storeCounter e c =>
    simp only [PodState.resumeWriter, Writer.resume, Underway.resumeWriter, hoffer, hpc,
      WriterPc.left] at hstep ⊢
    exact .some ⟨(hstep _ _ rfl).2, rfl, hinside⟩
  | publish e c =>
    simp only [PodState.resumeWriter, Writer.resume, Underway.resumeWriter, hoffer, hpc,
      WriterPc.left] at hstep ⊢
    exact .some ⟨(hstep _ _ rfl).2, rfl, hinside⟩

/-- A move of the reader `r` next to the steps left of its call. -/
theorem inside_setReader (hinside : ∀ r, x.inside r = (s.readers r).pc.left) (r : Fin R)
    (reader : PodReader T α) (r' : Fin R) : Function.update x.inside r reader.pc.left r' =
      ((s.setReader r reader).readers r').pc.left := by
  simp only [PodState.setReader]
  rcases eq_or_ne r' r with rfl | hne
  · simp only [Function.update_self]
  · simp only [Function.update_of_ne hne, hinside]

theorem PodUnderway.tryRead (hC : IsCapacity T C) (h : PodUnderway C s x) (r : Fin R) :
    Matched (PodUnderway C) (s.tryRead r) (x.tryRead r) := by
  obtain ⟨hrel, hoffer, hinside⟩ := h
  cases hpc : (s.readers r).pc with
  | idle =>
    have hr := hinside r
    rw [hpc] at hr
    have hidx := hrel.readers r
    rw [hpc] at hidx
    have hidx : (s.readers r).reader.AtIndex C (x.queue.taken r) := hidx
    have hload := hrel.ring.load_iff hC (hrel.window.taken_le r) (hrel.window.le_taken r)
    have hstep (s' os) (hs : s.tryRead r = some (s', os)) := hrel.tryRead hC hs
    simp only [PodState.tryRead, Underway.tryRead, hpc, hr, PodReaderPc.left, hidx.next_eq,
      hidx.nextBucket, hload] at hstep ⊢
    split_ifs at hstep ⊢ with hlt
    · exact .some ⟨(hstep _ _ rfl).1, hoffer, inside_setReader hinside r ⟨_, .copy _⟩⟩
    · exact .some ⟨hrel, hoffer, hinside⟩
  | copy b =>
    simp only [PodState.tryRead, Underway.tryRead, hpc, hinside, PodReaderPc.left]
    exact .none
  | release b opt =>
    simp only [PodState.tryRead, Underway.tryRead, hpc, hinside, PodReaderPc.left]
    exact .none

theorem PodUnderway.resumeReader (hR : R < 2 ^ T.digits) (h : PodUnderway C s x) (r : Fin R) :
    Matched (PodUnderway C) (s.resumeReader r) (x.resumeReader r) := by
  obtain ⟨hrel, hoffer, hinside⟩ := h
  have hstep (s' os) (hs : s.resumeReader r = some (s', os)) := hrel.resumeReader hR hs
  cases hpc : (s.readers r).pc with
  | idle =>
    simp only [PodState.resumeReader, Underway.resumeReader, hpc, hinside, PodReaderPc.left]
    exact .none
  | copy b =>
    simp only [PodState.resumeReader, Underway.resumeReader, hpc, hinside,
      PodReaderPc.left] at hstep ⊢
    exact .some ⟨(hstep _ _ rfl).2, hoffer, inside_setReader hinside r ⟨_, .release b _⟩⟩
  | release b opt =>
    have hread := hrel.readers r
    rw [hpc] at hread
    obtain ⟨-, -, -, rfl⟩ := hread
    simp only [PodState.resumeReader, Underway.resumeReader, hpc, hinside,
      PodReaderPc.left] at hstep ⊢
    exact .some ⟨(hstep _ _ rfl).2, hoffer, inside_setReader hinside r ⟨_, .idle⟩⟩

theorem pod_bisimulates (hC : IsCapacity T C) (hR : R < 2 ^ T.digits) :
    Bisimulates (podMachine T R α) (underwayMachine R α C 2) (PodUnderway C) where
  step h i :=
    match i with
    | .tryWrite e => h.tryWrite hC hR e
    | .writer => h.resumeWriter hC hR
    | .tryRead r => h.tryRead hC r
    | .reader r => h.resumeReader hR r

end One2Each

/-! ## Threads that spin -/

/-- Where a thread stands in `while(not q.try_write(event));`, or in its twin around `try_read`:
before a call or in one. -/
inductive Call
  | spin
  | inside
  deriving DecidableEq, Repr

namespace Call

variable {R : ℕ} {ρ α : Type*}

/-- Where the observations of a step leave the thread; `none` is the end of its loop. -/
def after : List (Obs ρ α) → Option Call
  | [] => some .inside
  | .refused _ :: _ => some .spin
  | .empty _ :: _ => some .spin
  | .wrote _ :: _ => none
  | .read _ _ :: _ => none

/-- The event that a `try_read` came back with. -/
def result : List (Obs ρ α) → Option α
  | .read _ opt :: _ => opt
  | _ => none

/-- The next step of the loop around `try_write`. -/
def writing (event : α) : Call → PodInput R α
  | .spin => .tryWrite event
  | .inside => .writer

/-- The next step of the loop around `try_read`. -/
def reading (r : Fin R) : Call → PodInput R α
  | .spin => .tryRead r
  | .inside => .reader r

end Call

end Ihft.Channel
