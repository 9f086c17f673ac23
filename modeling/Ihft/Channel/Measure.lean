import Ihft.Channel.ObjectStep
import Ihft.Memory.StreamFixedPoolAllocator

/-!
# The benchmarks with a stream pool

The writer of a benchmark creates one `data_t` after the other in a slab of the content allocator
of its queue, and writes it, however long that takes.  `make_queue` gives the requested capacity
both to the pool and to the queue; the queue rounds it and the pool does not, so that the pool may
come out smaller than the queue.  Then a slab is handed out while the event in it waits to be read.
-/

namespace Ihft.Channel

open Observe GuardedBroadcast Memory StreamFixedPoolAllocator

variable {R : ℕ} {σ : Type*}

/-- A `data_t`: the pointer to the slab it owns. -/
structure Data where
  ptr : ℕ
  deriving DecidableEq, Repr

/-- The writer with its queue.  `data` is the variable of its loop, `owned` are the `data_t`s with a
pointer, there or in the ring, and `done` says that the loop has ended. -/
structure MeasureState (σ : Type*) where
  queue : σ
  allocator : StreamFixedPoolAllocator
  data : Option Data
  owned : List Data
  done : Bool

inductive MeasureInput (R : ℕ)
  | createData
  | tryWrite
  | queue (i : ObjectInput R Data)
  deriving DecidableEq, Repr

/-- What is seen of a benchmark; `owned` says that the slab was still owned when it was allocated. -/
inductive MeasureObs (R : ℕ)
  | allocated (ptr : ℕ) (owned : Bool)
  | queue (o : Obs (Fin R) Data)
  deriving DecidableEq, Repr

namespace MeasureState

def start (queue : σ) (allocator : StreamFixedPoolAllocator) : MeasureState σ :=
  ⟨queue, allocator, none, [], false⟩

/-- `create_data(j)`, for the next `j`. -/
def createData (s : MeasureState σ) : Option (MeasureState σ × List (MeasureObs R)) :=
  match s.data, s.done, s.allocator.allocate 1 with
  | none, false, (allocator, some ptr) =>
    some ({ s with allocator := allocator, data := some ⟨ptr⟩, owned := ⟨ptr⟩ :: s.owned },
      [.allocated ptr (decide (⟨ptr⟩ ∈ s.owned))])
  | _, _, _ => none

/-- What an observation of the queue means for the writer and the slabs. -/
def observe (s : MeasureState σ) : Obs (Fin R) Data → MeasureState σ
  | .wrote _ => { s with data := none }
  | .destroyed _ (some x) => { s with owned := s.owned.erase x.value }
  | _ => s

/-- A step of the queue. -/
def stepQueue (M : Machine σ (ObjectInput R Data) (Obs (Fin R) Data)) (s : MeasureState σ)
    (i : ObjectInput R Data) : Option (MeasureState σ × List (MeasureObs R)) :=
  match M.step s.queue i with
  | none => none
  | some (queue, os) => some ({ os.foldl observe s with queue := queue }, os.map .queue)

/-- `w.try_write(std::move(data))`, which moves from `data` only when the event is written. -/
def tryWrite (M : Machine σ (ObjectInput R Data) (Obs (Fin R) Data)) (s : MeasureState σ) :
    Option (MeasureState σ × List (MeasureObs R)) :=
  match s.data with
  | none => none
  | some data => s.stepQueue M (.tryWrite data)

/-- The end of the loop, and with it of the producer. -/
def dropProducer (M : Machine σ (ObjectInput R Data) (Obs (Fin R) Data)) (s : MeasureState σ) :
    Option (MeasureState σ × List (MeasureObs R)) :=
  match s.data with
  | none => { s with done := true }.stepQueue M .dropProducer
  | some _ => none

end MeasureState

/-- A benchmark as a machine over the machine of its queue. -/
def measureMachine (M : Machine σ (ObjectInput R Data) (Obs (Fin R) Data)) :
    Machine (MeasureState σ) (MeasureInput R) (MeasureObs R) where
  step s
    | .createData => s.createData
    | .tryWrite => s.tryWrite M
    | .queue (.tryWrite _) => none
    | .queue .dropProducer => s.dropProducer M
    | .queue i => s.stepQueue M i

/-- The observations of the queue. -/
def queueLog (log : List (MeasureObs R)) : List (Obs (Fin R) Data) :=
  log.filterMap fun
    | .queue o => some o
    | _ => none

@[simp] theorem queueLog_append (l l' : List (MeasureObs R)) :
    queueLog (l ++ l') = queueLog l ++ queueLog l' :=
  List.filterMap_append

@[simp] theorem queueLog_map (os : List (Obs (Fin R) Data)) :
    queueLog (os.map MeasureObs.queue) = os := by
  simp [queueLog, List.filterMap_map]

/-- The broadcast that a log leads to. -/
def dataBroadcast (C : ℕ) (log : List (MeasureObs R)) : State (Fin R) Data :=
  (spec (Fin R) Data C).after GuardedBroadcast.start (queueLog log)

theorem dataBroadcast_append (C : ℕ) (l l' : List (MeasureObs R)) : dataBroadcast C (l ++ l') =
    (spec (Fin R) Data C).after (dataBroadcast C l) (queueLog l') := by
  simp [dataBroadcast]

/-! ## The slabs that are owned -/

/-- The objects that were written and not destroyed, by their numbers. -/
def alive (a : State (Fin R) Data) : List ℕ :=
  (List.range a.written.length).filter fun k => k ∉ a.dead

theorem alive_nodup (a : State (Fin R) Data) : (alive a).Nodup := List.nodup_range.filter _

theorem mem_alive {a : State (Fin R) Data} {k : ℕ} :
    k ∈ alive a ↔ k < a.written.length ∧ k ∉ a.dead := by
  simp [alive]

/-- The pool and the `data_t`s against the broadcast: the event `k` is in the slab that was active
after `k` seeks, whatever the size of the pool. -/
structure MeasureOk (size : ℕ) (a : State (Fin R) Data) (s : MeasureState σ) : Prop where
  capacity : s.allocator.capacity = size
  written : ∀ k < a.written.length, a.written[k]? = some ⟨slabOf size k⟩
  active : s.allocator.activeSlab = slabOf size (a.written.length + s.data.toList.length)
  data : ∀ d, s.data = some d → d = ⟨slabOf size a.written.length⟩
  offer : ∀ d, a.offer = some d → s.data = some d
  owned : s.owned.Perm ((alive a).map (fun k => ⟨slabOf size k⟩) ++ s.data.toList)

namespace MeasureOk

variable {C size : ℕ} {a : State (Fin R) Data} {s : MeasureState σ}

theorem setQueue (h : MeasureOk size a s) (queue : σ) :
    MeasureOk size a { s with queue := queue } :=
  ⟨h.capacity, h.written, h.active, h.data, h.offer, h.owned⟩

/-- The event is in the ring and no longer in the hand of the writer. -/
theorem wrote (h : MeasureOk size a s) (hco : Coherent C a) {d : Data}
    (ho : (spec (Fin R) Data C).allowed a (.wrote d)) :
    MeasureOk size ((spec (Fin R) Data C).next a (.wrote d)) (s.observe (R := R) (.wrote d)) := by
  have hdata := h.offer d ho.2.1
  obtain rfl := h.data d hdata
  have hnot : a.written.length ∉ a.dead := fun hd =>
    absurd (hco.lt_of_dead _ hd) (lt_irrefl _)
  have hlength : List.length (a.next (.wrote ⟨slabOf size a.written.length⟩)).written =
      a.written.length + 1 := by
    simp [State.next]
  have halive : alive (a.next (.wrote ⟨slabOf size a.written.length⟩)) =
      alive a ++ [a.written.length] := by
    unfold alive
    rw [hlength, List.range_succ, List.filter_append]
    congr 1
    exact List.filter_cons_of_pos (decide_eq_true hnot)
  change MeasureOk size (a.next (.wrote ⟨slabOf size a.written.length⟩)) _
  refine ⟨h.capacity, ?_, ?_, ?_, ?_, ?_⟩
  · intro k hk
    rw [hlength] at hk
    change (a.written ++ [_])[k]? = _
    rcases Nat.lt_succ_iff_lt_or_eq.1 hk with hlt | rfl
    · rw [List.getElem?_append_left hlt]
      exact h.written k hlt
    · simp
  · rw [hlength]
    have hactive := h.active
    rw [hdata] at hactive
    exact hactive
  · exact fun d hd => by cases hd
  · exact fun d hd => by cases hd
  · rw [halive]
    have howned := h.owned
    rw [hdata] at howned
    simpa [MeasureState.observe] using howned

/-- The slab of a destroyed event is no longer owned. -/
theorem destroyed (h : MeasureOk size a s) {k : ℕ} (hk : k < a.written.length) (hdead : k ∉ a.dead)
    (who : Option (Fin R)) : MeasureOk size ((spec (Fin R) Data C).next a (.destroyed who (a.item k)))
      (s.observe (.destroyed who (a.item k))) := by
  have hitem : a.item k = some ⟨k, ⟨slabOf size k⟩⟩ := by
    rw [State.item, h.written k hk, Option.map_some]
  have halive : (alive a).Perm
      (k :: alive ((spec (Fin R) Data C).next a (.destroyed who (a.item k)))) := by
    have hnot : k ∉ alive ((spec (Fin R) Data C).next a (.destroyed who (a.item k))) := fun hmem =>
      (mem_alive.1 hmem).2 ((mem_dead_next hk who).2 (.inl rfl))
    apply (List.perm_ext_iff_of_nodup (alive_nodup a) ((alive_nodup _).cons hnot)).2
    intro k'
    have hnext : k' ∈ (a.next (.destroyed who (a.item k))).dead ↔ k' = k ∨ k' ∈ a.dead :=
      mem_dead_next hk who
    rw [List.mem_cons, mem_alive, mem_alive]
    change _ ↔ k' = k ∨ k' < a.written.length ∧ k' ∉ (a.next (.destroyed who (a.item k))).dead
    rw [hnext]
    constructor
    · intro hk'
      by_cases heq : k' = k
      · exact .inl heq
      · exact .inr ⟨hk'.1, not_or.2 ⟨heq, hk'.2⟩⟩
    · rintro (rfl | hk')
      · exact ⟨hk, hdead⟩
      · exact ⟨hk'.1, fun hd => hk'.2 (.inr hd)⟩
  refine ⟨?_, h.written, ?_, ?_, ?_, ?_⟩
  · rw [hitem]
    exact h.capacity
  · rw [hitem]
    exact h.active
  · rw [hitem]
    exact h.data
  · rw [hitem]
    exact h.offer
  · have howned := (h.owned.trans ((halive.map _).append_right _)).erase (⟨slabOf size k⟩ : Data)
    rw [List.map_cons, List.cons_append, List.erase_cons_head] at howned
    rw [hitem] at howned ⊢
    exact howned

/-- One observation of the queue. -/
theorem observe (h : MeasureOk size a s) (hco : Coherent C a) {o : Obs (Fin R) Data}
    (ho : (spec (Fin R) Data C).allowed a o) (hoffers : ∀ d, o = .offered d → s.data = some d) :
    MeasureOk size ((spec (Fin R) Data C).next a o) (s.observe o) := by
  cases o with
  | offered d =>
    refine ⟨h.capacity, h.written, h.active, h.data, fun d' hd => ?_, h.owned⟩
    cases hd
    exact hoffers d rfl
  | wrote d => exact h.wrote hco ho
  | refused d =>
    exact ⟨h.capacity, h.written, h.active, h.data, fun d' hd => (by cases hd), h.owned⟩
  | destroyed who x =>
    obtain ⟨k, hk, rfl, hdead⟩ : ∃ k < a.written.length, x = a.item k ∧ k ∉ a.dead := by
      cases who with
      | none => obtain ⟨-, -, -, k, hk, hx, hd, -⟩ := ho; exact ⟨k, hk, hx, hd⟩
      | some r => obtain ⟨-, k, hk, hx, hd, -⟩ := ho; exact ⟨k, hk, hx, hd⟩
    exact h.destroyed hk hdead who
  | read r x | empty r | dropped r k | freed k | closed | disposed =>
    exact ⟨h.capacity, h.written, h.active, h.data, h.offer, h.owned⟩

/-- A step of the queue that offers nothing. -/
theorem observeAll {os : List (Obs (Fin R) Data)} (h : MeasureOk size a s) (hco : Coherent C a)
    (hos : (spec (Fin R) Data C).Legal a os) (hno : ∀ d, .offered d ∉ os) :
    MeasureOk size ((spec (Fin R) Data C).after a os) (os.foldl MeasureState.observe s) := by
  induction os generalizing a s with
  | nil => exact h
  | cons o os ih =>
    obtain ⟨ho, hos⟩ := hos
    have hfirst := h.observe hco ho fun d heq => absurd (heq ▸ List.mem_cons_self) (hno d)
    exact ih hfirst (hco.next ho) hos fun d hd => hno d (List.mem_cons_of_mem o hd)

/-- The event in the hand of the writer is offered. -/
theorem observeAll_offer {os : List (Obs (Fin R) Data)} {d : Data} (h : MeasureOk size a s)
    (hco : Coherent C a) (hdata : s.data = some d)
    (hos : (spec (Fin R) Data C).Legal a (.offered d :: os)) (hno : ∀ d, .offered d ∉ os) :
    MeasureOk size ((spec (Fin R) Data C).after a (.offered d :: os))
      ((Obs.offered d :: os).foldl MeasureState.observe s) := by
  obtain ⟨ho, hos⟩ := hos
  have hfirst := h.observe hco ho fun d' heq => by cases heq; exact hdata
  exact hfirst.observeAll (hco.next ho) hos hno

/-- Allocating the slab of the next event. -/
theorem createData {s' : MeasureState σ} {os : List (MeasureObs R)} (h : MeasureOk size a s)
    (hs : s.createData = some (s', os)) : MeasureOk size a s' ∧
      os = [.allocated (slabOf size a.written.length)
        (decide (⟨slabOf size a.written.length⟩ ∈ s.owned))] := by
  unfold MeasureState.createData at hs
  split at hs
  · rename_i allocator ptr hdata hdone halloc
    simp only [Option.some.injEq, Prod.mk.injEq] at hs
    simp only [allocate, if_true, Prod.mk.injEq, Option.some.injEq] at halloc
    obtain ⟨rfl, rfl⟩ := hs
    obtain ⟨rfl, rfl⟩ := halloc
    have hactive := h.active
    have howned := h.owned
    rw [hdata, Option.toList_none, List.length_nil, Nat.add_zero] at hactive
    rw [hdata, Option.toList_none, List.append_nil] at howned
    rw [hactive]
    refine ⟨⟨(seekToNextSlab_size _).trans h.capacity, h.written, ?_, ?_, ?_, ?_⟩, rfl⟩
    · have hcap := h.capacity
      unfold StreamFixedPoolAllocator.capacity at hcap
      rw [← hcap] at hactive ⊢
      exact activeSlab_seekToNextSlab hactive
    · exact fun d hd => (Option.some.inj hd).symm
    · exact fun d hd => absurd (hdata.symm.trans (h.offer d hd)) (by simp)
    · exact (howned.cons _).trans (List.perm_append_singleton _ _).symm
  · cases hs

/-- With more slabs than places the next slab is free. -/
theorem next_free (h : MeasureOk size a s) (hco : Coherent C a) (hsize : C < size)
    (hdata : s.data = none) : (⟨slabOf size a.written.length⟩ : Data) ∉ s.owned := by
  intro hmem
  have howned := h.owned
  rw [hdata, Option.toList_none, List.append_nil] at howned
  obtain ⟨k, hk, heq⟩ := List.mem_map.1 (howned.mem_iff.1 hmem)
  obtain ⟨hlt, hdead⟩ := mem_alive.1 hk
  have hle := hco.length_le fun hf => hdead (hco.dead_of_freed k hf)
  exact slabOf_ne hlt (by omega) (Data.mk.inj heq)

end MeasureOk

/-! ## Runs of a benchmark -/

section Runs

variable {C size : ℕ} {M : Machine σ (ObjectInput R Data) (Obs (Fin R) Data)}
  {Rel : σ → State (Fin R) Data → Prop} {produces ready : σ → Prop} {s s' : MeasureState σ}
  {log os : List (MeasureObs R)}

/-- A benchmark with its queue. -/
structure MeasureRel (C size : ℕ) (Rel : σ → State (Fin R) Data → Prop) (s : MeasureState σ)
    (log : List (MeasureObs R)) : Prop where
  queue : Rel s.queue (dataBroadcast C log)
  coherent : Coherent C (dataBroadcast C log)
  ok : MeasureOk size (dataBroadcast C log) s

theorem measureRel_start {queue : σ} {allocator : StreamFixedPoolAllocator}
    (hnext : allocator.position = 0) (hqueue : Rel queue GuardedBroadcast.start) :
    MeasureRel (R := R) C allocator.capacity Rel (.start queue allocator) [] where
  queue := hqueue
  coherent := coherent_start C
  ok := {
    capacity := rfl
    written := fun k hk => absurd hk (Nat.not_lt_zero k)
    active := hnext.trans (slabOf_zero _).symm
    data := fun d hd => by cases hd
    offer := fun d hd => by cases hd
    owned := .refl _ }

theorem MeasureRel.stepQueue (h : MeasureRel C size Rel s log)
    (hM : IsObjectQueue C M Rel produces ready) {i : ObjectInput R Data}
    (hi : ∀ d, i = .tryWrite d → s.data = some d) (hs : s.stepQueue M i = some (s', os)) :
    MeasureRel C size Rel s' (log ++ os) := by
  unfold MeasureState.stepQueue at hs
  split at hs
  · cases hs
  · rename_i queue qs hstep
    simp only [Option.some.injEq, Prod.mk.injEq] at hs
    obtain ⟨rfl, rfl⟩ := hs
    obtain ⟨hlegal, hrel⟩ := hM.simulates.step h.queue hstep
    have hco := hlegal.invariant (I := Coherent C) (fun _ _ hi ho => hi.next ho) h.coherent
    have hafter : dataBroadcast C (log ++ qs.map .queue) =
        (spec (Fin R) Data C).after (dataBroadcast C log) qs := by
      rw [dataBroadcast_append, queueLog_map]
    refine ⟨by rw [hafter]; exact hrel, by rw [hafter]; exact hco, ?_⟩
    rw [hafter]
    apply MeasureOk.setQueue
    by_cases hw : ∃ d, i = .tryWrite d
    · obtain ⟨d, rfl⟩ := hw
      rcases hM.tryWrite hstep with rfl | rfl
      · exact h.ok.observeAll_offer h.coherent (hi d rfl) hlegal (by simp)
      · exact h.ok.observeAll_offer h.coherent (hi d rfl) hlegal (by simp)
    · exact h.ok.observeAll h.coherent hlegal fun d hmem => hw ⟨d, hM.offers hstep hmem⟩

theorem MeasureRel.createData (h : MeasureRel C size Rel s log)
    (hs : s.createData = some (s', os)) : MeasureRel C size Rel s' (log ++ os) := by
  obtain ⟨hok, rfl⟩ := h.ok.createData hs
  have hafter : dataBroadcast C (log ++ [.allocated (slabOf size (dataBroadcast C log).written.length)
      (decide (⟨slabOf size (dataBroadcast C log).written.length⟩ ∈ s.owned))]) =
      dataBroadcast C log := dataBroadcast_append ..
  have hqueue : s'.queue = s.queue := by
    unfold MeasureState.createData at hs
    split at hs
    · cases hs
      rfl
    · cases hs
  exact ⟨by rw [hafter, hqueue]; exact h.queue, by rw [hafter]; exact h.coherent,
    by rw [hafter]; exact hok⟩

/-- Every step of a benchmark keeps its account. -/
theorem MeasureRel.step (h : MeasureRel C size Rel s log)
    (hM : IsObjectQueue C M Rel produces ready) {i : MeasureInput R}
    (hs : (measureMachine M).step s i = some (s', os)) : MeasureRel C size Rel s' (log ++ os) := by
  simp only [measureMachine] at hs
  cases i with
  | createData => exact h.createData hs
  | tryWrite =>
    simp only [MeasureState.tryWrite] at hs
    split at hs
    · cases hs
    · rename_i d hdata
      exact h.stepQueue hM (fun d' heq => by cases heq; exact hdata) hs
  | queue i =>
    cases i with
    | tryWrite d => cases hs
    | dropProducer =>
      simp only [MeasureState.dropProducer] at hs
      split at hs
      · have hdone : MeasureRel C size Rel { s with done := true } log :=
          ⟨h.queue, h.coherent, h.ok.capacity, h.ok.written, h.ok.active, h.ok.data, h.ok.offer,
            h.ok.owned⟩
        exact hdone.stepQueue hM (fun d heq => by cases heq) hs
      · cases hs
    | writer | tryRead r | moveGuard r j | destroyGuard r j | guard r j | dropReader r =>
      exact h.stepQueue hM (fun d heq => by cases heq) hs

/-- Every run of a benchmark keeps its account. -/
theorem measure_reaches (hM : IsObjectQueue C M Rel produces ready) {queue : σ}
    {allocator : StreamFixedPoolAllocator} (hnext : allocator.position = 0)
    (hqueue : Rel queue GuardedBroadcast.start)
    (h : (measureMachine M).Reaches (.start queue allocator) s log) :
    MeasureRel C allocator.capacity Rel s log :=
  h.invariant (I := fun s log => MeasureRel C allocator.capacity Rel s log)
    (measureRel_start hnext hqueue) fun _ _ _ _ _ hi hs => hi.step hM hs

/-- No slab is allocated while it is owned. -/
def NoOwned (log : List (MeasureObs R)) : Prop := ∀ ptr, .allocated ptr true ∉ log

theorem noOwned_of_stepQueue {i : ObjectInput R Data} (hs : s.stepQueue M i = some (s', os)) :
    NoOwned os := by
  unfold MeasureState.stepQueue at hs
  split at hs
  · cases hs
  · simp only [Option.some.injEq, Prod.mk.injEq] at hs
    obtain ⟨-, rfl⟩ := hs
    intro ptr hmem
    simp at hmem

/-- Only `create_data` allocates. -/
theorem noOwned_of_step {i : MeasureInput R} (hi : i ≠ .createData)
    (hs : (measureMachine M).step s i = some (s', os)) : NoOwned os := by
  simp only [measureMachine] at hs
  cases i with
  | createData => exact absurd rfl hi
  | tryWrite =>
    simp only [MeasureState.tryWrite] at hs
    split at hs
    · cases hs
    · exact noOwned_of_stepQueue hs
  | queue i =>
    cases i with
    | tryWrite d => cases hs
    | dropProducer =>
      simp only [MeasureState.dropProducer] at hs
      split at hs
      · exact noOwned_of_stepQueue hs
      · cases hs
    | writer | tryRead r | moveGuard r j | destroyGuard r j | guard r j | dropReader r =>
      exact noOwned_of_stepQueue hs

theorem MeasureRel.step_noOwned (h : MeasureRel C size Rel s log) (hsize : C < size)
    {i : MeasureInput R} (hs : (measureMachine M).step s i = some (s', os)) : NoOwned os := by
  by_cases hi : i = .createData
  · subst hi
    obtain ⟨-, rfl⟩ := h.ok.createData hs
    have hdata : s.data = none := by
      simp only [measureMachine, MeasureState.createData] at hs
      split at hs
      · assumption
      · cases hs
    have hfree := h.ok.next_free h.coherent hsize hdata
    intro ptr hmem
    simp [hfree] at hmem
  · exact noOwned_of_step hi hs

/-! ## Filling the ring -/

theorem observe_setQueue (s : MeasureState σ) (queue : σ) (o : Obs (Fin R) Data) :
    ({ s with queue := queue } : MeasureState σ).observe o =
      { s.observe o with queue := queue } := by
  cases o with
  | destroyed who x => cases x <;> rfl
  | _ => rfl

theorem foldl_observe_setQueue (os : List (Obs (Fin R) Data)) (s : MeasureState σ) (queue : σ) :
    os.foldl MeasureState.observe { s with queue := queue } =
      { os.foldl MeasureState.observe s with queue := queue } := by
  induction os generalizing s with
  | nil => rfl
  | cons o os ih => rw [List.foldl_cons, observe_setQueue, ih, List.foldl_cons]

/-- The steps of `try_write` are steps of the benchmark. -/
theorem run_writer {qs : List (Obs (Fin R) Data)} {queue : σ} (m : ℕ)
    (h : M.run s.queue (List.replicate m .writer) = some (queue, qs)) :
    (measureMachine M).run s (List.replicate m (.queue .writer)) =
      some ({ qs.foldl MeasureState.observe s with queue := queue }, qs.map .queue) := by
  induction m generalizing s qs with
  | zero =>
    simp only [List.replicate, Machine.run, Option.some.injEq, Prod.mk.injEq] at h
    obtain ⟨rfl, rfl⟩ := h
    rfl
  | succ m ih =>
    rw [List.replicate_succ] at h
    obtain ⟨queue', qs', qs'', hstep, hrun, rfl⟩ := Machine.run_cons_eq_some h
    have hrest := ih (s := { qs'.foldl MeasureState.observe s with queue := queue' }) hrun
    have hfirst : (measureMachine M).step s (.queue .writer) = some
        ({ qs'.foldl MeasureState.observe s with queue := queue' }, qs'.map .queue) := by
      simp only [measureMachine, MeasureState.stepQueue, hstep]
    simp only [List.replicate_succ, Machine.run, hfirst, hrest]
    rw [foldl_observe_setQueue, List.foldl_append, List.map_append]

/-- A `try_write` that the queue accepts, as a run of the benchmark. -/
theorem run_tryWrite {qs : List (Obs (Fin R) Data)} {queue : σ} {d : Data} (m : ℕ)
    (hdata : s.data = some d)
    (h : M.run s.queue (.tryWrite d :: List.replicate m .writer) = some (queue, qs)) :
    (measureMachine M).run s (.tryWrite :: List.replicate m (.queue .writer)) =
      some ({ qs.foldl MeasureState.observe s with queue := queue }, qs.map .queue) := by
  obtain ⟨queue', qs', qs'', hstep, hrun, rfl⟩ := Machine.run_cons_eq_some h
  have hrest := run_writer (s := { qs'.foldl MeasureState.observe s with queue := queue' }) m hrun
  have hfirst : (measureMachine M).step s .tryWrite = some
      ({ qs'.foldl MeasureState.observe s with queue := queue' }, qs'.map .queue) := by
    simp only [measureMachine, MeasureState.tryWrite, hdata, MeasureState.stepQueue, hstep]
  simp only [Machine.run, hfirst, hrest]
  rw [foldl_observe_setQueue, List.foldl_append, List.map_append]

/-- The writer between two events, with `k` events written and none of them destroyed. -/
structure Filled (C : ℕ) (ready : σ → Prop) (k : ℕ) (s : MeasureState σ)
    (log : List (MeasureObs R)) : Prop where
  ready : ready s.queue
  data : s.data = none
  done : s.done = false
  written : (dataBroadcast C log).written.length = k
  dead : (dataBroadcast C log).dead = ∅

/-- Between two events the next slab is allocated. -/
theorem createData_eq (hdata : s.data = none) (hdone : s.done = false) :
    s.createData (R := R) = some ({ s with
        allocator := s.allocator.seekToNextSlab, data := some ⟨s.allocator.activeSlab⟩
        owned := ⟨s.allocator.activeSlab⟩ :: s.owned },
      [.allocated s.allocator.activeSlab (decide (⟨s.allocator.activeSlab⟩ ∈ s.owned))]) := by
  simp only [MeasureState.createData, hdata, hdone, allocate, if_true]

/-- As long as there are places left the writer fills the next one. -/
theorem Filled.next (hM : IsObjectQueue C M Rel produces ready) {k : ℕ} (hk : k < C)
    (h : Filled C ready k s log) (hrel : MeasureRel C size Rel s log) :
    ∃ s' os, (measureMachine M).Reaches s s' os ∧ Filled C ready (k + 1) s' (log ++ os) := by
  have hcreate : (measureMachine M).step s .createData = some _ := createData_eq h.data h.done
  have hrel₁ := hrel.step hM hcreate
  -- creating the event has changed nothing for the queue
  have hafter : dataBroadcast C (log ++ [.allocated s.allocator.activeSlab
      (decide (⟨s.allocator.activeSlab⟩ ∈ s.owned))]) = dataBroadcast C log :=
    dataBroadcast_append ..
  have hvacant : ¬ Occupied C (dataBroadcast C log) (dataBroadcast C log).written.length := by
    rintro ⟨hle, -⟩
    rw [h.written] at hle
    omega
  have hqueue := hrel₁.queue
  rw [hafter] at hqueue
  obtain ⟨m, queue, hrun, hready⟩ := hM.accepts hqueue h.ready hvacant ⟨s.allocator.activeSlab⟩
  have hwrite := Machine.Reaches.of_run (run_tryWrite m rfl hrun)
  refine ⟨_, _, (Machine.Reaches.one hcreate).trans hwrite, hready, rfl, h.done, ?_, ?_⟩
  · rw [← List.append_assoc, dataBroadcast_append, hafter, queueLog_map]
    simp [spec, State.next, h.written]
  · rw [← List.append_assoc, dataBroadcast_append, hafter, queueLog_map]
    exact h.dead

/-- The writer can fill the ring before anybody reads. -/
theorem exists_filled (hM : IsObjectQueue C M Rel produces ready) {queue : σ}
    {allocator : StreamFixedPoolAllocator} (hnext : allocator.position = 0)
    (hqueue : Rel queue GuardedBroadcast.start) (hready : ready queue) {k : ℕ} (hk : k ≤ C) :
    ∃ s log, (measureMachine M).Reaches (.start queue allocator) s log ∧ Filled C ready k s log := by
  induction k with
  | zero => exact ⟨_, [], .start, hready, rfl, rfl, rfl, rfl⟩
  | succ k ih =>
    obtain ⟨s, log, hreach, hfilled⟩ := ih (Nat.le_of_succ_le hk)
    obtain ⟨s', os, hnext', hfilled'⟩ := hfilled.next hM hk (measure_reaches hM hnext hqueue hreach)
    exact ⟨s', log ++ os, hreach.trans hnext', hfilled'⟩

/-- In a ring that is at least as large as the pool the writer comes round to a slab in use. -/
theorem exists_owned (hM : IsObjectQueue C M Rel produces ready) {queue : σ}
    {allocator : StreamFixedPoolAllocator} (hnext : allocator.position = 0)
    (hqueue : Rel queue GuardedBroadcast.start) (hready : ready queue) (hC : 0 < C)
    (hsize : allocator.capacity ≤ C) :
    ∃ s log, (measureMachine M).Reaches (.start queue allocator) s log ∧ ¬ NoOwned log := by
  obtain ⟨m, hpos, hm, hslab⟩ : ∃ m, 0 < m ∧ m ≤ C ∧ slabOf allocator.capacity m = 0 := by
    by_cases hzero : allocator.capacity = 0
    · exact ⟨1, Nat.one_pos, hC, by simp [slabOf, hzero]⟩
    · exact ⟨allocator.capacity, Nat.pos_of_ne_zero hzero, hsize, slabOf_self _⟩
  obtain ⟨s, log, hreach, hfilled⟩ := exists_filled hM hnext hqueue hready hm
  have hok := (measure_reaches hM hnext hqueue hreach).ok
  have hactive := hok.active
  rw [hfilled.written, hfilled.data, Option.toList_none, List.length_nil, Nat.add_zero,
    hslab] at hactive
  -- the first event is still in the ring, in the slab 0
  have hfirst : (0 : ℕ) ∈ alive (dataBroadcast C log) := by
    rw [mem_alive, hfilled.written, hfilled.dead]
    exact ⟨hpos, Finset.notMem_empty 0⟩
  have howned : (⟨0⟩ : Data) ∈ s.owned := by
    apply hok.owned.mem_iff.2
    apply List.mem_append_left
    exact List.mem_map.2 ⟨0, hfirst, by rw [slabOf_zero]⟩
  have hcreate := createData_eq (R := R) hfilled.data hfilled.done
  refine ⟨_, _, hreach.step .createData hcreate, fun hno => hno 0 ?_⟩
  simp [hactive, howned]

/-- The slabs of a benchmark are safe in every run exactly if there are more of them than places. -/
theorem noOwned_iff (hM : IsObjectQueue C M Rel produces ready) {queue : σ}
    {allocator : StreamFixedPoolAllocator} (hnext : allocator.position = 0)
    (hqueue : Rel queue GuardedBroadcast.start) (hready : ready queue) (hC : 0 < C) :
    (∀ s log, (measureMachine M).Reaches (.start queue allocator) s log → NoOwned log) ↔
      C < allocator.capacity := by
  constructor
  · intro hsafe
    by_contra hsize
    obtain ⟨s, log, hreach, hnot⟩ := exists_owned hM hnext hqueue hready hC (not_lt.1 hsize)
    exact hnot (hsafe s log hreach)
  · intro hsize s log hreach
    have hboth := hreach.invariant
      (I := fun s log => MeasureRel C allocator.capacity Rel s log ∧ NoOwned log)
      ⟨measureRel_start hnext hqueue, fun ptr hmem => by cases hmem⟩ fun s log i s' os hi hs => ?_
    · exact hboth.2
    · refine ⟨hi.1.step hM hs, fun ptr hmem => ?_⟩
      rcases List.mem_append.1 hmem with hmem | hmem
      · exact hi.2 ptr hmem
      · exact hi.1.step_noOwned hsize hs ptr hmem

end Runs

/-! ## `make_queue` -/

/-- The rounding leaves a request alone, or makes less of it, in two cases: the request is a
capacity itself, or it is at least the largest one. -/
theorem to2pow_le_iff (T : SeqnumCounter) (n : ℕ) :
    (∃ C, to2pow T n = some C ∧ C ≤ n) ↔ IsCapacity T n ∨ 2 ^ (T.digits - 2) ≤ n := by
  obtain ⟨C, hto, hC, hlow, hhigh⟩ := to2pow_spec T n
  have hmax : C ≤ 2 ^ (T.digits - 2) := by
    obtain ⟨e, -, he, rfl⟩ := hC
    exact Nat.pow_le_pow_right (by decide) (by omega)
  simp only [hto, Option.some.injEq, exists_eq_left']
  constructor
  · intro hle
    rcases hlow with hge | rfl
    · exact .inl (le_antisymm hge hle ▸ hC)
    · exact .inr hle
  · rintro (hn | hn)
    · rcases hhigh with rfl | hlt
      · exact hn.four_le
      · obtain ⟨e, -, -, rfl⟩ := hn
        obtain ⟨e', -, -, rfl⟩ := hC
        rw [← pow_succ'] at hlt
        have := (Nat.pow_lt_pow_iff_right (by decide)).1 hlt
        exact Nat.pow_le_pow_right (by decide) (by omega)
    · exact hmax.trans hn

/-- In the benchmarks of both families no slab is allocated while it is owned, in any run, if and
only if the capacity that the queue makes of the request is below the size of the pool. -/
theorem makeQueue_noOwned_iff (T : SeqnumCounter) (n : ℕ) :
    (∀ producer reader, One2One.make T n 1 = some ⟨producer, [reader]⟩ →
      ((∀ s log, (measureMachine (One2One.objectMachine T 1 Data)).Reaches
          (.start (.start Data ⟨producer, [reader]⟩ true) (ofCapacity n)) s log → NoOwned log) ↔
        ∃ C, to2pow T n = some C ∧ C < (n + 1) % 2 ^ 64)) ∧
    ∀ R ch, One2Each.make T n R = some ch → R + 1 < 2 ^ T.digits →
      ((∀ s log, (measureMachine (One2Each.objectMachine T _ Data)).Reaches
          (.start (.start Data ch true) (ofCapacity n)) s log → NoOwned log) ↔
        ∃ C, to2pow T n = some C ∧ C < (n + 1) % 2 ^ 64) := by
  constructor
  · intro producer reader hmake
    obtain ⟨C, hto, hC, -, hpair⟩ := One2One.make_eq_some hmake
    simp only [ProducerAndConsumers.mk.injEq, List.cons.injEq, and_true] at hpair
    obtain ⟨rfl, rfl⟩ := hpair
    rw [noOwned_iff (One2One.isObjectQueue hC) rfl (One2One.objectRel_start hC true) ⟨rfl, rfl⟩
      hC.pos, hto]
    simp [ofCapacity, new, StreamFixedPoolAllocator.capacity]
  · intro R ch hmake hR
    obtain ⟨C, hto, hC, hpos, hmax, rfl⟩ := One2Each.make_eq_some hmake
    have hlen := consumersFrom_length (T := T) C 0 R
    rw [noOwned_iff (One2Each.isObjectQueue hC (by rw [hlen]; exact hR) (by rw [hlen]; omega)) rfl
      (One2Each.objectRel_start hC hmax true) ⟨rfl, rfl⟩ hC.pos, hto]
    simp [ofCapacity, new, StreamFixedPoolAllocator.capacity]

/-- For 4 events the queue has four places and the pool five slabs. -/
theorem makeQueue_noOwned_four : ∃ producer reader,
    One2One.make .uint64 4 1 = some ⟨producer, [reader]⟩ ∧
    ∀ s log, (measureMachine (One2One.objectMachine .uint64 1 Data)).Reaches
      (.start (.start Data ⟨producer, [reader]⟩ true) (ofCapacity 4)) s log → NoOwned log := by
  have hmake : One2One.make .uint64 4 1 = some ⟨producerAfter .uint64 4 1, [.new 3 0]⟩ := by decide
  have hsafe := (makeQueue_noOwned_iff .uint64 4).1 _ _ hmake
  exact ⟨_, _, hmake, hsafe.2 ⟨4, by decide, by decide⟩⟩

/-- For 5 events the queue has eight places and the pool six slabs: the seventh event is created in
the slab of the first one, which nobody has read. -/
theorem makeQueue_owned : ∃ producer reader,
    One2One.make .uint64 5 1 = some ⟨producer, [reader]⟩ ∧
    ∃ s log, (measureMachine (One2One.objectMachine .uint64 1 Data)).Reaches
      (.start (.start Data ⟨producer, [reader]⟩ true) (ofCapacity 5)) s log ∧
      ¬ NoOwned log := by
  have hmake : One2One.make .uint64 5 1 = some ⟨producerAfter .uint64 8 1, [.new 7 0]⟩ := by decide
  have hrun := Machine.Reaches.of_run (show
    (measureMachine (One2One.objectMachine .uint64 1 Data)).run
    (.start (.start Data ⟨producerAfter .uint64 8 1, [.new 7 0]⟩ true) (ofCapacity 5))
    ((List.replicate 6 [.createData, .tryWrite, .queue .writer, .queue .writer]).flatten ++
      [.createData]) = some (_, _) from rfl)
  refine ⟨_, _, hmake, _, _, hrun, fun hno => hno 0 ?_⟩
  decide

end Ihft.Channel
