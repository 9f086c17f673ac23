import Ihft.Logger.LoggerClient

/-!
# The slabs of a client

The pool never looks whether a slab is free.  What keeps the events apart is that the slabs of the
last `C` events written and that of the next one are different, as long as the pool has more slabs
than the queue has places.  `SlabsOk` relates the slabs to a broadcast of events, and every
observation of the broadcast of boxes behind it (`boxed`) keeps the relation.
-/

namespace Ihft.Logger

open Observe GuardedBroadcast Channel Memory StreamFixedPoolAllocator

variable {R : ℕ} {ε : Type*}

/-- The broadcast of boxes behind a broadcast of events: the event `k` lies in the slab that was
active after `k` seeks. -/
def boxed (size : ℕ) (a : State (Fin R) (LoggerEvent ε)) : State (Fin R) Box where
  written := (List.range a.written.length).map fun k => ⟨slabOf size k⟩
  offer := a.offer.map fun _ => ⟨slabOf size a.written.length⟩
  cursor := a.cursor
  dropped := a.dropped
  lastDrop := a.lastDrop
  dead := a.dead
  freed := a.freed
  stage := a.stage

@[simp] theorem boxed_length (size : ℕ) (a : State (Fin R) (LoggerEvent ε)) :
    (boxed size a).written.length = a.written.length := by
  simp [boxed]

theorem boxed_item (size : ℕ) {a : State (Fin R) (LoggerEvent ε)} {k : ℕ}
    (hk : k < a.written.length) : (boxed size a).item k = some ⟨k, ⟨slabOf size k⟩⟩ := by
  simp [boxed, State.item, hk]

/-- The event of the log call is in the active slab. -/
def ClientPc.InHand (pc : ClientPc) : Prop := pc = .constructed ∨ pc = .writing

instance : DecidablePred ClientPc.InHand := fun _ => inferInstanceAs (Decidable (_ ∨ _))

/-- How far the pool is behind the queue. -/
def ClientPc.behind : ClientPc → ℕ
  | .written => 1
  | _ => 0

/-- The pool and the slabs against the broadcast of events: what lives in the slabs are the events
that were written and not yet destroyed, and the event of the log call. -/
structure SlabsOk (C size : ℕ) (allocator : StreamFixedPoolAllocator)
    (slabs : ℕ → Option (LoggerEvent ε)) (pc : ClientPc) (a : State (Fin R) (LoggerEvent ε)) :
    Prop where
  coherent : Coherent C a
  capacity : allocator.capacity = size
  active : ∃ j, allocator.activeSlab = slabOf size j ∧ j + pc.behind = a.written.length
  live : ∀ k < a.written.length, k ∉ a.dead → slabs (slabOf size k) = a.written[k]?
  used : ∀ p, slabs p ≠ none → (∃ k < a.written.length, k ∉ a.dead ∧ p = slabOf size k) ∨
    (pc.InHand ∧ p = slabOf size a.written.length)
  hand : pc.InHand → ∃ x, slabs (slabOf size a.written.length) = some x
  offer : a.offer = if pc = .writing then slabs (slabOf size a.written.length) else none

/-- A slab whose event lives is not used again within the next `C` seeks. -/
theorem slabOf_ne_of_alive {C size : ℕ} {a : State (Fin R) (LoggerEvent ε)} (h : Coherent C a)
    (hsize : C < size) {j k : ℕ} (hj : j ∉ a.dead) (hjk : j < k) (hk : k ≤ a.written.length) :
    slabOf size j ≠ slabOf size k := by
  have := h.length_le fun hf => hj (h.dead_of_freed j hf)
  exact slabOf_ne hjk (by omega)

namespace SlabsOk

variable {C size k : ℕ} {allocator : StreamFixedPoolAllocator}
  {slabs : ℕ → Option (LoggerEvent ε)} {pc : ClientPc} {a : State (Fin R) (LoggerEvent ε)}
  {r : Fin R} {box : Box} {x : LoggerEvent ε}

theorem activeSlab_eq (h : SlabsOk C size allocator slabs pc a) (hhand : pc.InHand) :
    allocator.activeSlab = slabOf size a.written.length := by
  obtain ⟨j, hj, hlen⟩ := h.active
  have hbehind : pc.behind = 0 := by
    rcases hhand with rfl | rfl
    · rfl
    · rfl
  rw [hj, ← hlen, hbehind, Nat.add_zero]

theorem unbox_item (h : SlabsOk C size allocator slabs pc a) (hk : k < a.written.length)
    (hdead : k ∉ a.dead) : unbox slabs ((boxed size a).item k) = a.item k := by
  simp only [boxed_item size hk, unbox, Option.bind_some, h.live k hk hdead]
  rfl

/-- Outside the writing half of a log call the slab of the next event is empty. -/
theorem next_slab_empty (h : SlabsOk C size allocator slabs pc a) (hsize : C < size)
    (hpc : ¬ pc.InHand) : slabs (slabOf size a.written.length) = none := by
  by_contra hne
  rcases h.used _ hne with ⟨k, hk, hdead, heq⟩ | ⟨hhand, -⟩
  · exact slabOf_ne_of_alive h.coherent hsize hdead hk le_rfl heq.symm
  · exact hpc hhand

/-- Constructing the event of a log call. -/
theorem construct (h : SlabsOk C size allocator slabs .idle a) (hsize : C < size) :
    slabs allocator.activeSlab = none ∧ SlabsOk C size allocator
      (Function.update slabs allocator.activeSlab (some x)) .constructed a := by
  obtain ⟨j, hj, hlen⟩ := h.active
  obtain rfl : j = a.written.length := hlen
  rw [hj]
  refine ⟨h.next_slab_empty hsize (by simp [ClientPc.InHand]), ?_⟩
  refine { h with active := ⟨_, hj, rfl⟩, live := ?_, used := ?_, hand := ?_, offer := h.offer }
  · intro k hk hdead
    rw [Function.update_of_ne (slabOf_ne_of_alive h.coherent hsize hdead hk le_rfl)]
    exact h.live k hk hdead
  · intro p hp
    by_cases heq : p = slabOf size a.written.length
    · exact .inr ⟨.inl rfl, heq⟩
    · rw [Function.update_of_ne heq] at hp
      refine (h.used p hp).imp_right fun hhand => ?_
      exact absurd hhand.1 (by simp [ClientPc.InHand])
  · intro _
    exact ⟨x, Function.update_self ..⟩

/-- The pool moves on after a successful write. -/
theorem seek (h : SlabsOk C size allocator slabs .written a) :
    SlabsOk C size allocator.seekToNextSlab slabs .idle a := by
  obtain ⟨j, hj, hlen⟩ := h.active
  refine { h with capacity := ?_, active := ⟨j + 1, ?_, hlen⟩, used := ?_, hand := ?_,
                  offer := h.offer }
  · exact (seekToNextSlab_size allocator).trans h.capacity
  · have hcap := h.capacity
    unfold StreamFixedPoolAllocator.capacity at hcap
    rw [← hcap] at hj ⊢
    exact activeSlab_seekToNextSlab hj
  · intro p hp
    refine (h.used p hp).imp_right fun hhand => ?_
    exact absurd hhand.1 (by simp [ClientPc.InHand])
  · intro hhand
    exact absurd hhand (by simp [ClientPc.InHand])

/-- The client is destroyed between two log calls. -/
theorem gone (h : SlabsOk C size allocator slabs .idle a) :
    SlabsOk C size allocator slabs .gone a := by
  refine { h with active := h.active, used := ?_, hand := ?_, offer := h.offer }
  · intro p hp
    refine (h.used p hp).imp_right fun hhand => ?_
    exact absurd hhand.1 (by simp [ClientPc.InHand])
  · exact fun hhand => absurd hhand (by simp [ClientPc.InHand])

/-- The box of the constructed event is offered. -/
theorem offered (h : SlabsOk C size allocator slabs .constructed a)
    (ho : (spec (Fin R) Box C).allowed (boxed size a) (.offered box)) :
    ∃ x, slabs allocator.activeSlab = some x ∧
      (spec (Fin R) (LoggerEvent ε) C).allowed a (.offered x) ∧
      SlabsOk C size allocator slabs .writing
        ((spec (Fin R) (LoggerEvent ε) C).next a (.offered x)) := by
  obtain ⟨j, hj, hlen⟩ := h.active
  obtain rfl : j = a.written.length := hlen
  obtain ⟨x, hx⟩ := h.hand (.inl rfl)
  have hallowed : (spec (Fin R) (LoggerEvent ε) C).allowed a (.offered x) :=
    ⟨ho.1, h.offer⟩
  refine ⟨x, hj ▸ hx, hallowed, { h with coherent := h.coherent.next hallowed, active := h.active,
                                         used := ?_, hand := ?_, offer := ?_ }⟩
  · intro p hp
    refine (h.used p hp).imp_right fun hhand => ⟨.inr rfl, hhand.2⟩
  · exact fun _ => ⟨x, hx⟩
  · exact hx.symm

/-- A pending box points to the event of the log call. -/
theorem pending (h : SlabsOk C size allocator slabs pc a) (ho : (boxed size a).offer = some box) :
    ∃ x, a.offer = some x ∧ box = ⟨slabOf size a.written.length⟩ ∧ pc = .writing ∧
      slabs box.slab = some x := by
  obtain ⟨x, hx, rfl⟩ := Option.map_eq_some_iff.1 ho
  have hoffer := h.offer
  rw [hx] at hoffer
  split_ifs at hoffer with hpc
  exact ⟨x, hx, rfl, hpc, hoffer.symm⟩

/-- The queue took the box. -/
theorem wrote (h : SlabsOk C size allocator slabs pc a)
    (ho : (spec (Fin R) Box C).allowed (boxed size a) (.wrote box)) :
    ∃ x, slabs box.slab = some x ∧ (spec (Fin R) (LoggerEvent ε) C).allowed a (.wrote x) ∧
      SlabsOk C size allocator slabs .written
        ((spec (Fin R) (LoggerEvent ε) C).next a (.wrote x)) ∧
      boxed size ((spec (Fin R) (LoggerEvent ε) C).next a (.wrote x)) =
        (spec (Fin R) Box C).next (boxed size a) (.wrote box) := by
  obtain ⟨hrun, hoffer, hfree⟩ := ho
  obtain ⟨x, hx, rfl, rfl, hslab⟩ := h.pending hoffer
  rw [boxed_length] at hfree
  have hallowed : (spec (Fin R) (LoggerEvent ε) C).allowed a (.wrote x) := ⟨hrun, hx, hfree⟩
  obtain ⟨j, hj, hlen⟩ := h.active
  have hlength : ((spec (Fin R) (LoggerEvent ε) C).next a (.wrote x)).written.length =
      a.written.length + 1 := by
    simp [spec, State.next]
  have hdead : a.written.length ∉ a.dead := fun hd =>
    absurd (h.coherent.lt_of_dead _ hd) (lt_irrefl _)
  refine ⟨x, hslab, hallowed, { h with coherent := h.coherent.next hallowed, active := ⟨j, hj, ?_⟩,
                                       live := ?_, used := ?_, hand := ?_, offer := rfl }, ?_⟩
  · rw [hlength, ← hlen]
    rfl
  · intro k hk hk'
    rw [hlength] at hk
    change slabs (slabOf size k) = (a.written ++ [x])[k]?
    rcases Nat.lt_succ_iff_lt_or_eq.1 hk with hlt | rfl
    · rw [List.getElem?_append_left hlt]
      exact h.live k hlt hk'
    · rw [List.getElem?_append_right le_rfl, Nat.sub_self]
      exact hslab
  · intro p hp
    left
    rw [hlength]
    rcases h.used p hp with ⟨k, hk, hk', rfl⟩ | ⟨-, rfl⟩
    · exact ⟨k, by omega, hk', rfl⟩
    · exact ⟨_, Nat.lt_succ_self _, hdead, rfl⟩
  · exact fun hhand => absurd hhand (by simp [ClientPc.InHand])
  · simp [boxed, spec, State.next, List.range_succ]

/-- The queue refused the box, and the temporary box destroys the event. -/
theorem refused (h : SlabsOk C size allocator slabs pc a) (hsize : C < size)
    (ho : (spec (Fin R) Box C).allowed (boxed size a) (.refused box)) :
    ∃ x, slabs box.slab = some x ∧ (spec (Fin R) (LoggerEvent ε) C).allowed a (.refused x) ∧
      SlabsOk C size allocator (destroyAt slabs box) .idle
        ((spec (Fin R) (LoggerEvent ε) C).next a (.refused x)) := by
  obtain ⟨hrun, hoffer, i, hi, hfreed⟩ := ho
  obtain ⟨x, hx, rfl, rfl, hslab⟩ := h.pending hoffer
  rw [boxed_length] at hi
  have hallowed : (spec (Fin R) (LoggerEvent ε) C).allowed a (.refused x) :=
    ⟨hrun, hx, i, hi, hfreed⟩
  refine ⟨x, hslab, hallowed, { h with coherent := h.coherent.next hallowed, active := h.active,
                                       live := ?_, used := ?_, hand := ?_, offer := rfl }⟩
  · intro k hk hdead
    have hne := slabOf_ne_of_alive h.coherent hsize hdead (show k < a.written.length from hk) le_rfl
    unfold destroyAt
    rw [Function.update_of_ne hne]
    exact h.live k hk hdead
  · intro p hp
    left
    unfold destroyAt at hp
    by_cases heq : p = slabOf size a.written.length
    · rw [heq, Function.update_self] at hp
      exact absurd rfl hp
    · rw [Function.update_of_ne heq] at hp
      exact (h.used p hp).resolve_right fun hhand => heq hhand.2
  · exact fun hhand => absurd hhand (by simp [ClientPc.InHand])

/-- An event of the queue is destroyed through its box. -/
theorem destroyed (h : SlabsOk C size allocator slabs pc a) (hsize : C < size)
    (hk : k < a.written.length) (hdead : k ∉ a.dead) {who : Option (Fin R)}
    (ho : (spec (Fin R) (LoggerEvent ε) C).allowed a (.destroyed who (a.item k))) :
    SlabsOk C size allocator (destroyAt slabs ⟨slabOf size k⟩) pc
      ((spec (Fin R) (LoggerEvent ε) C).next a (.destroyed who (a.item k))) := by
  have hne : ∀ j ≤ a.written.length, j ∉ a.dead → j ≠ k → slabOf size j ≠ slabOf size k := by
    intro j hj hj' hjk
    rcases Nat.lt_or_gt_of_ne hjk with hlt | hgt
    · exact slabOf_ne_of_alive h.coherent hsize hj' hlt hk.le
    · exact (slabOf_ne_of_alive h.coherent hsize hdead hgt hj).symm
  have hwritten : slabOf size a.written.length ≠ slabOf size k :=
    hne _ le_rfl (fun hd => absurd (h.coherent.lt_of_dead _ hd) (lt_irrefl _)) hk.ne'
  unfold destroyAt
  refine { h with coherent := h.coherent.next ho, active := h.active, live := ?_, used := ?_,
                  hand := ?_, offer := ?_ }
  · intro j hj hj'
    obtain ⟨hjk, hj'⟩ := not_or.1 (mt (mem_dead_next hk who).2 hj')
    rw [Function.update_of_ne (hne j hj.le hj' hjk)]
    exact h.live j hj hj'
  · intro p hp
    by_cases heq : p = slabOf size k
    · rw [heq, Function.update_self] at hp
      exact absurd rfl hp
    · rw [Function.update_of_ne heq] at hp
      refine (h.used p hp).imp_left ?_
      rintro ⟨j, hj, hj', rfl⟩
      refine ⟨j, hj, mt (mem_dead_next hk who).1 (not_or.2 ⟨?_, hj'⟩), rfl⟩
      rintro rfl
      exact heq rfl
  · intro hhand
    change ∃ x, Function.update slabs (slabOf size k) none (slabOf size a.written.length) = some x
    rw [Function.update_of_ne hwritten]
    exact h.hand hhand
  · change a.offer = if pc = .writing then
      Function.update slabs (slabOf size k) none (slabOf size a.written.length) else none
    rw [Function.update_of_ne hwritten]
    exact h.offer

/-- Nothing that the slabs depend on has changed. -/
theorem of_eq (h : SlabsOk C size allocator slabs pc a) {a' : State (Fin R) (LoggerEvent ε)}
    (hco : Coherent C a') (hw : a'.written = a.written) (hd : a'.dead = a.dead)
    (ho : a'.offer = a.offer) : SlabsOk C size allocator slabs pc a' where
  coherent := hco
  capacity := h.capacity
  active := by rw [hw]; exact h.active
  live := by rw [hw, hd]; exact h.live
  used := by rw [hw, hd]; exact h.used
  hand := by rw [hw]; exact h.hand
  offer := by rw [ho, hw]; exact h.offer

end SlabsOk

end Ihft.Logger
