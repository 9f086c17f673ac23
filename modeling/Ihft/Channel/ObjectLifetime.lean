import Ihft.Channel.ObjectStep

/-!
# Lifetime of events and of the content allocator

`LifetimeOk` says of a log that every event is destroyed once, by the right party, and that the
content allocator goes last.  It follows from the legality of the log and from what each step does
to the owners of the ring (`OwnersStep`), so it is the same for both families of object queues.
-/

namespace Ihft.Channel

open Observe GuardedBroadcast

variable {T : SeqnumCounter} {R : ℕ} {α : Type*}

/-- A step keeps the ring owned or closes it, and the deleter disposes of the content allocator if
there is one. -/
structure OwnersStep (s s' : ObjectCore T R) (os : List (Obs (Fin R) α)) : Prop where
  allocator : s'.contentAllocator = s.contentAllocator
  owned : s.Owned → s'.Owned ∨ .closed ∈ os
  disposed : .disposed ∈ os ↔ .closed ∈ os ∧ s.contentAllocator = true

theorem Leaves.contentAllocator {s c : ObjectCore T R} {i : ObjectInput R α} (h : Leaves s i c) :
    c.contentAllocator = s.contentAllocator := by
  cases h <;> rfl

theorem owned_takeGuard {s : ObjectCore T R} (r : Fin R) (h : s.Owned) : (s.takeGuard r).Owned := by
  rcases h with hp | ⟨r', hr'⟩
  · exact .inl hp
  · refine .inr ⟨r', ?_⟩
    rcases eq_or_ne r' r with rfl | hne
    · simpa [ObjectCore.takeGuard, ObjectCore.setReader] using hr'
    · simpa [ObjectCore.takeGuard, ObjectCore.setReader, hne] using hr'

theorem ObjectStep.owners {s s' : ObjectCore T R} {i : ObjectInput R α} {os : List (Obs (Fin R) α)}
    (h : ObjectStep s i s' os) : OwnersStep s s' os := by
  cases h with
  | offered | refused | writing | wrote | empty => exact ⟨rfl, .inl, by simp⟩
  | read r x halive => exact ⟨rfl, fun h => .inl (owned_takeGuard r h), by simp⟩
  | guard r i hi guards os hos =>
    have hc : .closed ∉ os := fun hmem => hos _ hmem
    have hd : .disposed ∉ os := fun hmem => hos _ hmem
    exact ⟨rfl, fun h => .inl (by simpa [ObjectCore.Owned] using h), by simp [hc, hd]⟩
  | left hi owned => exact ⟨hi.contentAllocator, fun _ => .inl owned, by simp⟩
  | teardown hi unowned xs =>
    refine ⟨hi.contentAllocator, fun _ => .inr (by simp), ?_⟩
    rw [← hi.contentAllocator]
    split <;> simp [*]

/-- What a run does to the owners. -/
structure OwnersOk (contentAllocator : Bool) (s : ObjectCore T R) (log : List (Obs (Fin R) α)) :
    Prop where
  allocator : s.contentAllocator = contentAllocator
  owned : s.Owned ∨ .closed ∈ log
  disposed : .disposed ∈ log ↔ .closed ∈ log ∧ contentAllocator = true

theorem ownersOk_start (ch : ProducerAndConsumers T) (contentAllocator : Bool) :
    OwnersOk (α := α) contentAllocator (.start ch contentAllocator) [] :=
  ⟨rfl, .inl (.inl rfl), by simp⟩

theorem OwnersOk.step {contentAllocator : Bool} {s s' : ObjectCore T R}
    {log os : List (Obs (Fin R) α)} (h : OwnersOk contentAllocator s log)
    (hs : OwnersStep s s' os) : OwnersOk contentAllocator s' (log ++ os) where
  allocator := hs.allocator.trans h.allocator
  owned := by
    rw [List.mem_append]
    rcases h.owned with howned | hclosed
    · exact (hs.owned howned).imp_right .inr
    · exact .inr (.inl hclosed)
  disposed := by
    rw [List.mem_append, List.mem_append, h.disposed, hs.disposed, h.allocator, or_and_right]

/-! ## What the claims about lifetime need of a log -/

/-- `live r k`: a guard of `r` that was not moved from and is not being destroyed refers to the
event `k`; `owned`: the producer or a reader still shares the ring. -/
structure LifetimeOk (contentAllocator : Bool) (owned : Prop) (live : Fin R → ℕ → Prop)
    (log : List (Obs (Fin R) α)) : Prop where
  once : ∀ k, destructions k log ≤ 1
  alive : ∀ r k, live r k → destructions k log = 0
  byGuard : ∀ l r x l', log = l ++ .destroyed (some r) x :: l' →
    ∃ k, x = (numbered (writes l))[k]? ∧ k < (writes l).length ∧ (∀ r', .dropped r' k ∈ l) ∧
      ∃ l₁ l₂, l = l₁ ++ .dropped r k :: l₂ ∧ ∀ r', .dropped r' k ∉ l₂
  byTeardown : ∀ l x l', log = l ++ .destroyed none x :: l' →
    ∃ k, x = (numbered (writes l))[k]? ∧ k < (writes l).length ∧ ∃ r, .dropped r k ∉ log
  atEnd : ¬ owned → (∀ k < (writes log).length, destructions k log = 1) ∧
    disposals log = if contentAllocator then 1 else 0
  disposedLast : ∀ l l', log = l ++ .disposed :: l' → l' = [] ∧ contentAllocator = true ∧
    ∀ k < (writes l).length, destructions k l = 1

/-- It all follows from the legality of the log and the account of the owners. -/
theorem lifetimeOk_of_legal {C : ℕ} {contentAllocator : Bool} {s : ObjectCore T R}
    {live : Fin R → ℕ → Prop} {log : List (Obs (Fin R) α)}
    (h : (spec (Fin R) α C).Legal GuardedBroadcast.start log)
    (howners : OwnersOk contentAllocator s log) (hlive : ∀ r k, live r k → Holds r k log) :
    LifetimeOk contentAllocator s.Owned live log where
  once := destructions_le_one h
  alive r k hk := destructions_eq_zero_of_holds h (hlive r k hk)
  byGuard := by
    rintro l r x l' rfl
    exact destroyed_by_last h
  byTeardown := by
    rintro l x l' rfl
    exact (destroyed_by_teardown h).2
  atEnd hno := by
    have hclosed := howners.owned.resolve_left hno
    refine ⟨fun k hk => destructions_eq_one h hclosed hk, ?_⟩
    cases contentAllocator with
    | false => exact disposals_eq_zero fun hd => by simpa using howners.disposed.1 hd
    | true => exact disposals_eq_one h (howners.disposed.2 ⟨hclosed, rfl⟩)
  disposedLast := by
    rintro l l' rfl
    obtain ⟨hl', hclosed, -⟩ := disposed_last h
    exact ⟨hl', (howners.disposed.1 (by simp)).2, fun k hk =>
      destructions_eq_one h.left hclosed hk⟩

end Ihft.Channel
