import Ihft.Channel.One2One.Sequential
import Ihft.Channel.One2Each.Sequential

/-!
# The two families agree when there is one reader

The one-to-one queues mark a free bucket in `m_seqn`, the one-to-each queues in `m_counter`, with a
stale `m_seqn` left behind.  Used call by call both are the same queue, because both refine the
same abstract broadcast.
-/

namespace Ihft.Channel

open Observe

variable {T : SeqnumCounter} {α : Type*} {C : ℕ}

theorem podCall_agree (hC : IsCapacity T C) (calls : List (PodCall α)) :
    (runCalls One2One.podCall (.start (producerAfter T C 1) (.new (C - 1) 0)) calls).2 =
      (runCalls One2Each.podCall (.start α ⟨producerAfter T C 1, [.new (C - 1) 0]⟩) calls).2 := by
  have h₁ := (runCalls_refines (R := One2One.PodIdle C)
    (fun _ _ i h => One2One.podCall_refines hC h i) calls _ _ One2One.podIdle_start).2
  have h₂ := (runCalls_refines (R := One2Each.PodIdle C)
    (fun _ _ i h => One2Each.podCall_refines hC h i) calls _ _ One2Each.podIdle_start).2
  exact h₁.trans h₂.symm

/-- The queues of both families stand for one sequential queue after the same calls. -/
theorem objectCall_agree (hC : IsCapacity T C) (contentAllocator : Bool)
    (calls : List (ObjectCall α)) :
    let ch : ProducerAndConsumers T := ⟨producerAfter T C 1, [.new (C - 1) 0]⟩
    let done₁ := runCalls One2One.objectCall (.start α ch contentAllocator) calls
    let done₂ := runCalls One2Each.objectCall (.start α ch contentAllocator) calls
    done₁.2 = done₂.2 ∧
      ∃ q, One2One.ObjectIdle C done₁.1 q ∧ One2Each.ObjectIdle C done₂.1 q := by
  obtain ⟨hrel₁, h₁⟩ := runCalls_refines (R := One2One.ObjectIdle C)
    (fun _ _ i h => One2One.objectCall_refines hC h i) calls _ _
    (One2One.objectIdle_start hC contentAllocator)
  obtain ⟨hrel₂, h₂⟩ := runCalls_refines (R := One2Each.ObjectIdle C)
    (fun _ _ i h => One2Each.objectCall_refines hC h i) calls _ _
    (One2Each.objectIdle_start hC contentAllocator)
  exact ⟨h₁.trans h₂.symm, _, hrel₁, hrel₂⟩

/-- Queues that stand for the same sequential queue hold the same events in the same buckets. -/
theorem destroyN_agree {s₁ : One2One.ObjectState T 1 α}
    {s₂ : One2Each.ObjectState T 1 α} {q : SeqState α} (h₁ : One2One.ObjectIdle C s₁ q)
    (h₂ : One2Each.ObjectIdle C s₂ q) :
    (One2One.destroyN s₁.size s₁.ring).2 = (One2Each.destroyN s₂.size s₂.ring).2 := by
  obtain ⟨_, hopen₁⟩ := h₁.rel
  obtain ⟨_, hopen₂⟩ := h₂.rel
  simp only [One2One.destroyN, One2Each.destroyN, hopen₁.core.size, hopen₂.core.size]
  refine List.flatMap_congr fun b hb => ?_
  obtain ⟨k, hk, hk', hkb⟩ := WrappingCounter.exists_mod_eq_of_window q.broadcast.written.length
    (List.mem_range.1 hb)
  rw [← hkb, h₁.destructor hk hk', h₂.destructor hk hk']

/-- For every counter type and every requested capacity, the queues of both families with one reader
return the same results to every sequence of calls, destroy the same events in the same calls and
are left with the same events. -/
theorem families_agree (T : SeqnumCounter) (n : ℕ) (α : Type*) : ∃ ch₁ ch₂ r₁ r₂,
    One2One.make T n 1 = some ⟨ch₁, [r₁]⟩ ∧ One2Each.make T n 1 = some ⟨ch₂, [r₂]⟩ ∧
      (∀ calls : List (PodCall α), (runCalls One2One.podCall (.start ch₁ r₁) calls).2 =
        (runCalls One2Each.podCall (.start α ⟨ch₂, [r₂]⟩) calls).2) ∧
      ∀ (contentAllocator : Bool) (calls : List (ObjectCall α)),
        let done₁ := runCalls One2One.objectCall (.start α ⟨ch₁, [r₁]⟩ contentAllocator) calls
        let done₂ := runCalls One2Each.objectCall (.start α ⟨ch₂, [r₂]⟩ contentAllocator) calls
        done₁.2 = done₂.2 ∧ (One2One.destroyN done₁.1.size done₁.1.ring).2 =
          (One2Each.destroyN done₂.1.size done₂.1.ring).2 := by
  obtain ⟨C, hto2pow, hC, hmake₁⟩ := One2One.make_one T n
  obtain ⟨C', hto2pow', -, hmake₂⟩ := One2Each.make_isSome T n le_rfl (by decide : 1 ≤ 255)
  obtain rfl : C = C' := Option.some.inj (hto2pow.symm.trans hto2pow')
  refine ⟨_, _, _, _, hmake₁, hmake₂, podCall_agree hC, fun contentAllocator calls => ?_⟩
  obtain ⟨hres, q, h₁, h₂⟩ := objectCall_agree hC contentAllocator calls
  exact ⟨hres, destroyN_agree h₁ h₂⟩

end Ihft.Channel
