import Ihft.Channel.One2One.Object
import Ihft.Channel.One2Each.Object

/-!
# One step of an object queue

`ObjectStep` says what a step can do to the guards, the readers and the owners, and what is seen of
it.  The machines of both families are inverted once, in `step_cases`; what else is said about
single steps is read off the result.  `IsObjectQueue` collects what the users of a queue need.
-/

namespace Ihft.Channel

open Observe GuardedBroadcast

variable {T : SeqnumCounter} {R : ℕ} {α : Type*}

/-- The input goes to a guard of the reader `r`. -/
def ObjectInput.OfGuard (r : Fin R) : ObjectInput R α → Prop
  | .moveGuard r' _ | .destroyGuard r' _ | .guard r' _ => r' = r
  | _ => False

/-- The observation comes from the destructor of a guard of `r`. -/
def FromGuard (r : Fin R) : Obs (Fin R) α → Prop
  | .dropped r' _ | .destroyed (some r') _ => r' = r
  | .freed _ => True
  | _ => False

/-- The observation comes from `try_write`. -/
def OfWriter : Obs (Fin R) α → Prop
  | .offered _ | .wrote _ | .refused _ => True
  | _ => False

/-- An owner of the ring goes. -/
inductive Leaves (s : ObjectCore T R) : ObjectInput R α → ObjectCore T R → Prop
  | producer (h : s.producer = true) : Leaves s .dropProducer { s with producer := false }
  | reader (r : Fin R) (h : (s.readers r).alive = true) :
    Leaves s (.dropReader r) (s.setReader r { s.readers r with alive := false })

/-- What a step can do. -/
inductive ObjectStep (s : ObjectCore T R) :
    ObjectInput R α → ObjectCore T R → List (Obs (Fin R) α) → Prop
  | offered (e : α) (h : s.producer = true) : ObjectStep s (.tryWrite e) s [.offered e]
  | refused (e : α) (h : s.producer = true) : ObjectStep s (.tryWrite e) s [.offered e, .refused e]
  | writing : ObjectStep s .writer s []
  | wrote (e : α) : ObjectStep s .writer { s with written := s.written + 1 } [.wrote e]
  | read (r : Fin R) (x : Option (Stored α)) (h : (s.readers r).alive = true) :
    ObjectStep s (.tryRead r) (s.takeGuard r) [.read r x]
  | empty (r : Fin R) (h : (s.readers r).alive = true) : ObjectStep s (.tryRead r) s [.empty r]
  | guard (r : Fin R) (i : ObjectInput R α) (hi : i.OfGuard r) (guards : List (Guard T))
    (os : List (Obs (Fin R) α)) (hos : ∀ o ∈ os, FromGuard r o) :
    ObjectStep s i (s.setGuards r guards) os
  | left {i : ObjectInput R α} {c : ObjectCore T R} (hi : Leaves s i c) (owned : c.Owned) :
    ObjectStep s i c []
  | teardown {i : ObjectInput R α} {c : ObjectCore T R} (hi : Leaves s i c) (unowned : ¬ c.Owned)
    (xs : List (Option (Stored α))) :
    ObjectStep s i c
      (xs.map (.destroyed none) ++ .closed :: if c.contentAllocator then [.disposed] else [])

theorem Leaves.not_tryWrite {s c : ObjectCore T R} {e : α} (h : Leaves s (.tryWrite e) c) :
    False := by
  cases h

namespace ObjectStep

variable {s s' : ObjectCore T R} {i : ObjectInput R α} {e : α} {os : List (Obs (Fin R) α)}

theorem tryWrite (h : ObjectStep s (.tryWrite e) s' os) :
    os = [.offered e] ∨ os = [.offered e, .refused e] := by
  cases h with
  | offered => exact .inl rfl
  | refused => exact .inr rfl
  | guard r i hi => exact absurd hi id
  | left hi => exact absurd hi.not_tryWrite id
  | teardown hi => exact absurd hi.not_tryWrite id

/-- Only `try_write` offers an event. -/
theorem offers (h : ObjectStep s i s' os) (he : .offered e ∈ os) : i = .tryWrite e := by
  cases h with
  | offered | refused =>
    simp only [List.mem_cons, Obs.offered.injEq, reduceCtorEq, List.not_mem_nil, or_false] at he
    rw [he]
  | writing | wrote | read | empty | left => simp at he
  | guard r i hi guards os hos => exact absurd (hos _ he) id
  | teardown hi unowned xs =>
    split at he
    · simp at he
    · simp at he

/-- Outside the first half of `try_write`, all that is seen of the writer is its last store. -/
theorem wrote_or_quiet (h : ObjectStep s i s' os) (hi : ∀ e, i ≠ .tryWrite e) :
    (∃ e, os = [.wrote e]) ∨ ∀ o ∈ os, ¬ OfWriter o := by
  cases h with
  | offered e | refused e => exact absurd rfl (hi e)
  | wrote e => exact .inl ⟨e, rfl⟩
  | writing | read | empty | left => exact .inr (by simp [OfWriter])
  | guard r i hi guards os hos =>
    refine .inr fun o ho => ?_
    have hfrom := hos o ho
    cases o with
    | offered | wrote | refused => exact absurd hfrom id
    | _ => exact id
  | teardown hi unowned xs =>
    refine .inr fun o ho => ?_
    cases o with
    | offered | wrote | refused =>
      split at ho
      · simp at ho
      · simp at ho
    | _ => exact id

theorem tryRead {r : Fin R} (h : ObjectStep s (.tryRead r) s' os) :
    (∃ x, os = [.read r x]) ∨ os = [.empty r] := by
  cases h with
  | read r x => exact .inl ⟨x, rfl⟩
  | empty => exact .inr rfl
  | guard r i hi => exact absurd hi id
  | left hi => cases hi
  | teardown hi => cases hi

/-- Only `try_read` reads. -/
theorem not_read (h : ObjectStep s i s' os) (hi : ∀ r, i ≠ .tryRead r) (r : Fin R)
    (x : Option (Stored α)) : .read r x ∉ os := by
  intro hx
  cases h with
  | read r' => exact hi r' rfl
  | offered | refused | writing | wrote | empty | left => simp at hx
  | guard r' i hi guards os hos => exact absurd (hos _ hx) id
  | teardown hi unowned xs =>
    split at hx
    · simp at hx
    · simp at hx

/-- The producer goes with its destructor only. -/
theorem producer_eq (h : ObjectStep s i s' os) (hi : i ≠ .dropProducer) :
    s'.producer = s.producer := by
  cases h with
  | offered | refused | writing | wrote | read | empty | guard => rfl
  | left hleaves | teardown hleaves =>
    cases hleaves with
    | producer => exact absurd rfl hi
    | reader => rfl

/-- The ring goes when its producer has gone. -/
theorem not_producer_of_closed (h : ObjectStep s i s' os) (hc : .closed ∈ os) :
    ¬ s'.producer = true := by
  cases h with
  | offered | refused | writing | wrote | read | empty | left => simp at hc
  | guard r i hi guards os hos => exact absurd (hos _ hc) id
  | teardown hi unowned xs => exact fun hp => unowned (.inl hp)

end ObjectStep

/-- What the users of an object queue with `C` places rely on.  `produces` says that the producer is
there, and `ready` that it may call `try_write`. -/
structure IsObjectQueue {σ : Type*} (C : ℕ) (M : Machine σ (ObjectInput R α) (Obs (Fin R) α))
    (Rel : σ → State (Fin R) α → Prop) (produces ready : σ → Prop) : Prop where
  simulates : Simulates M (spec (Fin R) α C) Rel
  tryWrite : ∀ {s e s' os}, M.step s (.tryWrite e) = some (s', os) →
    os = [.offered e] ∨ os = [.offered e, .refused e]
  offers : ∀ {s i s' os e}, M.step s i = some (s', os) → .offered e ∈ os → i = .tryWrite e
  accepts : ∀ {s a}, Rel s a → ready s → ¬ Occupied C a a.written.length → ∀ e, ∃ m s',
    M.run s (.tryWrite e :: List.replicate m .writer) = some (s', [.offered e, .wrote e]) ∧ ready s'
  keeps : ∀ {s i s' os}, M.step s i = some (s', os) → i ≠ .dropProducer → produces s → produces s'
  closes : ∀ {s i s' os}, M.step s i = some (s', os) → .closed ∈ os → ¬ produces s'

/-! ## One-to-one -/

namespace One2One

variable {s s' : ObjectState T R α} {os : List (Obs (Fin R) α)}

theorem release_cases (hs : s.release = some (s', os)) :
    (s.Owned ∧ s' = s ∧ os = []) ∨
      (¬ s.Owned ∧ s'.toObjectCore = s.toObjectCore ∧ ∃ xs : List (Option (Stored α)),
        os = xs.map (.destroyed none) ++
          .closed :: if s.contentAllocator then [.disposed] else []) := by
  unfold ObjectState.release at hs
  by_cases howned : s.Owned
  · rw [if_pos howned] at hs
    simp only [Option.some.injEq, Prod.mk.injEq] at hs
    exact .inl ⟨howned, hs.1.symm, hs.2.symm⟩
  · rw [if_neg howned] at hs
    by_cases hq : s.Quiet (dummyReaderId T)
    · rw [if_pos hq] at hs
      simp only [Option.some.injEq, Prod.mk.injEq] at hs
      obtain ⟨rfl, rfl⟩ := hs
      exact .inr ⟨howned, rfl, _, rfl⟩
    · rw [if_neg hq] at hs
      cases hs

theorem release_step {c : ObjectCore T R} {i : ObjectInput R α} (hi : Leaves c i s.toObjectCore)
    (hs : s.release = some (s', os)) : ObjectStep c i s'.toObjectCore os := by
  rcases release_cases hs with ⟨howned, rfl, rfl⟩ | ⟨howned, heq, xs, rfl⟩
  · exact .left hi howned
  · rw [heq]
    exact .teardown hi howned xs

/-- The load of `try_write` decides. -/
theorem tryWrite_cases {e : α} (hs : s.tryWrite e = some (s', os)) :
    s.producer = true ∧ s'.toObjectCore = s.toObjectCore ∧
      (((s.ring s.writer.impl.nextBucket).seqn = dummyEventSeqNum T ∧ os = [.offered e]) ∨
        ((s.ring s.writer.impl.nextBucket).seqn ≠ dummyEventSeqNum T ∧
          os = [.offered e, .refused e] ∧ s' = s)) := by
  unfold ObjectState.tryWrite at hs
  split_ifs at hs with hp
  unfold Writer.tryWrite at hs
  cases hpc : s.writer.pc with
  | construct x | publish x => simp [hpc] at hs
  | idle =>
    simp only [hpc] at hs
    split_ifs at hs with hseqn
    · simp only [Option.some.injEq, Prod.mk.injEq] at hs
      obtain ⟨rfl, rfl⟩ := hs
      exact ⟨hp, rfl, .inl ⟨hseqn, rfl⟩⟩
    · simp only [Option.some.injEq, Prod.mk.injEq] at hs
      obtain ⟨rfl, rfl⟩ := hs
      exact ⟨hp, rfl, .inr ⟨hseqn, rfl, rfl⟩⟩

/-- A refused event leaves no trace. -/
theorem refused_unchanged {e : α} (hs : s.tryWrite e = some (s', os)) (hmem : .refused e ∈ os) :
    s' = s := by
  obtain ⟨-, -, ⟨-, rfl⟩ | ⟨-, -, heq⟩⟩ := tryWrite_cases hs
  · simp at hmem
  · exact heq

/-- Everything a step of the one-to-one queue can do. -/
theorem step_cases {i : ObjectInput R α} (hs : (objectMachine T R α).step s i = some (s', os)) :
    ObjectStep s.toObjectCore i s'.toObjectCore os := by
  simp only [objectMachine] at hs
  cases i with
  | tryWrite e =>
    obtain ⟨hp, heq, ⟨-, rfl⟩ | ⟨-, rfl, -⟩⟩ := tryWrite_cases hs
    · rw [heq]; exact .offered e hp
    · rw [heq]; exact .refused e hp
  | writer =>
    simp only [ObjectState.resumeWriter, Writer.resume] at hs
    cases hpc : s.writer.pc with
    | idle => simp [hpc] at hs
    | construct x =>
      simp only [hpc, Option.some.injEq, Prod.mk.injEq] at hs
      obtain ⟨rfl, rfl⟩ := hs
      exact .writing
    | publish x =>
      simp only [hpc, Option.some.injEq, Prod.mk.injEq] at hs
      obtain ⟨rfl, rfl⟩ := hs
      exact .wrote x.value
  | tryRead r =>
    simp only [ObjectState.tryRead] at hs
    split_ifs at hs with halive
    · simp only [Option.some.injEq, Prod.mk.injEq] at hs
      obtain ⟨rfl, rfl⟩ := hs
      exact .read r _ halive
    · simp only [Option.some.injEq, Prod.mk.injEq] at hs
      obtain ⟨rfl, rfl⟩ := hs
      exact .empty r halive
  | moveGuard r j =>
    simp only [ObjectState.moveGuard] at hs
    obtain ⟨core, hcore, heq⟩ := Option.map_eq_some_iff.1 hs
    obtain ⟨g, -, -, rfl⟩ := ObjectCore.moveGuard_eq_some hcore
    simp only [Prod.mk.injEq] at heq
    obtain ⟨rfl, rfl⟩ := heq
    exact .guard r (.moveGuard r j) rfl _ _ (by simp)
  | destroyGuard r j =>
    simp only [ObjectState.destroyGuard] at hs
    split at hs
    · split_ifs at hs
      · simp only [Option.some.injEq, Prod.mk.injEq] at hs
        obtain ⟨rfl, rfl⟩ := hs
        exact .guard r (.destroyGuard r j) rfl _ _ (by simp [FromGuard])
      · simp only [Option.some.injEq, Prod.mk.injEq] at hs
        obtain ⟨rfl, rfl⟩ := hs
        exact .guard r (.destroyGuard r j) rfl _ _ (by simp)
    · cases hs
  | guard r j =>
    simp only [ObjectState.resumeGuard] at hs
    split at hs
    · simp only [Option.some.injEq, Prod.mk.injEq] at hs
      obtain ⟨rfl, rfl⟩ := hs
      exact .guard r (.guard r j) rfl _ _ (by simp [FromGuard])
    · cases hs
  | dropProducer =>
    simp only [ObjectState.dropProducer] at hs
    split at hs
    · rename_i hp _
      exact release_step (.producer hp) hs
    · cases hs
  | dropReader r =>
    simp only [ObjectState.dropReader] at hs
    split_ifs at hs with halive
    exact release_step (.reader r halive) hs

/-- The producer may call `try_write`. -/
def ObjectState.Ready (s : ObjectState T R α) : Prop := s.producer = true ∧ s.writer.pc = .idle

/-- A `try_write` that finds its bucket free runs to its end. -/
theorem OpenRel.accepts {C : ℕ} (hC : IsCapacity T C) {s : ObjectState T 1 α}
    {phase : Fin 1 → ℕ → Option GuardPc} {a : State (Fin 1) α} (h : OpenRel C phase s a)
    (hs : s.Ready) (hno : ¬ Occupied C a a.written.length) (e : α) : ∃ s',
    (objectMachine T 1 α).run s (.tryWrite e :: List.replicate 2 .writer) =
      some (s', [.offered e, .wrote e]) ∧ s'.Ready := by
  obtain ⟨hp, hpc⟩ := hs
  have hload : (s.ring s.writer.impl.nextBucket).seqn = dummyEventSeqNum T := by
    rw [h.ring.index.nextBucket]
    exact h.ring.vacant _ le_rfl (by have := hC.pos; omega) hno
  refine ⟨{ s with
      ring := setSeqn (setStorage s.ring s.writer.impl.nextBucket (some ⟨s.written, e⟩))
        s.writer.impl.nextBucket s.writer.impl.seqn
      writer := ⟨s.writer.impl.advance, .idle⟩
      written := s.written + 1 }, ?_, hp, rfl⟩
  simp only [List.replicate, Machine.run, objectMachine, ObjectState.tryWrite, Writer.tryWrite,
    hpc, if_pos hp, hload, if_true]
  rfl

theorem isObjectQueue {C : ℕ} (hC : IsCapacity T C) :
    IsObjectQueue C (objectMachine T 1 α) (ObjectRel C) (·.producer = true) ObjectState.Ready where
  simulates := object_simulates hC
  tryWrite hs := (step_cases hs).tryWrite
  offers hs := (step_cases hs).offers
  keeps hs hi hp := ((step_cases hs).producer_eq hi).trans hp
  closes hs := (step_cases hs).not_producer_of_closed
  accepts h hs hno e := by
    rcases h with ⟨phase, h⟩ | h
    · exact ⟨_, h.accepts hC hs hno e⟩
    · have hp := hs.1
      rw [h.spent.producer] at hp
      cases hp

end One2One

/-! ## One-to-each -/

namespace One2Each

variable {s s' : ObjectState T R α} {os : List (Obs (Fin R) α)}

theorem release_cases (hs : s.release = some (s', os)) :
    (s.Owned ∧ s' = s ∧ os = []) ∨
      (¬ s.Owned ∧ s'.toObjectCore = s.toObjectCore ∧ ∃ xs : List (Option (Stored α)),
        os = xs.map (.destroyed none) ++
          .closed :: if s.contentAllocator then [.disposed] else []) := by
  unfold ObjectState.release at hs
  by_cases howned : s.Owned
  · rw [if_pos howned] at hs
    simp only [Option.some.injEq, Prod.mk.injEq] at hs
    exact .inl ⟨howned, hs.1.symm, hs.2.symm⟩
  · rw [if_neg howned] at hs
    by_cases hq : s.Quiet (dummyReaderId T)
    · rw [if_pos hq] at hs
      simp only [Option.some.injEq, Prod.mk.injEq] at hs
      obtain ⟨rfl, rfl⟩ := hs
      exact .inr ⟨howned, rfl, _, rfl⟩
    · rw [if_neg hq] at hs
      cases hs

theorem release_step {c : ObjectCore T R} {i : ObjectInput R α} (hi : Leaves c i s.toObjectCore)
    (hs : s.release = some (s', os)) : ObjectStep c i s'.toObjectCore os := by
  rcases release_cases hs with ⟨howned, rfl, rfl⟩ | ⟨howned, heq, xs, rfl⟩
  · exact .left hi howned
  · rw [heq]
    exact .teardown hi howned xs

theorem tryWrite_cases {e : α} (hs : s.tryWrite e = some (s', os)) :
    s.producer = true ∧ s'.toObjectCore = s.toObjectCore ∧
      (os = [.offered e] ∨ (os = [.offered e, .refused e] ∧ s' = s)) := by
  unfold ObjectState.tryWrite at hs
  split_ifs at hs with hp
  unfold Writer.tryWrite at hs
  cases hpc : s.writer.pc with
  | construct x c | storeCounter x c | publish x c => simp [hpc] at hs
  | idle =>
    simp only [hpc] at hs
    split_ifs at hs
    · simp only [Option.some.injEq, Prod.mk.injEq] at hs
      obtain ⟨rfl, rfl⟩ := hs
      exact ⟨hp, rfl, .inl rfl⟩
    · simp only [Option.some.injEq, Prod.mk.injEq] at hs
      obtain ⟨rfl, rfl⟩ := hs
      exact ⟨hp, rfl, .inr ⟨rfl, rfl⟩⟩

/-- A refused event leaves no trace. -/
theorem refused_unchanged {e : α} (hs : s.tryWrite e = some (s', os)) (hmem : .refused e ∈ os) :
    s' = s := by
  obtain ⟨-, -, rfl | ⟨-, heq⟩⟩ := tryWrite_cases hs
  · simp at hmem
  · exact heq

/-- Everything a step of the one-to-each queue can do. -/
theorem step_cases {i : ObjectInput R α} (hs : (objectMachine T R α).step s i = some (s', os)) :
    ObjectStep s.toObjectCore i s'.toObjectCore os := by
  simp only [objectMachine] at hs
  cases i with
  | tryWrite e =>
    obtain ⟨hp, heq, rfl | ⟨rfl, -⟩⟩ := tryWrite_cases hs
    · rw [heq]; exact .offered e hp
    · rw [heq]; exact .refused e hp
  | writer =>
    simp only [ObjectState.resumeWriter, Writer.resume] at hs
    cases hpc : s.writer.pc with
    | idle => simp [hpc] at hs
    | construct x c | storeCounter x c =>
      simp only [hpc, Option.some.injEq, Prod.mk.injEq] at hs
      obtain ⟨rfl, rfl⟩ := hs
      exact .writing
    | publish x c =>
      simp only [hpc, Option.some.injEq, Prod.mk.injEq] at hs
      obtain ⟨rfl, rfl⟩ := hs
      exact .wrote x.value
  | tryRead r =>
    simp only [ObjectState.tryRead] at hs
    split_ifs at hs with halive
    · simp only [Option.some.injEq, Prod.mk.injEq] at hs
      obtain ⟨rfl, rfl⟩ := hs
      exact .read r _ halive
    · simp only [Option.some.injEq, Prod.mk.injEq] at hs
      obtain ⟨rfl, rfl⟩ := hs
      exact .empty r halive
  | moveGuard r j =>
    simp only [ObjectState.moveGuard] at hs
    obtain ⟨core, hcore, heq⟩ := Option.map_eq_some_iff.1 hs
    obtain ⟨g, -, -, rfl⟩ := ObjectCore.moveGuard_eq_some hcore
    simp only [Prod.mk.injEq] at heq
    obtain ⟨rfl, rfl⟩ := heq
    exact .guard r (.moveGuard r j) rfl _ _ (by simp)
  | destroyGuard r j =>
    simp only [ObjectState.destroyGuard] at hs
    split at hs
    · rename_i bucket owner k hj
      by_cases howner : owner = dummyReaderId T
      · rw [if_neg (not_not.2 howner)] at hs
        simp only [Option.some.injEq, Prod.mk.injEq] at hs
        obtain ⟨rfl, rfl⟩ := hs
        exact .guard r (.destroyGuard r j) rfl _ _ (by simp)
      · rw [if_pos howner] at hs
        simp only [Option.some.injEq, Prod.mk.injEq] at hs
        obtain ⟨rfl, rfl⟩ := hs
        exact .guard r (.destroyGuard r j) rfl _ _ (by simp [FromGuard])
    · cases hs
  | guard r j =>
    simp only [ObjectState.resumeGuard] at hs
    split at hs
    · simp only [Option.some.injEq, Prod.mk.injEq] at hs
      obtain ⟨rfl, rfl⟩ := hs
      exact .guard r (.guard r j) rfl _ _ (by simp [FromGuard])
    · simp only [Option.some.injEq, Prod.mk.injEq] at hs
      obtain ⟨rfl, rfl⟩ := hs
      exact .guard r (.guard r j) rfl _ _ (by simp [FromGuard])
    · cases hs
  | dropProducer =>
    simp only [ObjectState.dropProducer] at hs
    split at hs
    · rename_i hp _
      exact release_step (.producer hp) hs
    · cases hs
  | dropReader r =>
    simp only [ObjectState.dropReader] at hs
    split_ifs at hs with halive
    exact release_step (.reader r halive) hs

/-- The producer may call `try_write`. -/
def ObjectState.Ready (s : ObjectState T R α) : Prop := s.producer = true ∧ s.writer.pc = .idle

/-- A `try_write` that finds its bucket free runs to its end. -/
theorem OpenRel.accepts {C : ℕ} (hC : IsCapacity T C) {s : ObjectState T R α}
    {phase : Fin R → ℕ → Option GuardPc} {a : State (Fin R) α} (h : OpenRel C phase s a)
    (hs : s.Ready) (hno : ¬ Occupied C a a.written.length) (e : α) : ∃ s',
    (objectMachine T R α).run s (.tryWrite e :: List.replicate 3 .writer) =
      some (s', [.offered e, .wrote e]) ∧ s'.Ready := by
  obtain ⟨hp, hpc⟩ := hs
  have hload : (s.ring s.writer.impl.nextBucket).counter = emptyDataMark T := by
    rw [h.ring.index.nextBucket, h.ring.counter _ le_rfl (by have := hC.pos; omega) (by simp [hpc])]
    exact if_neg hno
  refine ⟨{ s with
      ring := setSeqn (setCounter (setStorage s.ring s.writer.impl.nextBucket (some ⟨s.written, e⟩))
        s.writer.impl.nextBucket
        (BitVec.ofNat T.digits s.writer.impl.readersCount + constructedDataMark T))
        s.writer.impl.nextBucket s.writer.impl.seqn
      writer := ⟨s.writer.impl.advance, .idle⟩
      written := s.written + 1 }, ?_, hp, rfl⟩
  simp only [List.replicate, Machine.run, objectMachine, ObjectState.tryWrite, Writer.tryWrite,
    hpc, if_pos hp, hload, if_true]
  rfl

theorem isObjectQueue {C : ℕ} (hC : IsCapacity T C) (hR : R + 1 < 2 ^ T.digits) (hpos : 0 < R) :
    IsObjectQueue C (objectMachine T R α) (ObjectRel C) (·.producer = true) ObjectState.Ready where
  simulates := object_simulates hC hR hpos
  tryWrite hs := (step_cases hs).tryWrite
  offers hs := (step_cases hs).offers
  keeps hs hi hp := ((step_cases hs).producer_eq hi).trans hp
  closes hs := (step_cases hs).not_producer_of_closed
  accepts h hs hno e := by
    rcases h with ⟨phase, h⟩ | h
    · exact ⟨_, h.accepts hC hs hno e⟩
    · have hp := hs.1
      rw [h.spent.producer] at hp
      cases hp

end One2Each

end Ihft.Channel
