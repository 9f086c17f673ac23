import Ihft.Channel.ObjectLifetime
import Ihft.Channel.Construction

/-!
# Lifetime in both families of object queues

What each step of the two machines does to the owners of the ring, and with it the lifetime of
events and of the content allocator in every run, up to the teardown and in a `make` that fails.
-/

namespace Ihft.Channel

open Observe GuardedBroadcast

variable {T : SeqnumCounter} {R : ℕ} {α : Type*}

/-- A guard of `r` that is alive refers to the event `k`. -/
def ObjectCore.Live (dummyReaderId : T.Val) (s : ObjectCore T R) (r : Fin R) (k : ℕ) : Prop :=
  ∃ g ∈ (s.readers r).guards, g.owner ≠ dummyReaderId ∧ g.pc = .alive ∧ g.number = k

theorem CoreOk.held_of_live {dummyReaderId : T.Val} {C : ℕ} {phase : Fin R → ℕ → Option GuardPc}
    {a : State (Fin R) α} {s : ObjectCore T R} {pending : Option (Stored α)}
    (h : CoreOk dummyReaderId C phase a s pending) {r : Fin R} {k : ℕ}
    (hk : s.Live dummyReaderId r k) : a.Held r k := by
  obtain ⟨g, hg, howner, hpc, rfl⟩ := hk
  exact (h.held r _).1 (((h.guards r).phase_iff _ _).2 ⟨g, hg, howner, rfl, hpc⟩)

theorem CoreSpent.not_live {dummyReaderId : T.Val} {s : ObjectCore T R}
    (h : CoreSpent dummyReaderId s) (r : Fin R) (k : ℕ) : ¬ s.Live dummyReaderId r k := by
  rintro ⟨g, hg, howner, -⟩
  exact howner (h.moved r g hg).1

/-! ## A channel that is given up -/

/-- The destructor of a channel: the vector of consumers goes before the producer. -/
def dropChannel (R : ℕ) (α : Type*) : List (ObjectInput R α) :=
  (List.finRange R).map .dropReader ++ [.dropProducer]

/-- The readers in `rs` are gone. -/
def ObjectCore.leave (s : ObjectCore T R) (rs : List (Fin R)) : ObjectCore T R :=
  { s with readers := fun r => if r ∈ rs then { s.readers r with alive := false } else s.readers r }

theorem ObjectCore.leave_nil (s : ObjectCore T R) : s.leave [] = s := by
  simp [ObjectCore.leave]

theorem ObjectCore.leave_cons (s : ObjectCore T R) {r : Fin R} {rs : List (Fin R)} (hr : r ∉ rs) :
    (s.setReader r { s.readers r with alive := false }).leave rs = s.leave (r :: rs) := by
  simp only [ObjectCore.leave, ObjectCore.setReader, ObjectCore.mk.injEq, true_and, and_true]
  funext r'
  rcases eq_or_ne r' r with rfl | hne
  · simp [hr]
  · simp [hne]

/-- As long as the producer is there, the readers leave one after the other without any effect. -/
theorem run_dropReaders {σ : Type*} {M : Machine σ (ObjectInput R α) (Obs (Fin R) α)}
    (put : ObjectCore T R → σ)
    (hstep : ∀ c r, c.producer = true → (c.readers r).alive = true →
      M.step (put c) (.dropReader r) =
        some (put (c.setReader r { c.readers r with alive := false }), [])) :
    ∀ (rs : List (Fin R)) (c : ObjectCore T R), c.producer = true → rs.Nodup →
      (∀ r ∈ rs, (c.readers r).alive = true) → ∀ is, M.run (put c) (rs.map .dropReader ++ is) =
        M.run (put (c.leave rs)) is
  | [], c, _, _, _, is => by rw [c.leave_nil]; rfl
  | r :: rs, c, hp, hnodup, halive, is => by
    obtain ⟨hr, hnodup⟩ := List.nodup_cons.1 hnodup
    have ih := run_dropReaders put hstep rs (c.setReader r { c.readers r with alive := false }) hp
      hnodup (fun r' hr' => ?_) is
    · rw [c.leave_cons hr] at ih
      simp only [List.map_cons, List.cons_append, Machine.run,
        hstep c r hp (halive r List.mem_cons_self), ih, List.nil_append]
      cases M.run (put (c.leave (r :: rs))) is <;> rfl
    · have hne : r' ≠ r := fun heq => hr (heq ▸ hr')
      simpa [ObjectCore.setReader, hne] using halive r' (List.mem_cons_of_mem r hr')

/-- With its producer and its readers gone a new channel is unowned, and it never had a guard. -/
theorem ObjectCore.unowned_of_dropped (ch : ProducerAndConsumers T) (contentAllocator : Bool) :
    ¬ ObjectCore.Owned { (ObjectCore.start ch contentAllocator).leave
      (List.finRange ch.consumers.length) with producer := false } := by
  simp [ObjectCore.Owned, ObjectCore.leave]

theorem ObjectCore.quiet_of_dropped (dummyReaderId : T.Val) (ch : ProducerAndConsumers T)
    (contentAllocator : Bool) :
    ObjectCore.Quiet dummyReaderId { (ObjectCore.start ch contentAllocator).leave
      (List.finRange ch.consumers.length) with producer := false } := by
  simp [ObjectCore.Quiet, ObjectCore.leave, ObjectCore.start]

/-- How a queue is torn down that nothing was written to; `put` is the queue with a new ring. -/
structure ClosesNew {σ : Type*} (dummyReaderId : T.Val)
    (M : Machine σ (ObjectInput R α) (Obs (Fin R) α)) (put : ObjectCore T R → σ) : Prop where
  dropReader : ∀ c r, c.producer = true → (c.readers r).alive = true →
    M.step (put c) (.dropReader r) =
      some (put (c.setReader r { c.readers r with alive := false }), [])
  dropProducer : ∀ c, c.producer = true → ¬ ObjectCore.Owned { c with producer := false } →
    ObjectCore.Quiet dummyReaderId { c with producer := false } → ∃ s',
      M.step (put c) .dropProducer =
        some (s', .closed :: if c.contentAllocator then [.disposed] else [])

theorem ClosesNew.run_dropChannel {σ : Type*} {dummyReaderId : T.Val}
    {ch : ProducerAndConsumers T} {M : Machine σ (ObjectInput _ α) (Obs (Fin _) α)}
    {put : ObjectCore T ch.consumers.length → σ} (h : ClosesNew dummyReaderId M put) :
    (M.run (put (.start ch true)) (dropChannel _ α)).map Prod.snd = some [.closed, .disposed] := by
  have hrun := run_dropReaders put h.dropReader (List.finRange ch.consumers.length)
    (.start ch true) rfl (List.nodup_finRange _) (fun _ _ => rfl) [.dropProducer]
  obtain ⟨s', hlast⟩ := h.dropProducer ((ObjectCore.start ch true).leave
    (List.finRange ch.consumers.length)) rfl (ObjectCore.unowned_of_dropped ch true)
    (ObjectCore.quiet_of_dropped _ ch true)
  simp only [Machine.run, hlast] at hrun
  rw [dropChannel, hrun]
  rfl

/-- What is seen of a `make` that fails: the content allocator is deleted with the argument, or by
the ring of the channel that is given up. -/
def failureLog {σ : ℕ → Type*} (M : ∀ R, Machine (σ R) (ObjectInput R α) (Obs (Fin R) α))
    (start : ∀ ch : ProducerAndConsumers T, σ ch.consumers.length) (dummyReaderId : T.Val)
    (n R : ℕ) : Option (Σ m, List (Obs (Fin m) α)) :=
  match channelFactoryMakeWithAllocator dummyReaderId n R with
  | some .unbuilt => some ⟨0, [.disposed]⟩
  | some (.abandoned ch) => ((M _).run (start ch) (dropChannel _ α)).map fun x => ⟨_, x.2⟩
  | _ => none

/-- A `make` that fails disposes of the content allocator once. -/
theorem failureLog_eq {σ : ℕ → Type*} {M : ∀ R, Machine (σ R) (ObjectInput R α) (Obs (Fin R) α)}
    {start : ∀ ch : ProducerAndConsumers T, σ ch.consumers.length} (family : Family)
    (hdrop : ∀ ch, ((M _).run (start ch) (dropChannel _ α)).map Prod.snd =
      some [.closed, .disposed]) {n : ℕ} (h : family.make T n R = none) :
    ∃ m log, failureLog M start (family.dummyReaderId T) n R = some ⟨m, log⟩ ∧
      disposals log = 1 ∧ ∀ k, destructions k log = 0 := by
  obtain ⟨C, hC, -⟩ := to2pow_spec T n
  have hmake := channelFactoryMake_eq (family.limit_lt T) hC R
  have hfail := channelFactoryMakeWithAllocator_eq (family.limit_lt T) hC R
  rw [family.make_eq] at h
  rw [failureLog, family.dummyReaderId_eq]
  by_cases hR : R = 0
  · rw [if_pos hR] at hfail
    rw [hfail]
    exact ⟨_, _, rfl, rfl, fun _ => rfl⟩
  · have hle : ¬ R ≤ family.limit := by
      intro hle
      rw [if_pos ⟨by omega, hle⟩] at hmake
      cases h.symm.trans hmake
    rw [if_neg hR, if_neg hle] at hfail
    rw [hfail]
    obtain ⟨x, hx, hlog⟩ := Option.map_eq_some_iff.1
      (hdrop ⟨producerAfter T C family.limit, consumersFrom T C 0 family.limit⟩)
    refine ⟨_, x.2, by simp only [hx, Option.map_some], ?_, fun k => ?_⟩
    · rw [hlog]; rfl
    · rw [hlog]; rfl

/-! ## One-to-one -/

namespace One2One

variable {s s' : ObjectState T R α} {os : List (Obs (Fin R) α)}

/-- The events of the one-to-one queue, over every run. -/
theorem lifetime {n : ℕ} {producer : QueueImpl T} {reader : StreamReader T}
    {contentAllocator : Bool} {s : ObjectState T 1 α} {log : List (Obs (Fin 1) α)}
    (hmake : make T n 1 = some ⟨producer, [reader]⟩)
    (h : (objectMachine T 1 α).Reaches (.start α ⟨producer, [reader]⟩ contentAllocator) s log) :
    LifetimeOk contentAllocator s.Owned (s.Live (dummyReaderId T)) log := by
  obtain ⟨C, -, hC, -, hpair⟩ := make_eq_some hmake
  simp only [ProducerAndConsumers.mk.injEq, List.cons.injEq, and_true] at hpair
  obtain ⟨rfl, rfl⟩ := hpair
  obtain ⟨legal, rel⟩ := (object_simulates hC).reaches (objectRel_start hC contentAllocator) h
  have howners : OwnersOk contentAllocator s.toObjectCore log :=
    h.invariant (I := fun s log => OwnersOk contentAllocator s.toObjectCore log)
      (ownersOk_start _ contentAllocator) fun _ _ _ _ _ hi hs => hi.step (step_cases hs).owners
  refine lifetimeOk_of_legal legal howners fun r k hk => ?_
  rcases rel with ⟨phase, rel⟩ | rel
  · exact ((tracks_of_legal legal).held_iff r k).1 (rel.core.held_of_live hk)
  · exact absurd hk (rel.spent.not_live r k)

theorem closesNew (writer : Writer T (Stored α)) (hidle : writer.pc = .idle) :
    ClosesNew (dummyReaderId T) (objectMachine T R α) fun c => ⟨c, fun _ => .new, writer⟩ where
  dropReader c r hp hr := by
    simp only [objectMachine, ObjectState.dropReader, hr, if_true, ObjectState.release]
    exact if_pos (.inl hp)
  dropProducer c hp hunowned hquiet := by
    have hempty : (destroyN c.size fun _ => (Bucket.new : Bucket T (Stored α))).2 = [] := by
      simp [destroyN, Bucket.destructor, Bucket.new]
    simp only [objectMachine, ObjectState.dropProducer, hp, hidle, ObjectState.release]
    rw [if_neg hunowned, if_pos hquiet, hempty]
    exact ⟨_, rfl⟩

/-- What is seen of a `make` that fails. -/
def failureLog (T : SeqnumCounter) (α : Type*) : ℕ → ℕ → Option (Σ m, List (Obs (Fin m) α)) :=
  Channel.failureLog (objectMachine T · α) (.start α · true) (dummyReaderId T)

theorem failureLog_eq {n : ℕ} (h : make T n R = none) :
    ∃ m log, failureLog T α n R = some ⟨m, log⟩ ∧ disposals log = 1 ∧
      ∀ k, destructions k log = 0 :=
  Channel.failureLog_eq .one2one
    (fun ch => (closesNew ⟨ch.producer, .idle⟩ rfl).run_dropChannel) h

end One2One

/-! ## One-to-each -/

namespace One2Each

variable {s s' : ObjectState T R α} {os : List (Obs (Fin R) α)}

/-- The events of the one-to-each queue, over every run. -/
theorem lifetime {n : ℕ} {ch : ProducerAndConsumers T} {contentAllocator : Bool}
    {s : ObjectState T ch.consumers.length α} {log : List (Obs (Fin ch.consumers.length) α)}
    (hmake : make T n R = some ch) (hR : R + 1 < 2 ^ T.digits)
    (h : (objectMachine T _ α).Reaches (.start α ch contentAllocator) s log) :
    LifetimeOk contentAllocator s.Owned (s.Live (dummyReaderId T)) log := by
  obtain ⟨C, -, hC, hpos, hmax, rfl⟩ := make_eq_some hmake
  have hlen := consumersFrom_length (T := T) C 0 R
  obtain ⟨legal, rel⟩ := (object_simulates hC (by rw [hlen]; exact hR) (by rw [hlen]; omega)).reaches
    (objectRel_start hC hmax contentAllocator) h
  have howners : OwnersOk contentAllocator s.toObjectCore log :=
    h.invariant (I := fun s log => OwnersOk contentAllocator s.toObjectCore log)
      (ownersOk_start _ contentAllocator) fun _ _ _ _ _ hi hs => hi.step (step_cases hs).owners
  refine lifetimeOk_of_legal legal howners fun r k hk => ?_
  rcases rel with ⟨phase, rel⟩ | rel
  · exact ((tracks_of_legal legal).held_iff r k).1 (rel.core.held_of_live hk)
  · exact absurd hk (rel.spent.not_live r k)

theorem closesNew (writer : Writer T (Stored α)) (hidle : writer.pc = .idle) :
    ClosesNew (dummyReaderId T) (objectMachine T R α) fun c => ⟨c, fun _ => .new, writer⟩ where
  dropReader c r hp hr := by
    simp only [objectMachine, ObjectState.dropReader, hr, if_true, ObjectState.release]
    exact if_pos (.inl hp)
  dropProducer c hp hunowned hquiet := by
    have hempty : (destroyN c.size fun _ => (Bucket.new : Bucket T (Stored α))).2 = [] := by
      simp [destroyN, Bucket.destructor, Bucket.new]
    simp only [objectMachine, ObjectState.dropProducer, hp, hidle, ObjectState.release]
    rw [if_neg hunowned, if_pos hquiet, hempty]
    exact ⟨_, rfl⟩

/-- What is seen of a `make` that fails. -/
def failureLog (T : SeqnumCounter) (α : Type*) : ℕ → ℕ → Option (Σ m, List (Obs (Fin m) α)) :=
  Channel.failureLog (objectMachine T · α) (.start α · true) (dummyReaderId T)

theorem failureLog_eq {n : ℕ} (h : make T n R = none) :
    ∃ m log, failureLog T α n R = some ⟨m, log⟩ ∧ disposals log = 1 ∧
      ∀ k, destructions k log = 0 :=
  Channel.failureLog_eq .one2each
    (fun ch => (closesNew ⟨ch.producer, .idle⟩ rfl).run_dropChannel) h

end One2Each

/-! ## Both families -/

/-- Every event constructed in a ring is destroyed once: under no live guard, by the last of its
guards or else by the teardown.  A refused event is never constructed there.  The content allocator
goes once, after the events, and also when `make` fails. -/
theorem object_lifetime (T : SeqnumCounter) (α : Type*) (n : ℕ) :
    (∀ producer reader contentAllocator s log,
      One2One.make T n 1 = some ⟨producer, [reader]⟩ →
      (One2One.objectMachine T 1 α).Reaches (.start α ⟨producer, [reader]⟩ contentAllocator) s log →
      LifetimeOk contentAllocator s.Owned (s.Live (One2One.dummyReaderId T)) log ∧
        ∀ e s' os, s.tryWrite e = some (s', os) → .refused e ∈ os → s' = s) ∧
    (∀ R ch contentAllocator s log, One2Each.make T n R = some ch → R + 1 < 2 ^ T.digits →
      (One2Each.objectMachine T _ α).Reaches (.start α ch contentAllocator) s log →
      LifetimeOk contentAllocator s.Owned (s.Live (One2Each.dummyReaderId T)) log ∧
        ∀ e s' os, s.tryWrite e = some (s', os) → .refused e ∈ os → s' = s) ∧
    (∀ R, One2One.make T n R = none → ∃ m log, One2One.failureLog T α n R = some ⟨m, log⟩ ∧
      disposals log = 1 ∧ ∀ k, destructions k log = 0) ∧
    ∀ R, One2Each.make T n R = none → ∃ m log, One2Each.failureLog T α n R = some ⟨m, log⟩ ∧
      disposals log = 1 ∧ ∀ k, destructions k log = 0 := by
  refine ⟨?_, ?_, fun R => One2One.failureLog_eq, fun R => One2Each.failureLog_eq⟩
  · intro producer reader contentAllocator s log hmake h
    exact ⟨One2One.lifetime hmake h, fun e s' os hs => One2One.refused_unchanged hs⟩
  · intro R ch contentAllocator s log hmake hR h
    exact ⟨One2Each.lifetime hmake hR h, fun e s' os hs => One2Each.refused_unchanged hs⟩

/-- One event, destroyed by the guard of the second of two readers, and one that nobody read. -/
theorem object_lifetime_uint8 : ∃ (ch : ProducerAndConsumers .uint8)
    (s : One2Each.ObjectState .uint8 ch.consumers.length ℕ) (log : List (Obs (Fin _) ℕ)),
    One2Each.make .uint8 4 2 = some ch ∧
      (One2Each.objectMachine .uint8 _ ℕ).Reaches (.start ℕ ch true) s log ∧
      writes log = [7, 8] ∧ ¬ s.Owned ∧
      LifetimeOk true s.Owned (s.Live (One2Each.dummyReaderId .uint8)) log := by
  have hmake : One2Each.make .uint8 4 2 =
      some ⟨producerAfter .uint8 4 2, consumersFrom .uint8 4 0 2⟩ := by decide
  have hrun := Machine.Reaches.of_run (show (One2Each.objectMachine .uint8 2 ℕ).run
    (.start ℕ ⟨producerAfter .uint8 4 2, consumersFrom .uint8 4 0 2⟩ true)
    [.tryWrite 7, .writer, .writer, .writer, .tryWrite 8, .writer, .writer, .writer, .tryRead 0,
      .tryRead 1, .dropProducer, .destroyGuard 0 0, .destroyGuard 1 0, .guard 1 0, .guard 1 0,
      .dropReader 1, .dropReader 0] = some (_, _) from rfl)
  refine ⟨_, _, _, hmake, hrun, rfl, by decide, ?_⟩
  exact ((object_lifetime .uint8 ℕ 4).2.1 2 _ true _ _ hmake (by decide) hrun).1

end Ihft.Channel
