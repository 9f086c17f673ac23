import Ihft.Lib.Counting
import Ihft.Lib.GuardedBroadcast
import Ihft.Channel.Factory

/-!
# Guards and owners of the object queues

A successful `try_read` of an object queue yields a guard, which refers to the bucket until it is
destroyed; a guard that was moved from keeps the dummy owner and does nothing.  The ring itself is
shared by the producer and the readers, and torn down with the last of them.  Both families of
object queues declare the same guards and readers, so this part of their states is described here.
-/

namespace Ihft.Channel

open GuardedBroadcast Counting

variable {T : SeqnumCounter} {R : ℕ} {α : Type*}

/-! ## Guards -/

/-- How far the destructor of a guard has got. -/
inductive GuardPc
  | alive
  | destroy
  | store
  deriving DecidableEq, Repr

/-- `one2*_seqnum_stream_object_guard`.  `number` is the index of the event that was read; no step
depends on it. -/
structure Guard (T : SeqnumCounter) where
  bucket : ℕ
  owner : T.Val
  number : ℕ
  pc : GuardPc
  deriving DecidableEq, Repr

/-- The move constructor leaves the dummy owner behind; here `j` is the place moved from. -/
def moveGuardAt (dummyReaderId : T.Val) (guards : List (Guard T)) (j : ℕ) (g : Guard T) :
    List (Guard T) :=
  guards.set j { g with owner := dummyReaderId } ++ [g]

/-- The guards of a reader that were not moved from: `phase k` is the progress of the one that
refers to the event `k`. -/
structure GuardsOk (dummyReaderId : T.Val) (C : ℕ) (phase : ℕ → Option GuardPc)
    (guards : List (Guard T)) : Prop where
  nodup : ((guards.filter fun g => g.owner ≠ dummyReaderId).map Guard.number).Nodup
  phase_iff : ∀ k p, phase k = some p ↔
    ∃ g ∈ guards, g.owner ≠ dummyReaderId ∧ g.number = k ∧ g.pc = p
  bucket : ∀ g ∈ guards, g.owner ≠ dummyReaderId → g.bucket = g.number % C
  moved : ∀ g ∈ guards, g.owner = dummyReaderId → g.pc = .alive

section Guards

variable {dummyReaderId : T.Val} {C : ℕ} {phase : ℕ → Option GuardPc} {guards rest : List (Guard T)}
  {g : Guard T} {j : ℕ}

theorem guardsOk_nil : GuardsOk dummyReaderId C (fun _ => none) [] := by
  constructor <;> simp

theorem GuardsOk.perm (h : GuardsOk dummyReaderId C phase guards) (hp : guards.Perm rest) :
    GuardsOk dummyReaderId C phase rest where
  nodup := ((hp.filter _).map _).nodup_iff.1 h.nodup
  phase_iff k p := by simp only [h.phase_iff, hp.mem_iff]
  bucket g hg := h.bucket g (hp.mem_iff.2 hg)
  moved g hg := h.moved g (hp.mem_iff.2 hg)

theorem guardsOk_cons_moved (hg : g.owner = dummyReaderId) :
    GuardsOk dummyReaderId C phase (g :: rest) ↔
      g.pc = .alive ∧ GuardsOk dummyReaderId C phase rest := by
  constructor
  · intro h
    refine ⟨h.moved g List.mem_cons_self hg, ?_, fun k p => ?_, ?_, ?_⟩
    · simpa [hg] using h.nodup
    · simpa [hg] using h.phase_iff k p
    · exact fun g' hg' => h.bucket g' (List.mem_cons_of_mem _ hg')
    · exact fun g' hg' => h.moved g' (List.mem_cons_of_mem _ hg')
  · rintro ⟨hpc, h⟩
    refine ⟨by simpa [hg] using h.nodup, fun k p => by simpa [hg] using h.phase_iff k p, ?_, ?_⟩
    · intro g' hg' hne
      rcases List.mem_cons.1 hg' with rfl | hg'
      · exact absurd hg hne
      · exact h.bucket g' hg' hne
    · intro g' hg' heq
      rcases List.mem_cons.1 hg' with rfl | hg'
      · exact hpc
      · exact h.moved g' hg' heq

theorem guardsOk_cons_live (hg : g.owner ≠ dummyReaderId) :
    GuardsOk dummyReaderId C phase (g :: rest) ↔
      phase g.number = some g.pc ∧ g.bucket = g.number % C ∧
        GuardsOk dummyReaderId C (Function.update phase g.number none) rest := by
  constructor
  · intro h
    have hnodup := h.nodup
    simp only [ne_eq, hg, not_false_eq_true, List.filter_cons_of_pos, List.map_cons,
      List.nodup_cons, List.mem_map, List.mem_filter, decide_not, Bool.not_eq_true',
      decide_eq_false_iff_not, not_exists, not_and, and_imp] at hnodup
    refine ⟨(h.phase_iff _ _).2 ⟨g, List.mem_cons_self, hg, rfl, rfl⟩,
      h.bucket g List.mem_cons_self hg, ?_, fun k p => ?_, ?_, ?_⟩
    · simpa using hnodup.2
    · by_cases hk : k = g.number
      · subst hk
        simp only [Function.update_self, reduceCtorEq, false_iff, not_exists, not_and]
        exact fun g' hg' hne heq => absurd heq (hnodup.1 g' hg' hne)
      · rw [Function.update_of_ne hk, h.phase_iff]
        simp [hg, Ne.symm hk]
    · exact fun g' hg' => h.bucket g' (List.mem_cons_of_mem _ hg')
    · exact fun g' hg' => h.moved g' (List.mem_cons_of_mem _ hg')
  · rintro ⟨hphase, hbucket, h⟩
    have hfresh : ∀ g' ∈ rest, g'.owner ≠ dummyReaderId → g'.number ≠ g.number := by
      intro g' hg' hne heq
      have := (h.phase_iff g.number g'.pc).2 ⟨g', hg', hne, heq, rfl⟩
      simp at this
    refine ⟨?_, fun k p => ?_, ?_, ?_⟩
    · simpa [hg] using ⟨fun g' hg' hne => hfresh g' hg' hne, by simpa using h.nodup⟩
    · by_cases hk : k = g.number
      · subst hk
        rw [hphase]
        constructor
        · rintro heq
          exact ⟨g, List.mem_cons_self, hg, rfl, Option.some.inj heq⟩
        · rintro ⟨g', hg', hne, heq, rfl⟩
          rcases List.mem_cons.1 hg' with rfl | hg'
          · rfl
          · exact absurd heq (hfresh g' hg' hne)
      · have := h.phase_iff k p
        rw [Function.update_of_ne hk] at this
        simp [this, hg, Ne.symm hk]
    · intro g' hg' hne
      rcases List.mem_cons.1 hg' with rfl | hg'
      · exact hbucket
      · exact h.bucket g' hg' hne
    · intro g' hg' heq
      rcases List.mem_cons.1 hg' with rfl | hg'
      · exact absurd heq hg
      · exact h.moved g' hg' heq

/-- Taking the guard at `j` out of the list. -/
theorem perm_eraseIdx (hj : guards[j]? = some g) : guards.Perm (g :: guards.eraseIdx j) := by
  obtain ⟨hlt, rfl⟩ := List.getElem?_eq_some_iff.1 hj
  exact (List.getElem_cons_eraseIdx_perm hlt).symm

theorem set_perm (hj : guards[j]? = some g) (g' : Guard T) :
    (guards.set j g').Perm (g' :: guards.eraseIdx j) := by
  obtain ⟨hlt, -⟩ := List.getElem?_eq_some_iff.1 hj
  exact List.set_perm_cons_eraseIdx hlt g'

namespace GuardsOk

theorem live (h : GuardsOk dummyReaderId C phase guards) (hj : guards[j]? = some g)
    (hg : g.owner ≠ dummyReaderId) : phase g.number = some g.pc ∧ g.bucket = g.number % C := by
  obtain ⟨h1, h2, -⟩ := (guardsOk_cons_live hg).1 (h.perm (perm_eraseIdx hj))
  exact ⟨h1, h2⟩

/-- A new guard for the event `k`. -/
theorem push (h : GuardsOk dummyReaderId C phase guards) {k : ℕ} (hk : phase k = none)
    (hg : g.owner ≠ dummyReaderId) (hnum : g.number = k) (hbucket : g.bucket = k % C) :
    GuardsOk dummyReaderId C (Function.update phase k (some g.pc)) (guards ++ [g]) := by
  subst hnum
  refine GuardsOk.perm ?_ (List.perm_append_singleton g guards).symm
  rw [guardsOk_cons_live hg, Function.update_self, Function.update_idem, ← hk,
    Function.update_eq_self]
  exact ⟨rfl, hbucket, h⟩

/-- Moving a guard changes nothing but its place. -/
theorem move (h : GuardsOk dummyReaderId C phase guards) (hj : guards[j]? = some g)
    (hpc : g.pc = .alive) :
    GuardsOk dummyReaderId C phase (moveGuardAt dummyReaderId guards j g) := by
  have h' := h.perm (perm_eraseIdx hj)
  have hmoved : ({ g with owner := dummyReaderId } : Guard T).owner = dummyReaderId := rfl
  unfold moveGuardAt
  refine GuardsOk.perm ?_ (List.perm_append_singleton _ _).symm
  refine GuardsOk.perm ?_ ((set_perm hj _).symm.cons g)
  by_cases hg : g.owner = dummyReaderId
  · rw [guardsOk_cons_moved hg, guardsOk_cons_moved hmoved]
    exact ⟨hpc, hpc, ((guardsOk_cons_moved hg).1 h').2⟩
  · rw [guardsOk_cons_live hg, guardsOk_cons_moved hmoved]
    obtain ⟨h1, h2, h3⟩ := (guardsOk_cons_live hg).1 h'
    exact ⟨h1, h2, hpc, h3⟩

/-- The destructor of a guard gets on. -/
theorem setPc (h : GuardsOk dummyReaderId C phase guards) (hj : guards[j]? = some g)
    (hg : g.owner ≠ dummyReaderId) (p : GuardPc) :
    GuardsOk dummyReaderId C (Function.update phase g.number (some p))
      (guards.set j { g with pc := p }) := by
  refine GuardsOk.perm ?_ (set_perm hj _).symm
  obtain ⟨-, h2, h3⟩ := (guardsOk_cons_live hg).1 (h.perm (perm_eraseIdx hj))
  rw [guardsOk_cons_live (by exact hg), Function.update_self, Function.update_idem]
  exact ⟨rfl, h2, h3⟩

/-- The destructor of a guard is done. -/
theorem erase (h : GuardsOk dummyReaderId C phase guards) (hj : guards[j]? = some g)
    (hg : g.owner ≠ dummyReaderId) :
    GuardsOk dummyReaderId C (Function.update phase g.number none) (guards.eraseIdx j) :=
  ((guardsOk_cons_live hg).1 (h.perm (perm_eraseIdx hj))).2.2

theorem erase_moved (h : GuardsOk dummyReaderId C phase guards) (hj : guards[j]? = some g)
    (hg : g.owner = dummyReaderId) : GuardsOk dummyReaderId C phase (guards.eraseIdx j) :=
  ((guardsOk_cons_moved hg).1 (h.perm (perm_eraseIdx hj))).2

end GuardsOk

end Guards

/-! ## Readers and owners -/

/-- `one2*_seqnum_stream_object_reader` and the guards it handed out; `taken` counts them. -/
structure ObjectReader (T : SeqnumCounter) where
  reader : StreamReader T
  alive : Bool
  taken : ℕ
  guards : List (Guard T)
  deriving DecidableEq, Repr

/-- What the two families of object queues have in common beside the ring: who owns it, how many
places it has, whether a content allocator was handed over to it, and how many events were
published in it. -/
structure ObjectCore (T : SeqnumCounter) (R : ℕ) where
  producer : Bool
  readers : Fin R → ObjectReader T
  size : ℕ
  contentAllocator : Bool
  written : ℕ

/-- The moves of the threads of an object queue.  `guard r j` goes on with the destructor of the
guard at the place `j` of the reader `r`. -/
inductive ObjectInput (R : ℕ) (α : Type*)
  | tryWrite (event : α)
  | writer
  | tryRead (r : Fin R)
  | moveGuard (r : Fin R) (j : ℕ)
  | destroyGuard (r : Fin R) (j : ℕ)
  | guard (r : Fin R) (j : ℕ)
  | dropProducer
  | dropReader (r : Fin R)
  deriving DecidableEq, Repr

/-- What `try_write` of an object queue shows. -/
def WriterEvent.objectObs {ρ : Type*} : WriterEvent (Stored α) → Obs ρ α
  | .offered event => .offered event.value
  | .wrote event => .wrote event.value
  | .refused event => .refused event.value

/-- What can be seen of an object queue, and what an event looked like through the guard of a reader
for the event with a number. -/
inductive GuardObs (R : ℕ) (α : Type*)
  | queue (o : Obs (Fin R) α)
  | event (r : Fin R) (number : ℕ) (x : Option (Stored α))
  deriving DecidableEq, Repr

/-- What is seen of the queue itself. -/
def queueObs (log : List (GuardObs R α)) : List (Obs (Fin R) α) :=
  log.filterMap fun
    | .queue o => some o
    | .event _ _ _ => none

@[simp] theorem queueObs_append (l l' : List (GuardObs R α)) :
    queueObs (l ++ l') = queueObs l ++ queueObs l' := List.filterMap_append

@[simp] theorem queueObs_map (l : List (Obs (Fin R) α)) : queueObs (l.map .queue) = l := by
  simp [queueObs, List.filterMap_map]

/-- What is seen of the queue when something changes. -/
def changes (log : List (GuardObs R α)) : List (Obs (Fin R) α) := completed (queueObs log)

@[simp] theorem changes_append (l l' : List (GuardObs R α)) :
    changes (l ++ l') = changes l ++ changes l' := by
  simp [changes]

/-- What `try_write` shows of the queue. -/
def WriterEvent.guardObs (e : WriterEvent (Stored α)) : List (GuardObs R α) := [.queue e.objectObs]

@[simp] theorem flatMap_guardObs (l : List (WriterEvent (Stored α))) :
    l.flatMap (WriterEvent.guardObs (R := R)) = (l.map WriterEvent.objectObs).map .queue := by
  induction l with
  | nil => rfl
  | cons e l ih => rw [List.flatMap_cons, ih]; rfl

namespace ObjectCore

/-- The channel handed out by `make`. -/
def start (ch : ProducerAndConsumers T) (contentAllocator : Bool) :
    ObjectCore T ch.consumers.length where
  producer := true
  readers r := ⟨ch.consumers.get r, true, 0, []⟩
  size := ch.producer.capacity
  contentAllocator := contentAllocator
  written := 0

def setReader (s : ObjectCore T R) (r : Fin R) (x : ObjectReader T) : ObjectCore T R :=
  { s with readers := Function.update s.readers r x }

def setGuards (s : ObjectCore T R) (r : Fin R) (guards : List (Guard T)) : ObjectCore T R :=
  s.setReader r { s.readers r with guards := guards }

/-- `return guard_type(bucket, m_id)`, after the private counters moved on. -/
def takeGuard (s : ObjectCore T R) (r : Fin R) : ObjectCore T R :=
  let x := s.readers r
  s.setReader r { x with
    reader := x.reader.advance
    taken := x.taken + 1
    guards := x.guards ++ [⟨x.reader.nextBucket, x.reader.id, x.taken, .alive⟩] }

/-- The move constructor, called for the guard at `j`. -/
def moveGuard (dummyReaderId : T.Val) (s : ObjectCore T R) (r : Fin R) (j : ℕ) :
    Option (ObjectCore T R) :=
  let guards := (s.readers r).guards
  match guards[j]? with
  | none => none
  | some g =>
    match g.pc with
    | .alive => some (s.setGuards r (moveGuardAt dummyReaderId guards j g))
    | _ => none

/-- Somebody still shares the ring. -/
def Owned (s : ObjectCore T R) : Prop := s.producer = true ∨ ∃ r, (s.readers r).alive = true

instance (s : ObjectCore T R) : Decidable s.Owned := inferInstanceAs (Decidable (_ ∨ _))

/-- All guards were destroyed or moved from. -/
def Quiet (dummyReaderId : T.Val) (s : ObjectCore T R) : Prop :=
  ∀ r, ∀ g ∈ (s.readers r).guards, g.owner = dummyReaderId

instance (dummyReaderId : T.Val) (s : ObjectCore T R) : Decidable (s.Quiet dummyReaderId) :=
  inferInstanceAs (Decidable (∀ _, _))

/-- No destructor of a guard is at work. -/
def Settled (dummyReaderId : T.Val) (s : ObjectCore T R) : Prop :=
  ∀ r, ∀ g ∈ (s.readers r).guards, g.owner ≠ dummyReaderId → g.pc = .alive

theorem Quiet.settled {dummyReaderId : T.Val} {s : ObjectCore T R} (h : s.Quiet dummyReaderId) :
    s.Settled dummyReaderId :=
  fun r g hg hne => absurd (h r g hg) hne

section Update

variable (s : ObjectCore T R) (r r' : Fin R) (guards : List (Guard T))

@[simp] theorem setGuards_producer : (s.setGuards r guards).producer = s.producer := rfl

@[simp] theorem setGuards_written : (s.setGuards r guards).written = s.written := rfl

@[simp] theorem setGuards_size : (s.setGuards r guards).size = s.size := rfl

/-- Replacing the guards leaves every other field of every reader alone. -/
theorem setGuards_field {γ : Type*} (p : ObjectReader T → γ)
    (hp : ∀ x l, p { x with guards := l } = p x) :
    p ((s.setGuards r guards).readers r') = p (s.readers r') := by
  unfold setGuards setReader
  rcases eq_or_ne r' r with rfl | hne
  · simp only [Function.update_self, hp]
  · simp only [Function.update_of_ne hne]

@[simp] theorem setGuards_reader :
    ((s.setGuards r guards).readers r').reader = (s.readers r').reader :=
  s.setGuards_field r r' guards ObjectReader.reader fun _ _ => rfl

@[simp] theorem setGuards_alive :
    ((s.setGuards r guards).readers r').alive = (s.readers r').alive :=
  s.setGuards_field r r' guards ObjectReader.alive fun _ _ => rfl

@[simp] theorem setGuards_taken :
    ((s.setGuards r guards).readers r').taken = (s.readers r').taken :=
  s.setGuards_field r r' guards ObjectReader.taken fun _ _ => rfl

@[simp] theorem setGuards_guards : ((s.setGuards r guards).readers r).guards = guards := by
  simp [setGuards, setReader]

theorem setGuards_guards_of_ne {r r' : Fin R} (h : r' ≠ r) :
    ((s.setGuards r guards).readers r').guards = (s.readers r').guards := by
  simp [setGuards, setReader, h]

theorem setGuards_setGuards (l l' : List (Guard T)) :
    (s.setGuards r l).setGuards r l' = s.setGuards r l' := by
  simp [setGuards, setReader]

end Update

theorem moveGuard_eq_some {dummyReaderId : T.Val} {s s' : ObjectCore T R} {r : Fin R} {j : ℕ}
    (h : s.moveGuard dummyReaderId r j = some s') :
    ∃ g, (s.readers r).guards[j]? = some g ∧ g.pc = .alive ∧
      s' = s.setGuards r (moveGuardAt dummyReaderId (s.readers r).guards j g) := by
  simp only [moveGuard] at h
  split at h
  · cases h
  · rename_i g hj
    split at h
    · rename_i hpc
      exact ⟨g, hj, hpc, (Option.some.inj h).symm⟩
    · cases h

end ObjectCore

end Ihft.Channel
