import Ihft.Lib.Broadcast
import Ihft.Channel.ObjectInvariant

/-!
# Queues used by one thread

Calls that run from beginning to end, as the tests of the queues make them.  `podCall` and
`objectCall` say what such a call returns in terms of the abstract broadcast to one reader; both
families of queues refine them.
-/

namespace Ihft.Channel

variable {α : Type*}

/-! ## Plain events -/

inductive PodCall (α : Type*)
  | tryWrite (event : α)
  | tryRead
  deriving DecidableEq, Repr

/-- What the call returns; a read yields `nullopt` or the event it copied. -/
inductive PodResult (α : Type*)
  | wrote (ok : Bool)
  | read (opt : Option (Option α))
  deriving DecidableEq, Repr

/-- A call of a queue with `C` places. -/
def podCall (C : ℕ) (a : Broadcast.State (Fin 1) α) :
    PodCall α → Broadcast.State (Fin 1) α × PodResult α
  | .tryWrite event =>
    if a.written.length < a.taken 0 + C then (a.write event, .wrote true) else (a, .wrote false)
  | .tryRead =>
    if a.taken 0 < a.written.length then (a.take 0, .read (some a.written[a.taken 0]?))
    else (a, .read none)

/-! ## Objects -/

open GuardedBroadcast

/-- `moveGuard j` and `releaseGuard j` concern the guard at the place `j`. -/
inductive ObjectCall (α : Type*)
  | tryWrite (event : α)
  | tryRead
  | moveGuard (j : ℕ)
  | releaseGuard (j : ℕ)
  deriving DecidableEq, Repr

/-- What the call returns, and the events it destroys; `absent` where there is no such guard. -/
inductive ObjectResult (α : Type*)
  | wrote (ok : Bool)
  | read (event : Option (Option (Stored α)))
  | moved
  | released (destroyed : List (Option (Stored α)))
  | absent
  deriving DecidableEq, Repr

/-- The broadcast to one reader, with the numbers of its guards; `none` stands for a guard that
was moved from. -/
structure SeqState (α : Type*) where
  broadcast : State (Fin 1) α
  guards : List (Option ℕ)

def SeqState.start : SeqState α := ⟨GuardedBroadcast.start, []⟩

/-- A call of a queue with `C` places. -/
def objectCall (C : ℕ) (q : SeqState α) : ObjectCall α → SeqState α × ObjectResult α
  | .tryWrite event =>
    if Occupied C q.broadcast q.broadcast.written.length then (q, .wrote false)
    else (⟨(spec (Fin 1) α C).after q.broadcast [.offered event, .wrote event], q.guards⟩,
      .wrote true)
  | .tryRead =>
    let k := q.broadcast.cursor 0
    let item := q.broadcast.item k
    if k < q.broadcast.written.length then
      (⟨(spec (Fin 1) α C).after q.broadcast [.read 0 item], q.guards ++ [some k]⟩,
        .read (some item))
    else
      (q, .read none)
  | .moveGuard j =>
    match q.guards[j]? with
    | none => (q, .absent)
    | some g => (⟨q.broadcast, q.guards.set j none ++ [g]⟩, .moved)
  | .releaseGuard j =>
    match q.guards[j]? with
    | none => (q, .absent)
    | some none => (⟨q.broadcast, q.guards.eraseIdx j⟩, .released [])
    | some (some k) =>
      let item := q.broadcast.item k
      (⟨(spec (Fin 1) α C).after q.broadcast [.dropped 0 k, .destroyed (some 0) item, .freed k],
        q.guards.eraseIdx j⟩, .released [item])

/-- The guards of a reader as the sequential queue sees them. -/
def guardNumbers {T : SeqnumCounter} (dummyReaderId : T.Val) (guards : List (Guard T)) :
    List (Option ℕ) :=
  guards.map fun g => if g.owner = dummyReaderId then none else some g.number

/-- Between calls nobody left, no guard is being destroyed, and `numbers` are the guards' events. -/
structure CoreIdle {T : SeqnumCounter} (dummyReaderId : T.Val) (c : ObjectCore T 1)
    (numbers : List (Option ℕ)) : Prop where
  producer : c.producer = true
  alive : (c.readers 0).alive = true
  pc : ∀ g ∈ (c.readers 0).guards, g.pc = .alive
  guards : guardNumbers dummyReaderId (c.readers 0).guards = numbers

namespace CoreIdle

variable {T : SeqnumCounter} {dummyReaderId : T.Val} {c : ObjectCore T 1}
  {numbers : List (Option ℕ)} {g : Guard T} {j : ℕ}

theorem settled (h : CoreIdle dummyReaderId c numbers) : c.Settled dummyReaderId := by
  intro r g hg _
  rw [Fin.fin_one_eq_zero r] at hg
  exact h.pc g hg

theorem getElem (h : CoreIdle dummyReaderId c numbers) (j : ℕ) :
    numbers[j]? = (c.readers 0).guards[j]?.map
      fun g => if g.owner = dummyReaderId then none else some g.number := by
  rw [← h.guards]
  exact List.getElem?_map ..

theorem takeGuard (h : CoreIdle dummyReaderId c numbers)
    (hid : (c.readers 0).reader.id ≠ dummyReaderId) :
    CoreIdle dummyReaderId (c.takeGuard 0) (numbers ++ [some (c.readers 0).taken]) where
  producer := h.producer
  alive := by simpa [ObjectCore.takeGuard, ObjectCore.setReader] using h.alive
  pc g hg := by
    simp only [ObjectCore.takeGuard, ObjectCore.setReader, Function.update_self, List.mem_append,
      List.mem_singleton] at hg
    rcases hg with hg | rfl
    · exact h.pc g hg
    · rfl
  guards := by
    simp [ObjectCore.takeGuard, ObjectCore.setReader, ← h.guards, guardNumbers, hid]

theorem moveGuard (h : CoreIdle dummyReaderId c numbers) (hj : (c.readers 0).guards[j]? = some g) :
    CoreIdle dummyReaderId
      (c.setGuards 0 (moveGuardAt dummyReaderId (c.readers 0).guards j g))
      (numbers.set j none ++ [if g.owner = dummyReaderId then none else some g.number]) where
  producer := h.producer
  alive := by simpa using h.alive
  pc g' hg' := by
    have hpc := h.pc g (List.mem_of_getElem? hj)
    simp only [ObjectCore.setGuards_guards, moveGuardAt, List.mem_append, List.mem_singleton] at hg'
    rcases hg' with hg' | rfl
    · rcases List.mem_or_eq_of_mem_set hg' with hg' | rfl
      · exact h.pc g' hg'
      · exact hpc
    · exact hpc
  guards := by simp [← h.guards, guardNumbers, moveGuardAt, List.map_set]

theorem eraseGuard (h : CoreIdle dummyReaderId c numbers) (j : ℕ) :
    CoreIdle dummyReaderId (c.setGuards 0 ((c.readers 0).guards.eraseIdx j))
      (numbers.eraseIdx j) where
  producer := h.producer
  alive := by simpa using h.alive
  pc g hg := by
    rw [ObjectCore.setGuards_guards] at hg
    exact h.pc g (List.mem_of_mem_eraseIdx hg)
  guards := by simp [← h.guards, guardNumbers, List.eraseIdx_map]

end CoreIdle

end Ihft.Channel
