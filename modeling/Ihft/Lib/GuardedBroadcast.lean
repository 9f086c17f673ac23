import Ihft.Lib.Machine

/-!
# Broadcast of objects with a lifetime

One writer hands objects to the readers in `ρ`.  A reader that takes the next object holds it until
it drops it, and objects are dropped in any order.  The last one to drop an object destroys it and
then gives its place back; a write is refused exactly when the place of the object written `C`
writes earlier was not yet given back.  What is left at the end is destroyed by the teardown.
-/

namespace GuardedBroadcast

open Observe

/-- An object, with the number of the write that brought it in. -/
structure Stored (α : Type*) where
  number : ℕ
  value : α
  deriving DecidableEq, Repr

/-- What can be seen of the readers and the writer. -/
inductive Obs (ρ α : Type*)
  | offered (e : α)
  | wrote (e : α)
  | refused (e : α)
  | read (r : ρ) (x : Option (Stored α))
  | empty (r : ρ)
  | dropped (r : ρ) (k : ℕ)
  | destroyed (who : Option ρ) (x : Option (Stored α))
  | freed (k : ℕ)
  | closed
  | disposed
  deriving DecidableEq, Repr

inductive Stage
  | running
  | teardown
  | closed
  | disposed
  deriving DecidableEq, Repr

/-- `cursor r` objects were taken by `r`, of which it dropped those in `dropped r`; the objects in
`dead` were destroyed, and the places of those in `freed` given back. -/
structure State (ρ α : Type*) where
  written : List α
  offer : Option α
  cursor : ρ → ℕ
  dropped : ρ → Finset ℕ
  lastDrop : ℕ → Option ρ
  dead : Finset ℕ
  freed : Finset ℕ
  stage : Stage

variable {ρ α : Type*}

def start : State ρ α := ⟨[], none, fun _ => 0, fun _ => ∅, fun _ => none, ∅, ∅, .running⟩

/-- The objects of a list of writes. -/
def numbered (l : List α) : List (Stored α) := l.mapIdx Stored.mk

@[simp] theorem numbered_length (l : List α) : (numbered l).length = l.length := by
  simp [numbered]

theorem numbered_append_singleton (l : List α) (e : α) :
    numbered (l ++ [e]) = numbered l ++ [⟨l.length, e⟩] := by
  simp [numbered, List.mapIdx_append]

namespace State

variable (a : State ρ α) (r : ρ) (k : ℕ)

/-- The object number `k`. -/
def item : Option (Stored α) := a.written[k]?.map (Stored.mk k)

/-- The reader `r` took the object `k` and has not dropped it. -/
def Held : Prop := k < a.cursor r ∧ k ∉ a.dropped r

/-- Every reader took the object `k` and dropped it. -/
def Released : Prop := ∀ r, k ∈ a.dropped r

theorem item_eq_numbered : a.item k = (numbered a.written)[k]? := by
  simp [item, numbered]

variable {a k}

theorem item_eq_some_iff {x : Stored α} :
    a.item k = some x ↔ x.number = k ∧ a.written[k]? = some x.value := by
  obtain ⟨n, e⟩ := x
  simp only [item, Option.map_eq_some_iff, Stored.mk.injEq]
  constructor
  · rintro ⟨e', h, rfl, rfl⟩
    exact ⟨rfl, h⟩
  · rintro ⟨rfl, h⟩
    exact ⟨e, h, rfl, rfl⟩

theorem exists_item (h : k < a.written.length) : ∃ e, a.item k = some ⟨k, e⟩ :=
  ⟨a.written[k], by simp [item, h]⟩

theorem item_append (h : k < a.written.length) (b : State ρ α) {es : List α}
    (hb : b.written = a.written ++ es) : b.item k = a.item k := by
  simp only [item, hb, List.getElem?_append_left h]

end State

/-- Which observation may come next, with `C` places. -/
def State.Allowed (C : ℕ) (a : State ρ α) : Obs ρ α → Prop
  | .offered _ => a.stage = .running ∧ a.offer = none
  | .wrote e => a.stage = .running ∧ a.offer = some e ∧
      ∀ i, i + C = a.written.length → i ∈ a.freed
  | .refused e => a.stage = .running ∧ a.offer = some e ∧
      ∃ i, i + C = a.written.length ∧ i ∉ a.freed
  | .read r x => a.stage = .running ∧ a.cursor r < a.written.length ∧ x = a.item (a.cursor r)
  | .empty r => a.stage = .running ∧ a.cursor r = a.written.length
  | .dropped r k => a.stage = .running ∧ a.Held r k
  | .destroyed (some r) x => a.stage = .running ∧ ∃ k < a.written.length, x = a.item k ∧
      k ∉ a.dead ∧ a.Released k ∧ a.lastDrop k = some r
  | .destroyed none x => (a.stage = .running ∨ a.stage = .teardown) ∧ a.offer = none ∧
      (∀ r k, ¬ a.Held r k) ∧ ∃ k < a.written.length, x = a.item k ∧ k ∉ a.dead ∧
        ¬ a.Released k
  | .freed k => a.stage = .running ∧ k ∈ a.dead ∧ k ∉ a.freed ∧ a.Released k
  | .closed => (a.stage = .running ∨ a.stage = .teardown) ∧ a.offer = none ∧
      (∀ r k, ¬ a.Held r k) ∧ ∀ k < a.written.length, k ∈ a.dead
  | .disposed => a.stage = .closed

variable [DecidableEq ρ]

/-- The state after an observation. -/
def State.next (a : State ρ α) : Obs ρ α → State ρ α
  | .offered e => { a with offer := some e }
  | .wrote e => { a with written := a.written ++ [e], offer := none }
  | .refused _ => { a with offer := none }
  | .read r _ => { a with cursor := Function.update a.cursor r (a.cursor r + 1) }
  | .empty _ => a
  | .dropped r k => { a with
      dropped := Function.update a.dropped r (insert k (a.dropped r))
      lastDrop := Function.update a.lastDrop k (some r) }
  | .destroyed who x => { a with
      dead := x.elim a.dead fun y => insert y.number a.dead
      stage := who.elim .teardown fun _ => a.stage }
  | .freed k => { a with freed := insert k a.freed }
  | .closed => { a with stage := .closed }
  | .disposed => { a with stage := .disposed }

/-- The broadcast with `C` places. -/
def spec (ρ α : Type*) [DecidableEq ρ] (C : ℕ) : Spec (State ρ α) (Obs ρ α) where
  allowed := State.Allowed C
  next := State.next

section Dropped

variable (C : ℕ) (a : State ρ α) (r r' : ρ) (k k' : ℕ)

theorem mem_dropped_next : k' ∈ ((spec ρ α C).next a (.dropped r k)).dropped r' ↔
    (r' = r ∧ k' = k) ∨ k' ∈ a.dropped r' := by
  rcases eq_or_ne r' r with rfl | hne
  · simp [spec, State.next]
  · simp [spec, State.next, hne]

theorem held_dropped_next : ((spec ρ α C).next a (.dropped r k)).Held r' k' ↔
    a.Held r' k' ∧ ¬ (r' = r ∧ k' = k) := by
  rw [State.Held, mem_dropped_next, not_or, State.Held]
  tauto

variable {k k'}

theorem released_dropped_next_of_ne (h : k' ≠ k) :
    ((spec ρ α C).next a (.dropped r k)).Released k' ↔ a.Released k' := by
  simp only [State.Released, mem_dropped_next, h, and_false, false_or]

theorem lastDrop_dropped_next_of_ne (h : k' ≠ k) :
    ((spec ρ α C).next a (.dropped r k)).lastDrop k' = a.lastDrop k' := by
  simp [spec, State.next, h]

end Dropped

/-- The object that is destroyed joins the dead. -/
theorem mem_dead_next {a : State ρ α} {k : ℕ} (hk : k < a.written.length) (who : Option ρ)
    {k' : ℕ} : k' ∈ (a.next (.destroyed who (a.item k))).dead ↔ k' = k ∨ k' ∈ a.dead := by
  obtain ⟨e, he⟩ := State.exists_item hk
  simp [State.next, he]

/-! ## Projections of a log -/

/-- The values of the successful writes. -/
def writes (log : List (Obs ρ α)) : List α :=
  log.filterMap fun
    | .wrote e => some e
    | _ => none

/-- What the successful reads of `r` yielded. -/
def reads (r : ρ) (log : List (Obs ρ α)) : List (Option (Stored α)) :=
  log.filterMap fun
    | .read r' x => if r' = r then some x else none
    | _ => none

/-- The observations that change something. -/
def completed (log : List (Obs ρ α)) : List (Obs ρ α) :=
  log.filter fun
    | .offered _ | .refused _ | .empty _ => false
    | _ => true

omit [DecidableEq ρ] in
@[simp] theorem completed_append (l l' : List (Obs ρ α)) :
    completed (l ++ l') = completed l ++ completed l' := List.filter_append ..

omit [DecidableEq ρ] in
theorem writes_completed (log : List (Obs ρ α)) : writes (completed log) = writes log := by
  rw [writes, completed, List.filterMap_filter]
  refine List.filterMap_congr fun o _ => ?_
  cases o <;> rfl

theorem reads_completed (r : ρ) (log : List (Obs ρ α)) :
    reads r (completed log) = reads r log := by
  rw [reads, completed, List.filterMap_filter]
  refine List.filterMap_congr fun o _ => ?_
  cases o <;> rfl

/-- The observation is a destruction of the object `k`. -/
def Obs.destroys (k : ℕ) : Obs ρ α → Bool
  | .destroyed _ (some x) => x.number = k
  | _ => false

/-- How often the object `k` was destroyed. -/
def destructions (k : ℕ) (log : List (Obs ρ α)) : ℕ := log.countP (Obs.destroys k)

/-- How often something was disposed of. -/
def disposals (log : List (Obs ρ α)) : ℕ :=
  log.countP fun
    | .disposed => true
    | _ => false

/-- The specification state, read off the log. -/
structure Tracks (a : State ρ α) (log : List (Obs ρ α)) : Prop where
  written : a.written = writes log
  cursor : ∀ r, a.cursor r = (reads r log).length
  dropped : ∀ r k, k ∈ a.dropped r ↔ .dropped r k ∈ log
  dead : ∀ k, k ∈ a.dead ↔ 0 < destructions k log
  freed : ∀ k, k ∈ a.freed ↔ .freed k ∈ log
  closed : a.stage = .closed ∨ a.stage = .disposed ↔ .closed ∈ log

/-- One more observation, field by field. -/
theorem Tracks.snoc {a a' : State ρ α} {log : List (Obs ρ α)} {o : Obs ρ α} (h : Tracks a log)
    (written : a'.written = a.written ++ writes [o])
    (cursor : ∀ r, a'.cursor r = a.cursor r + (reads r [o]).length)
    (dropped : ∀ r k, k ∈ a'.dropped r ↔ k ∈ a.dropped r ∨ .dropped r k = o)
    (dead : ∀ k, k ∈ a'.dead ↔ k ∈ a.dead ∨ o.destroys k = true)
    (freed : ∀ k, k ∈ a'.freed ↔ k ∈ a.freed ∨ .freed k = o)
    (closed : (a'.stage = .closed ∨ a'.stage = .disposed) ↔
      (a.stage = .closed ∨ a.stage = .disposed) ∨ .closed = o) : Tracks a' (log ++ [o]) where
  written := by rw [written, h.written, writes, writes, writes, List.filterMap_append]
  cursor r := by
    rw [cursor, h.cursor, reads, reads, reads, List.filterMap_append, List.length_append]
  dropped r k := by rw [dropped, h.dropped, List.mem_append, List.mem_singleton]
  dead k := by
    rw [dead, h.dead, destructions, destructions, List.countP_append, List.countP_singleton]
    split_ifs with hk <;> simp [hk]
  freed k := by rw [freed, h.freed, List.mem_append, List.mem_singleton]
  closed := by rw [closed, h.closed, List.mem_append, List.mem_singleton]

theorem Tracks.next {C : ℕ} {a : State ρ α} {log : List (Obs ρ α)} (h : Tracks a log)
    {o : Obs ρ α} (ho : (spec ρ α C).allowed a o) :
    Tracks ((spec ρ α C).next a o) (log ++ [o]) := by
  have hnil : a.written = a.written ++ [] := (List.append_nil _).symm
  cases o with
  | wrote e =>
    exact h.snoc rfl (fun _ => rfl) (by simp [spec, State.next])
      (by simp [spec, State.next, Obs.destroys])
      (by simp [spec, State.next]) (by simp [spec, State.next])
  | read r x =>
    refine h.snoc hnil (fun r' => ?_) (by simp [spec, State.next])
      (by simp [spec, State.next, Obs.destroys])
      (by simp [spec, State.next]) (by simp [spec, State.next])
    rcases eq_or_ne r' r with rfl | hne
    · simp [spec, State.next, reads]
    · simp [spec, State.next, reads, hne, hne.symm]
  | dropped r k =>
    refine h.snoc hnil (fun _ => rfl) (fun r' k' => ?_) (by simp [spec, State.next, Obs.destroys])
      (by simp [spec, State.next]) (by simp [spec, State.next])
    rw [mem_dropped_next, or_comm, Obs.dropped.injEq]
  | destroyed who x =>
    refine h.snoc hnil (fun _ => rfl) (by simp [spec, State.next]) (fun k => ?_)
      (by simp [spec, State.next]) ?_
    · cases x with
      | none => simp [spec, State.next, Obs.destroys]
      | some x => simp [spec, State.next, Obs.destroys, or_comm, eq_comm]
    · cases who with
      | none => rcases ho.1 with hs | hs <;> simp [spec, State.next, hs]
      | some r => simp [spec, State.next]
  | freed k =>
    refine h.snoc hnil (fun _ => rfl) (by simp [spec, State.next])
      (by simp [spec, State.next, Obs.destroys])
      (fun k' => ?_) (by simp [spec, State.next])
    simp only [spec, State.next, Finset.mem_insert, Obs.freed.injEq, or_comm]
  | closed =>
    exact h.snoc hnil (fun _ => rfl) (by simp [spec, State.next])
      (by simp [spec, State.next, Obs.destroys])
      (by simp [spec, State.next]) (by simp [spec, State.next])
  | disposed =>
    have hs : a.stage = .closed := ho
    exact h.snoc hnil (fun _ => rfl) (by simp [spec, State.next])
      (by simp [spec, State.next, Obs.destroys])
      (by simp [spec, State.next]) (by simp [spec, State.next, hs])
  | offered e | refused e | empty r =>
    exact h.snoc hnil (fun _ => rfl) (by simp [spec, State.next])
      (by simp [spec, State.next, Obs.destroys])
      (by simp [spec, State.next]) (by simp [spec, State.next])

theorem tracks_of_legal {C : ℕ} {log : List (Obs ρ α)} (h : (spec ρ α C).Legal start log) :
    Tracks ((spec ρ α C).after start log) log :=
  h.log_invariant (I := Tracks) (fun _ _ _ hi ho => hi.next ho)
    ⟨rfl, fun _ => rfl, by simp [start], by simp [start, destructions], by simp [start],
      by simp [start]⟩

/-! ## The invariant -/

/-- Readers stay behind the writer and drop what they took; an object dies while all have dropped
it or after nobody holds anything, and its place is given back after that. -/
structure Coherent (C : ℕ) (a : State ρ α) : Prop where
  cursor_le : ∀ r, a.cursor r ≤ a.written.length
  lt_of_dropped : ∀ r k, k ∈ a.dropped r → k < a.cursor r
  lt_of_dead : ∀ k, k ∈ a.dead → k < a.written.length
  dead_of_freed : ∀ k, k ∈ a.freed → k ∈ a.dead
  released_of_freed : ∀ k, k ∈ a.freed → a.Released k
  freed_of_lt : ∀ i, i + C < a.written.length → i ∈ a.freed
  released_of_dead : a.stage = .running → ∀ k, k ∈ a.dead → a.Released k
  quiet : a.stage ≠ .running → ∀ r k, ¬ a.Held r k
  all_dead : a.stage = .closed ∨ a.stage = .disposed → ∀ k < a.written.length, k ∈ a.dead

section

omit [DecidableEq ρ]

variable {C : ℕ} {a : State ρ α}

theorem coherent_start (C : ℕ) : Coherent C (start : State ρ α) := by
  constructor <;> simp [start]

namespace Coherent

theorem dead_unheld (h : Coherent C a) {k : ℕ} (hk : k ∈ a.dead) (r : ρ) : ¬ a.Held r k := by
  intro hheld
  by_cases hs : a.stage = .running
  · exact hheld.2 (h.released_of_dead hs k hk r)
  · exact h.quiet hs r k hheld

theorem not_freed_of_held (h : Coherent C a) {r : ρ} {k : ℕ} (hk : a.Held r k) : k ∉ a.freed :=
  fun hf => h.dead_unheld (h.dead_of_freed k hf) r hk

/-- The writer is at most `C` objects ahead of any object that is not given back. -/
theorem length_le (h : Coherent C a) {k : ℕ} (hk : k ∉ a.freed) : a.written.length ≤ k + C :=
  not_lt.1 fun hlt => hk (h.freed_of_lt k hlt)

theorem cursor_not_dropped (h : Coherent C a) (r : ρ) : a.cursor r ∉ a.dropped r :=
  fun hd => lt_irrefl _ (h.lt_of_dropped r _ hd)

theorem cursor_not_freed (h : Coherent C a) (r : ρ) : a.cursor r ∉ a.freed :=
  fun hf => h.cursor_not_dropped r (h.released_of_freed _ hf r)

end Coherent

end

namespace Coherent

variable {C : ℕ} {a : State ρ α}

theorem wrote (h : Coherent C a) {e : α} (ho : (spec ρ α C).allowed a (.wrote e)) :
    Coherent C ((spec ρ α C).next a (.wrote e)) := by
  obtain ⟨hs, -, hfree⟩ := ho
  refine { h with cursor_le := fun r => ?_, lt_of_dead := fun k hk => ?_, freed_of_lt := ?_,
                  all_dead := ?_ }
  · simpa [spec, State.next] using (h.cursor_le r).trans (Nat.le_succ _)
  · simpa [spec, State.next] using (h.lt_of_dead k hk).trans (Nat.lt_succ_self _)
  · intro i hi
    simp only [spec, State.next, List.length_append, List.length_singleton] at hi ⊢
    rcases Nat.lt_succ_iff_lt_or_eq.1 hi with hlt | heq
    · exact h.freed_of_lt i hlt
    · exact hfree i heq
  · simp [spec, State.next, hs]

theorem read (h : Coherent C a) {r : ρ} {x : Option (Stored α)}
    (ho : (spec ρ α C).allowed a (.read r x)) : Coherent C ((spec ρ α C).next a (.read r x)) := by
  obtain ⟨hs, hlt, -⟩ := ho
  refine { h with cursor_le := fun r' => ?_, lt_of_dropped := fun r' k hk => ?_,
                  quiet := fun hs' => absurd hs hs' }
  · rcases eq_or_ne r' r with rfl | hne
    · simpa [spec, State.next] using hlt
    · simpa [spec, State.next, hne] using h.cursor_le r'
  · rcases eq_or_ne r' r with rfl | hne
    · simpa [spec, State.next] using (h.lt_of_dropped r' k hk).trans (Nat.lt_succ_self _)
    · simpa [spec, State.next, hne] using h.lt_of_dropped r' k hk

theorem dropped (h : Coherent C a) {r : ρ} {k : ℕ} (ho : (spec ρ α C).allowed a (.dropped r k)) :
    Coherent C ((spec ρ α C).next a (.dropped r k)) := by
  obtain ⟨hs, hheld⟩ := ho
  have hgrow : ∀ r' k', k' ∈ a.dropped r' →
      k' ∈ ((spec ρ α C).next a (.dropped r k)).dropped r' := by
    intro r' k' hk'
    rcases eq_or_ne r' r with rfl | hne
    · simp [spec, State.next, hk']
    · simpa [spec, State.next, hne] using hk'
  refine { h with lt_of_dropped := fun r' k' hk' => ?_,
                  released_of_freed := fun k' hk' r' => ?_,
                  released_of_dead := fun _ k' hk' r' => ?_,
                  quiet := fun hs' => absurd hs hs' }
  · rcases eq_or_ne r' r with rfl | hne
    · simp only [spec, State.next, Function.update_self, Finset.mem_insert] at hk'
      rcases hk' with rfl | hk'
      · exact hheld.1
      · exact h.lt_of_dropped r' k' hk'
    · simp only [spec, State.next, Function.update_of_ne hne] at hk'
      exact h.lt_of_dropped r' k' hk'
  · exact hgrow r' k' (h.released_of_freed k' hk' r')
  · exact hgrow r' k' (h.released_of_dead hs k' hk' r')

/-- A destruction adds one object to the dead. -/
theorem destroyed (h : Coherent C a) {who : Option ρ} {x : Option (Stored α)}
    (ho : (spec ρ α C).allowed a (.destroyed who x)) :
    Coherent C ((spec ρ α C).next a (.destroyed who x)) := by
  obtain ⟨k, hk, rfl⟩ : ∃ k < a.written.length, x = a.item k := by
    cases who with
    | none => obtain ⟨-, -, -, k, hk, hx, -⟩ := ho; exact ⟨k, hk, hx⟩
    | some r => obtain ⟨-, k, hk, hx, -⟩ := ho; exact ⟨k, hk, hx⟩
  refine { h with lt_of_dead := fun k' hk' => ?_,
                  dead_of_freed := fun k' hk' => (mem_dead_next hk who).2 (.inr ?_),
                  released_of_dead := fun hs k' hk' => ?_, quiet := fun hs => ?_,
                  all_dead := fun hs k' hk' => ?_ }
  · rcases (mem_dead_next hk who).1 hk' with rfl | hk'
    · exact hk
    · exact h.lt_of_dead k' hk'
  · exact h.dead_of_freed k' hk'
  · cases who with
    | none => simp [spec, State.next] at hs
    | some r =>
      obtain ⟨hrun, k'', -, heq, -, hrel, -⟩ := ho
      rcases (mem_dead_next hk _).1 hk' with rfl | hk'
      · obtain ⟨e, he⟩ := State.exists_item hk
        obtain rfl : k' = k'' := (State.item_eq_some_iff.1 (heq.symm.trans he)).1
        exact hrel
      · exact h.released_of_dead hrun k' hk'
  · cases who with
    | none => exact ho.2.2.1
    | some r => exact absurd ho.1 hs
  · cases who with
    | none => simp [spec, State.next] at hs
    | some r => simp [spec, State.next, ho.1] at hs

theorem freed (h : Coherent C a) {k : ℕ} (ho : (spec ρ α C).allowed a (.freed k)) :
    Coherent C ((spec ρ α C).next a (.freed k)) := by
  obtain ⟨-, hdead, -, hrel⟩ := ho
  refine { h with dead_of_freed := fun k' hk' => ?_, released_of_freed := fun k' hk' => ?_,
                  freed_of_lt := fun i hi => ?_ }
  · rcases Finset.mem_insert.1 hk' with rfl | hk'
    · exact hdead
    · exact h.dead_of_freed k' hk'
  · rcases Finset.mem_insert.1 hk' with rfl | hk'
    · exact hrel
    · exact h.released_of_freed k' hk'
  · exact Finset.mem_insert_of_mem (h.freed_of_lt i hi)

/-- Every allowed observation keeps the invariant. -/
theorem next (h : Coherent C a) {o : Obs ρ α} (ho : (spec ρ α C).allowed a o) :
    Coherent C ((spec ρ α C).next a o) := by
  cases o with
  | wrote e => exact h.wrote ho
  | read r x => exact h.read ho
  | dropped r k => exact h.dropped ho
  | destroyed who x => exact h.destroyed ho
  | freed k => exact h.freed ho
  | closed =>
    obtain ⟨-, -, hquiet, hdead⟩ := ho
    exact { h with released_of_dead := fun hs => (by cases hs), quiet := fun _ => hquiet,
                   all_dead := fun _ => hdead }
  | disposed =>
    have hs : a.stage = .closed := ho
    exact { h with released_of_dead := fun hs => (by cases hs),
                   quiet := fun _ => h.quiet (by simp [hs]), all_dead := fun _ => h.all_dead (.inl hs) }
  | offered e | refused e | empty r => exact { h with }

end Coherent

theorem coherent_of_legal {C : ℕ} {log : List (Obs ρ α)} (h : (spec ρ α C).Legal start log) :
    Coherent C ((spec ρ α C).after start log) :=
  h.invariant (I := Coherent C) (fun _ _ hi ho => hi.next ho) (coherent_start C)

/-! ## The teardown -/

/-- With nothing held, the objects that are left can be destroyed in any order. -/
theorem legal_teardown {C : ℕ} (disposes : Bool) :
    ∀ (ks : List ℕ) (a : State ρ α), a.stage = .running ∨ a.stage = .teardown → a.offer = none →
      (∀ r k, ¬ a.Held r k) → ks.Nodup →
      (∀ k ∈ ks, k < a.written.length ∧ k ∉ a.dead ∧ ¬ a.Released k) →
      (∀ k < a.written.length, k ∈ a.dead ∨ k ∈ ks) →
      let log := ks.map (fun k => .destroyed none (a.item k)) ++
        .closed :: if disposes then [.disposed] else []
      (spec ρ α C).Legal a log ∧ (((spec ρ α C).after a log).stage = .closed ∨
        ((spec ρ α C).after a log).stage = .disposed)
  | [], a, hs, ho, hq, _, _, hall => by
    have hclosed : (spec ρ α C).allowed a .closed :=
      ⟨hs, ho, hq, fun k hk => (hall k hk).resolve_right List.not_mem_nil⟩
    cases disposes
    · exact ⟨⟨hclosed, trivial⟩, .inl rfl⟩
    · exact ⟨⟨hclosed, rfl, trivial⟩, .inr rfl⟩
  | k :: ks, a, hs, ho, hq, hnodup, hks, hall => by
    obtain ⟨hnot, hnodup⟩ := List.nodup_cons.1 hnodup
    obtain ⟨hk, hdead, hrel⟩ := hks k List.mem_cons_self
    have hallowed : (spec ρ α C).allowed a (.destroyed none (a.item k)) :=
      ⟨hs, ho, hq, k, hk, rfl, hdead, hrel⟩
    have ih := legal_teardown (C := C) disposes ks ((spec ρ α C).next a (.destroyed none (a.item k)))
      (.inr rfl) ho hq hnodup ?_ ?_
    · exact ⟨⟨hallowed, ih.1⟩, ih.2⟩
    · intro k' hk'
      obtain ⟨h1, h2, h3⟩ := hks k' (List.mem_cons_of_mem _ hk')
      refine ⟨h1, ?_, h3⟩
      refine mt (mem_dead_next hk none).1 (not_or.2 ⟨?_, h2⟩)
      exact fun heq => hnot (heq ▸ hk')
    · intro k' hk'
      refine Or.imp_left (mem_dead_next hk none).2 ?_
      rcases hall k' hk' with hd | hmem
      · exact .inl (.inr hd)
      · rcases List.mem_cons.1 hmem with rfl | hmem
        · exact .inl (.inl rfl)
        · exact .inr hmem

/-! ## What a legal log says -/

section Log

variable {C : ℕ} {log : List (Obs ρ α)}

/-- Every reader has taken the first objects written, in order. -/
theorem reads_eq (h : (spec ρ α C).Legal start log) (r : ρ) :
    reads r log = ((numbered (writes log)).take (reads r log).length).map some := by
  induction log using List.reverseRecOn with
  | nil => rfl
  | append_singleton os o ih =>
    have htr := tracks_of_legal h.left
    have hco := coherent_of_legal h.left
    have ho := h.allowed_of_append
    specialize ih h.left
    have hle : (reads r os).length ≤ (numbered (writes os)).length := by
      rw [numbered_length, ← htr.written, ← htr.cursor]
      exact hco.cursor_le r
    cases o with
    | wrote e =>
      have hr : reads r (os ++ [.wrote e]) = reads r os := by simp [reads]
      have hwr : writes (os ++ [.wrote e]) = writes os ++ [e] := by simp [writes]
      rw [hr, hwr, numbered_append_singleton, List.take_append_of_le_length hle]
      exact ih
    | read r' x =>
      have hwr : writes (os ++ [.read r' x]) = writes os := by simp [writes]
      by_cases hrr : r' = r
      · subst hrr
        have hr : reads r' (os ++ [.read r' x]) = reads r' os ++ [x] := by simp [reads]
        obtain ⟨-, hlt, hx⟩ := ho
        rw [State.item_eq_numbered, htr.written, htr.cursor] at hx
        rw [htr.written, htr.cursor, ← numbered_length (writes os)] at hlt
        rw [hr, hwr, List.length_append, List.length_singleton, List.take_add_one,
          List.map_append, ← ih, hx, List.getElem?_eq_getElem hlt]
        rfl
      · have hr : reads r (os ++ [.read r' x]) = reads r os := by simp [reads, hrr]
        rw [hr, hwr]
        exact ih
    | offered e | refused e | empty r' | dropped r' k | destroyed who x | freed k | closed
    | disposed => simpa [reads, writes] using ih

theorem reads_isPrefix (h : (spec ρ α C).Legal start log) (r : ρ) :
    reads r log <+: (numbered (writes log)).map some := by
  rw [reads_eq h r]
  exact (List.take_prefix _ _).map some

theorem reads_getElem (h : (spec ρ α C).Legal start log) (r : ρ) {k : ℕ}
    (hk : k < (reads r log).length) : (reads r log)[k]? = some (numbered (writes log))[k]? := by
  have hle : (reads r log).length ≤ (numbered (writes log)).length := by
    simpa using (reads_isPrefix h r).length_le
  rw [reads_eq h r, List.getElem?_map, List.getElem?_take_of_lt hk,
    List.getElem?_eq_getElem (hk.trans_le hle)]
  rfl

/-- No object is destroyed twice. -/
theorem destructions_le_one (h : (spec ρ α C).Legal start log) (k : ℕ) :
    destructions k log ≤ 1 := by
  induction log using List.reverseRecOn with
  | nil => exact Nat.zero_le _
  | append_singleton os o ih =>
    have htr := tracks_of_legal h.left
    have ho := h.allowed_of_append
    specialize ih h.left
    rw [destructions, List.countP_append, List.countP_singleton]
    split_ifs with hk
    · have hfresh : destructions k os = 0 := by
        cases o with
        | destroyed who x =>
          obtain ⟨k', -, rfl, hdead⟩ : ∃ k' < ((spec ρ α C).after start os).written.length,
              x = ((spec ρ α C).after start os).item k' ∧
                k' ∉ ((spec ρ α C).after start os).dead := by
            cases who with
            | none => obtain ⟨-, -, -, k', hk', hx, hd, -⟩ := ho; exact ⟨k', hk', hx, hd⟩
            | some r => obtain ⟨-, k', hk', hx, hd, -⟩ := ho; exact ⟨k', hk', hx, hd⟩
          cases hitem : ((spec ρ α C).after start os).item k' with
          | none => simp [Obs.destroys, hitem] at hk
          | some x =>
            obtain ⟨hnum, -⟩ := State.item_eq_some_iff.1 hitem
            simp only [Obs.destroys, hitem, decide_eq_true_eq] at hk
            rw [htr.dead, ← hnum, hk] at hdead
            omega
        | _ => simp [Obs.destroys] at hk
      rw [destructions] at hfresh
      omega
    · exact ih

/-- When all is over every object written has been destroyed exactly once. -/
theorem destructions_eq_one (h : (spec ρ α C).Legal start log) (hclosed : .closed ∈ log) {k : ℕ}
    (hk : k < (writes log).length) : destructions k log = 1 := by
  have htr := tracks_of_legal h
  have hdead := (coherent_of_legal h).all_dead (htr.closed.2 hclosed) k (htr.written ▸ hk)
  have := destructions_le_one h k
  have := (htr.dead k).1 hdead
  omega

/-- The reader `r` took the object `k` and has not dropped it. -/
def Holds (r : ρ) (k : ℕ) (log : List (Obs ρ α)) : Prop :=
  k < (reads r log).length ∧ .dropped r k ∉ log

theorem Tracks.held_iff {a : State ρ α} (h : Tracks a log) (r : ρ) (k : ℕ) :
    a.Held r k ↔ Holds r k log := by
  rw [State.Held, Holds, h.cursor, h.dropped]

/-- An object that is held has not been destroyed. -/
theorem destructions_eq_zero_of_holds (h : (spec ρ α C).Legal start log) {r : ρ} {k : ℕ}
    (hk : Holds r k log) : destructions k log = 0 := by
  have htr := tracks_of_legal h
  by_contra hne
  exact (coherent_of_legal h).dead_unheld ((htr.dead k).2 (Nat.pos_of_ne_zero hne)) r
    ((htr.held_iff r k).2 hk)

/-- The last to drop an object is the one whose drop no other drop follows. -/
theorem lastDrop_spec (h : (spec ρ α C).Legal start log) {r : ρ} {k : ℕ}
    (hr : ((spec ρ α C).after start log).lastDrop k = some r) :
    ∃ l₁ l₂, log = l₁ ++ .dropped r k :: l₂ ∧ ∀ r', .dropped r' k ∉ l₂ := by
  refine h.log_invariant (I := fun a l => ∀ k r, a.lastDrop k = some r →
    ∃ l₁ l₂, l = l₁ ++ .dropped r k :: l₂ ∧ ∀ r', .dropped r' k ∉ l₂) ?_ (by simp [start]) k r hr
  intro a l o hi _ k r hr
  have hkeep : (∀ r', o ≠ .dropped r' k) → a.lastDrop k = some r →
      ∃ l₁ l₂, l ++ [o] = l₁ ++ .dropped r k :: l₂ ∧ ∀ r', .dropped r' k ∉ l₂ := by
    intro hne hr'
    obtain ⟨l₁, l₂, rfl, hl₂⟩ := hi k r hr'
    refine ⟨l₁, l₂ ++ [o], by simp, fun r' hmem => ?_⟩
    rcases List.mem_append.1 hmem with hmem | hmem
    · exact hl₂ r' hmem
    · exact hne r' (List.mem_singleton.1 hmem).symm
  cases o with
  | dropped r' k' =>
    by_cases hk : k = k'
    · subst hk
      simp only [spec, State.next, Function.update_self, Option.some.injEq] at hr
      subst hr
      exact ⟨l, [], rfl, by simp⟩
    · simp only [spec, State.next, Function.update_of_ne hk] at hr
      exact hkeep (fun r'' heq => hk (by cases heq; rfl)) hr
  | _ => exact hkeep (by simp) hr

/-- A reader that destroys an object was the last of all readers to drop it. -/
theorem destroyed_by_last {l l' : List (Obs ρ α)} {r : ρ} {x : Option (Stored α)}
    (h : (spec ρ α C).Legal start (l ++ .destroyed (some r) x :: l')) :
    ∃ k, x = (numbered (writes l))[k]? ∧ k < (writes l).length ∧ (∀ r', .dropped r' k ∈ l) ∧
      ∃ l₁ l₂, l = l₁ ++ .dropped r k :: l₂ ∧ ∀ r', .dropped r' k ∉ l₂ := by
  have htr := tracks_of_legal h.left
  obtain ⟨-, k, hk, hx, -, hrel, hlast⟩ := h.allowed_of_append
  rw [htr.written] at hk
  rw [State.item_eq_numbered, htr.written] at hx
  exact ⟨k, hx, hk, fun r' => (htr.dropped r' k).1 (hrel r'), lastDrop_spec h.left hlast⟩

theorem not_running_next (C : ℕ) {a : State ρ α} (hs : a.stage ≠ .running) (o : Obs ρ α) :
    ((spec ρ α C).next a o).stage ≠ .running := by
  cases o with
  | destroyed who x => cases who <;> simp [spec, State.next, hs]
  | closed | disposed => simp [spec, State.next]
  | _ => exact hs

/-- Once the teardown has begun, what needs a running broadcast is not seen any more. -/
theorem not_mem_of_not_running {a : State ρ α} (hs : a.stage ≠ .running) {l : List (Obs ρ α)}
    (h : (spec ρ α C).Legal a l) {o : Obs ρ α}
    (ho : ∀ a, (spec ρ α C).allowed a o → a.stage = .running) : o ∉ l := by
  induction l generalizing a with
  | nil => exact List.not_mem_nil
  | cons o' os ih =>
    obtain ⟨ho', hos⟩ := h
    intro hmem
    rcases List.mem_cons.1 hmem with rfl | hmem
    · exact hs (ho a ho')
    · exact ih (not_running_next C hs o') hos hmem

/-- The teardown destroys what some reader never dropped, when nothing is held any more. -/
theorem destroyed_by_teardown {l l' : List (Obs ρ α)} {x : Option (Stored α)}
    (h : (spec ρ α C).Legal start (l ++ .destroyed none x :: l')) :
    (∀ r k, ¬ Holds r k l) ∧ ∃ k, x = (numbered (writes l))[k]? ∧ k < (writes l).length ∧
      ∃ r, .dropped r k ∉ l ++ .destroyed none x :: l' := by
  have htr := tracks_of_legal h.left
  obtain ⟨-, -, hquiet, k, hk, hx, -, hrel⟩ := h.allowed_of_append
  rw [htr.written] at hk
  rw [State.item_eq_numbered, htr.written] at hx
  obtain ⟨r, hr⟩ := not_forall.1 hrel
  refine ⟨fun r k => mt (htr.held_iff r k).2 (hquiet r k), k, hx, hk, r, fun hmem => ?_⟩
  rcases List.mem_append.1 hmem with hmem | hmem
  · exact hr ((htr.dropped r k).2 hmem)
  · have hlegal := ((Spec.legal_append ..).1 h).2.2
    rcases List.mem_cons.1 hmem with heq | hmem
    · cases heq
    · exact not_mem_of_not_running (o := .dropped r k) (by simp [spec, State.next]) hlegal
        (fun _ ho => ho.1) hmem

/-- Nothing is read once the teardown has begun. -/
theorem not_read_of_teardown {l l' : List (Obs ρ α)} {x y : Option (Stored α)}
    (h : (spec ρ α C).Legal start (l ++ .destroyed none x :: l')) (r : ρ) : .read r y ∉ l' :=
  not_mem_of_not_running (by simp [spec, State.next]) ((Spec.legal_append ..).1 h).2.2
    fun _ ho => ho.1

/-- Whatever is disposed of is disposed of last, once, when everything was destroyed. -/
theorem disposed_last {l l' : List (Obs ρ α)}
    (h : (spec ρ α C).Legal start (l ++ .disposed :: l')) :
    l' = [] ∧ .closed ∈ l ∧ .disposed ∉ l := by
  have hstage : ((spec ρ α C).after start l).stage = .closed := h.allowed_of_append
  have hclosed := (tracks_of_legal h.left).closed.1 (.inl hstage)
  refine ⟨?_, hclosed, fun hmem => ?_⟩
  · cases l' with
    | nil => rfl
    | cons o os =>
      have hl := ((Spec.legal_append ..).1 h).2.2
      have ho : (spec ρ α C).allowed ((spec ρ α C).next ((spec ρ α C).after start l) .disposed) o :=
        hl.1
      cases o with
      | destroyed who x => cases who <;> simp [spec, State.next, State.Allowed] at ho
      | _ => simp [spec, State.next, State.Allowed] at ho
  · have hd : ((spec ρ α C).after start l).stage = .disposed := by
      refine h.left.log_invariant (I := fun a l => Obs.disposed ∈ l → a.stage = .disposed) ?_
        (by simp) hmem
      intro a os o hi ho hmem
      rcases List.mem_append.1 hmem with hmem | hmem
      · have hs := hi hmem
        cases o with
        | destroyed who x => cases who <;> simp [spec, State.Allowed, hs] at ho
        | _ => simp [spec, State.Allowed, hs] at ho
      · rw [← List.mem_singleton.1 hmem]
        rfl
    rw [hstage] at hd
    cases hd

omit [DecidableEq ρ] in
theorem disposals_eq_zero (h : .disposed ∉ log) : disposals log = 0 := by
  refine List.countP_eq_zero.2 fun o ho hd => ?_
  cases o with
  | disposed => exact h ho
  | _ => cases hd

theorem disposals_eq_one (h : (spec ρ α C).Legal start log) (hd : .disposed ∈ log) :
    disposals log = 1 := by
  obtain ⟨l, l', rfl⟩ := List.append_of_mem hd
  obtain ⟨rfl, -, hfresh⟩ := disposed_last h
  rw [disposals, List.countP_append, List.countP_singleton]
  exact congrArg (· + 1) (disposals_eq_zero hfresh)

end Log

end GuardedBroadcast
