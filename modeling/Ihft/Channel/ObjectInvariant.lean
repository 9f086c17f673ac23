import Ihft.Channel.StreamObjectQueue

/-!
# The invariant of guards and readers

`CoreOk` ties the readers and guards of an object queue to the abstract broadcast of objects with a
lifetime.  It says nothing about the ring, so it serves both families: each operation of a guard or
a reader has one lemma here, which the families combine with what the operation does to a bucket.
-/

namespace Ihft.Channel

open Observe GuardedBroadcast

variable {T : SeqnumCounter} {R : ℕ} {α : Type*}

/-- The phase of the guard of `r` for the event `k` becomes `p`. -/
def setPhase (phase : Fin R → ℕ → Option GuardPc) (r : Fin R) (k : ℕ) (p : Option GuardPc) :
    Fin R → ℕ → Option GuardPc :=
  Function.update phase r (Function.update (phase r) k p)

section Phase

variable (phase : Fin R → ℕ → Option GuardPc) (r : Fin R) (k : ℕ) (p : Option GuardPc)

@[simp] theorem setPhase_row : setPhase phase r k p r = Function.update (phase r) k p := by
  simp [setPhase]

@[simp] theorem setPhase_self : setPhase phase r k p r k = p := by simp

variable {r k}

theorem setPhase_of_ne {r' : Fin R} {k' : ℕ} (h : ¬ (r' = r ∧ k' = k)) :
    setPhase phase r k p r' k' = phase r' k' := by
  rcases eq_or_ne r' r with rfl | hr
  · rw [setPhase_row, Function.update_of_ne fun hk => h ⟨rfl, hk⟩]
  · rw [setPhase, Function.update_of_ne hr]

theorem setPhase_row_of_ne {r' : Fin R} (h : r' ≠ r) : setPhase phase r k p r' = phase r' := by
  rw [setPhase, Function.update_of_ne h]

end Phase

/-! ## The slots of the ring -/

/-- The slot `k` is taken by the event `k - C`, whose bucket was not given back. -/
def Occupied (C : ℕ) (a : State (Fin R) α) (k : ℕ) : Prop := C ≤ k ∧ k - C ∉ a.freed

instance (C : ℕ) (a : State (Fin R) α) (k : ℕ) : Decidable (Occupied C a k) :=
  inferInstanceAs (Decidable (_ ∧ _))

theorem occupied_iff {C : ℕ} {a : State (Fin R) α} {k : ℕ} :
    Occupied C a k ↔ ∃ i, i + C = k ∧ i ∉ a.freed := by
  constructor
  · rintro ⟨hle, hfreed⟩
    exact ⟨k - C, Nat.sub_add_cancel hle, hfreed⟩
  · rintro ⟨i, rfl, hfreed⟩
    exact ⟨Nat.le_add_left C i, by rwa [Nat.add_sub_cancel]⟩

/-- The event `k - C` lives in the slot `k`. -/
def Alive (C : ℕ) (a : State (Fin R) α) (k : ℕ) : Prop := C ≤ k ∧ k - C ∉ a.dead

/-! ## After the last owner -/

/-- Nobody owns the ring, and only guards that were moved from are left. -/
structure CoreSpent (dummyReaderId : T.Val) (s : ObjectCore T R) : Prop where
  unowned : ¬ s.Owned
  moved : ∀ r, ∀ g ∈ (s.readers r).guards, g.owner = dummyReaderId ∧ g.pc = .alive

namespace CoreSpent

variable {dummyReaderId : T.Val} {s s' : ObjectCore T R} {r : Fin R} {j : ℕ}

theorem producer (h : CoreSpent dummyReaderId s) : s.producer = false :=
  Bool.eq_false_iff.2 fun hp => h.unowned (.inl hp)

theorem alive (h : CoreSpent dummyReaderId s) (r : Fin R) : (s.readers r).alive = false :=
  Bool.eq_false_iff.2 fun hr => h.unowned (.inr ⟨r, hr⟩)

theorem setGuards (h : CoreSpent dummyReaderId s) {guards : List (Guard T)}
    (hg : ∀ g ∈ guards, g.owner = dummyReaderId ∧ g.pc = .alive) :
    CoreSpent dummyReaderId (s.setGuards r guards) := by
  refine ⟨?_, fun r' => ?_⟩
  · simpa [ObjectCore.Owned] using h.unowned
  · rcases eq_or_ne r' r with rfl | hne
    · simpa using hg
    · simpa [ObjectCore.setGuards_guards_of_ne _ _ hne] using h.moved r'

theorem eraseGuard (h : CoreSpent dummyReaderId s) (r : Fin R) (j : ℕ) :
    CoreSpent dummyReaderId (s.setGuards r ((s.readers r).guards.eraseIdx j)) :=
  h.setGuards fun g hg => h.moved r g (List.mem_of_mem_eraseIdx hg)

theorem moveGuard (h : CoreSpent dummyReaderId s) (hs : s.moveGuard dummyReaderId r j = some s') :
    CoreSpent dummyReaderId s' := by
  obtain ⟨g, hj, hpc, rfl⟩ := ObjectCore.moveGuard_eq_some hs
  refine h.setGuards fun g' hg' => ?_
  rcases List.mem_append.1 hg' with hg' | hg'
  · rcases List.mem_or_eq_of_mem_set hg' with hg' | rfl
    · exact h.moved r g' hg'
    · exact ⟨rfl, hpc⟩
  · rw [List.mem_singleton.1 hg']
    exact h.moved r g (List.mem_of_getElem? hj)

end CoreSpent

/-! ## Readers, guards and owners -/

/-- `phase r k` is the progress of the guard of `r` for the event `k`; `pending` is the event the
writer is inside `try_write` with. -/
structure CoreOk (dummyReaderId : T.Val) (C : ℕ) (phase : Fin R → ℕ → Option GuardPc)
    (a : State (Fin R) α) (s : ObjectCore T R) (pending : Option (Stored α)) : Prop where
  coherent : Coherent C a
  running : a.stage = .running
  size : s.size = C
  written : s.written = a.written.length
  offer : pending = a.offer.map (Stored.mk a.written.length)
  idle : s.producer = false → pending = none
  reader : ∀ r, (s.readers r).reader.AtIndex C (a.cursor r)
  id : ∀ r, (s.readers r).reader.id ≠ dummyReaderId
  taken : ∀ r, (s.readers r).taken = a.cursor r
  guards : ∀ r, GuardsOk dummyReaderId C (phase r) (s.readers r).guards
  held : ∀ r k, phase r k = some .alive ↔ a.Held r k
  destroy : ∀ r k, phase r k = some .destroy →
    k < a.written.length ∧ k ∉ a.dead ∧ a.Released k ∧ a.lastDrop k = some r
  store : ∀ r k, phase r k = some .store →
    k ∈ a.dead ∧ k ∉ a.freed ∧ a.Released k ∧ a.lastDrop k = some r
  busy : ∀ k < a.written.length, a.Released k → k ∉ a.freed →
    ∃ r, phase r k = some .destroy ∨ phase r k = some .store

/-- A new channel, whose consumers stand at the first event. -/
theorem coreOk_start {dummyReaderId : T.Val} {C : ℕ} (ch : ProducerAndConsumers T)
    (hcap : ch.producer.capacity = C)
    (hnew : ∀ r : Fin ch.consumers.length, ∃ id, ch.consumers[r] = .new (C - 1) id ∧
      id ≠ dummyReaderId) (contentAllocator : Bool) :
    CoreOk (α := α) dummyReaderId C (fun _ _ => none) GuardedBroadcast.start
      (.start ch contentAllocator) none where
  coherent := coherent_start C
  running := rfl
  size := hcap
  written := rfl
  offer := rfl
  idle := fun _ => rfl
  reader r := by
    obtain ⟨id, hr, -⟩ := hnew r
    change ch.consumers[r].AtIndex C 0
    rw [hr]
    exact StreamReader.atIndex_new id
  id r := by
    obtain ⟨id, hr, hid⟩ := hnew r
    change ch.consumers[r].id ≠ dummyReaderId
    rw [hr]
    exact hid
  taken _ := rfl
  guards _ := guardsOk_nil
  held r k := by simp [State.Held, GuardedBroadcast.start]
  destroy r k h := by cases h
  store r k h := by cases h
  busy k hk := absurd hk (Nat.not_lt_zero k)

namespace CoreOk

variable {dummyReaderId : T.Val} {C : ℕ} {phase : Fin R → ℕ → Option GuardPc}
  {a : State (Fin R) α} {s s' : ObjectCore T R} {pending : Option (Stored α)} {r : Fin R} {j : ℕ}
  {g : Guard T} {e : α}

theorem offer_eq_none (h : CoreOk dummyReaderId C phase a s none) : a.offer = none := by
  simpa using h.offer.symm

/-- `try_write` begins. -/
theorem offered (h : CoreOk dummyReaderId C phase a s none) (hp : s.producer = true) (e : α) :
    (spec (Fin R) α C).allowed a (.offered e) ∧
      CoreOk dummyReaderId C phase ((spec (Fin R) α C).next a (.offered e)) s
        (some ⟨s.written, e⟩) := by
  have hallowed : (spec (Fin R) α C).allowed a (.offered e) := ⟨h.running, h.offer_eq_none⟩
  refine ⟨hallowed, { h with coherent := h.coherent.next hallowed, offer := ?_, idle := ?_ }⟩
  · rw [h.written]
    rfl
  · intro hfalse
    rw [hp] at hfalse
    cases hfalse

/-- A refused offer leaves the abstract state as it was. -/
theorem refused (h : CoreOk dummyReaderId C phase a s none) {i : ℕ}
    (hi : i + C = a.written.length) (hfreed : i ∉ a.freed) :
    (spec (Fin R) α C).Legal a [.offered e, .refused e] ∧
      (spec (Fin R) α C).after a [.offered e, .refused e] = a := by
  refine ⟨⟨⟨h.running, h.offer_eq_none⟩, ⟨h.running, rfl, i, hi, hfreed⟩, trivial⟩, ?_⟩
  have hoffer := h.offer_eq_none
  obtain ⟨_, _, _, _, _, _, _, _⟩ := a
  subst hoffer
  rfl

/-- The store that publishes the event. -/
theorem wrote {x : Stored α} (h : CoreOk dummyReaderId C phase a s (some x)) (hR : 0 < R)
    (hfree : ∀ i, i + C = a.written.length → i ∈ a.freed) :
    x.number = a.written.length ∧ (spec (Fin R) α C).allowed a (.wrote x.value) ∧
      CoreOk dummyReaderId C phase ((spec (Fin R) α C).next a (.wrote x.value))
        { s with written := s.written + 1 } none := by
  obtain ⟨e, he, rfl⟩ : ∃ e, a.offer = some e ∧ ⟨a.written.length, e⟩ = x :=
    Option.map_eq_some_iff.1 h.offer.symm
  have hallowed : (spec (Fin R) α C).allowed a (.wrote e) := ⟨h.running, he, hfree⟩
  refine ⟨rfl, hallowed, { h with
    coherent := h.coherent.next hallowed, written := ?_, offer := rfl, idle := fun _ => rfl,
    destroy := fun r k hk => ?_, busy := fun k hk hrel hfreed => ?_ }⟩
  · simp [spec, State.next, h.written]
  · obtain ⟨h1, h2, h3, h4⟩ := h.destroy r k hk
    refine ⟨?_, h2, h3, h4⟩
    simp only [spec, State.next, List.length_append, List.length_singleton]
    omega
  · simp only [spec, State.next, List.length_append, List.length_singleton] at hk
    refine h.busy k ?_ hrel hfreed
    have h1 := h.coherent.lt_of_dropped ⟨0, hR⟩ k (hrel ⟨0, hR⟩)
    exact h1.trans_le (h.coherent.cursor_le _)

/-- A load that finds the event: the reader gets a guard for it. -/
theorem read (hC : IsCapacity T C) (h : CoreOk dummyReaderId C phase a s pending)
    (hlt : a.cursor r < a.written.length) :
    (spec (Fin R) α C).allowed a (.read r (a.item (a.cursor r))) ∧
      CoreOk dummyReaderId C (setPhase phase r (a.cursor r) (some .alive))
        ((spec (Fin R) α C).next a (.read r (a.item (a.cursor r)))) (s.takeGuard r) pending := by
  have hallowed : (spec (Fin R) α C).allowed a (.read r (a.item (a.cursor r))) :=
    ⟨h.running, hlt, rfl⟩
  have hnodrop := h.coherent.cursor_not_dropped r
  have hnone : phase r (a.cursor r) = none := by
    cases hp : phase r (a.cursor r) with
    | none => rfl
    | some p =>
      cases p with
      | alive => exact absurd ((h.held r _).1 hp).1 (lt_irrefl _)
      | destroy => exact absurd ((h.destroy r _ hp).2.2.1 r) hnodrop
      | store => exact absurd ((h.store r _ hp).2.2.1 r) hnodrop
  refine ⟨hallowed, { h with
    coherent := h.coherent.next hallowed, reader := ?_, id := ?_, taken := ?_, guards := ?_,
    held := ?_, destroy := ?_, store := ?_, busy := ?_ }⟩
  · intro r'
    rcases eq_or_ne r' r with rfl | hne
    · simpa [ObjectCore.takeGuard, ObjectCore.setReader, spec, State.next] using
        (h.reader r').advance hC
    · simpa [ObjectCore.takeGuard, ObjectCore.setReader, spec, State.next, hne] using h.reader r'
  · intro r'
    rcases eq_or_ne r' r with rfl | hne
    · simpa [ObjectCore.takeGuard, ObjectCore.setReader] using h.id r'
    · simpa [ObjectCore.takeGuard, ObjectCore.setReader, hne] using h.id r'
  · intro r'
    rcases eq_or_ne r' r with rfl | hne
    · simpa [ObjectCore.takeGuard, ObjectCore.setReader, spec, State.next] using h.taken r'
    · simpa [ObjectCore.takeGuard, ObjectCore.setReader, spec, State.next, hne] using h.taken r'
  · intro r'
    rcases eq_or_ne r' r with rfl | hne
    · rw [setPhase_row]
      simpa [ObjectCore.takeGuard, ObjectCore.setReader] using
        (h.guards r').push hnone (g := ⟨_, _, _, .alive⟩) (h.id r') (h.taken r')
          (h.reader r').nextBucket
    · rw [setPhase_row_of_ne _ _ hne]
      simpa [ObjectCore.takeGuard, ObjectCore.setReader, hne] using h.guards r'
  · intro r' k
    rcases eq_or_ne r' r with rfl | hne
    · rcases eq_or_ne k (a.cursor r') with rfl | hk
      · simp [State.Held, spec, State.next, hnodrop]
      · rw [setPhase_of_ne _ _ fun h' => hk h'.2, h.held]
        simp only [State.Held, spec, State.next, Function.update_self, Nat.lt_succ_iff_lt_or_eq,
          hk, or_false]
    · rw [setPhase_of_ne _ _ fun h' => hne h'.1, h.held]
      simp only [State.Held, spec, State.next, Function.update_of_ne hne]
  · intro r' k hk
    by_cases heq : r' = r ∧ k = a.cursor r
    · obtain ⟨rfl, rfl⟩ := heq
      simp at hk
    · rw [setPhase_of_ne _ _ heq] at hk
      exact h.destroy r' k hk
  · intro r' k hk
    by_cases heq : r' = r ∧ k = a.cursor r
    · obtain ⟨rfl, rfl⟩ := heq
      simp at hk
    · rw [setPhase_of_ne _ _ heq] at hk
      exact h.store r' k hk
  · intro k hk hrel hfreed
    obtain ⟨r', hr'⟩ := h.busy k hk hrel hfreed
    refine ⟨r', ?_⟩
    rwa [setPhase_of_ne]
    rintro ⟨rfl, rfl⟩
    exact hnodrop (hrel r')

/-- The guards of one reader change places. -/
theorem setGuards (h : CoreOk dummyReaderId C phase a s pending) {guards : List (Guard T)}
    (hg : GuardsOk dummyReaderId C (phase r) guards) :
    CoreOk dummyReaderId C phase a (s.setGuards r guards) pending := by
  refine { h with
    reader := fun r' => by simpa using h.reader r', id := fun r' => by simpa using h.id r',
    taken := fun r' => by simpa using h.taken r', guards := fun r' => ?_ }
  rcases eq_or_ne r' r with rfl | hne
  · simpa using hg
  · simpa [ObjectCore.setGuards_guards_of_ne _ _ hne] using h.guards r'

theorem moveGuard (h : CoreOk dummyReaderId C phase a s pending)
    (hs : s.moveGuard dummyReaderId r j = some s') :
    CoreOk dummyReaderId C phase a s' pending := by
  obtain ⟨g, hj, hpc, rfl⟩ := ObjectCore.moveGuard_eq_some hs
  exact h.setGuards ((h.guards r).move hj hpc)

/-- A guard that was moved from is destroyed. -/
theorem eraseMoved (h : CoreOk dummyReaderId C phase a s pending)
    (hj : (s.readers r).guards[j]? = some g) (hg : g.owner = dummyReaderId) :
    CoreOk dummyReaderId C phase a (s.setGuards r ((s.readers r).guards.eraseIdx j)) pending :=
  h.setGuards ((h.guards r).erase_moved hj hg)

/-- The guard at `j` refers to an event that is held. -/
theorem held_of_guard (h : CoreOk dummyReaderId C phase a s pending)
    (hj : (s.readers r).guards[j]? = some g) (hg : g.owner ≠ dummyReaderId)
    (hpc : g.pc = .alive) : a.Held r g.number ∧ g.bucket = g.number % C := by
  obtain ⟨h1, h2⟩ := (h.guards r).live hj hg
  rw [hpc] at h1
  exact ⟨(h.held r _).1 h1, h2⟩

/-- The phases of one guard and the abstract state change together. -/
theorem advance (h : CoreOk dummyReaderId C phase a s pending) {a' : State (Fin R) α} {k : ℕ}
    {p : Option GuardPc} {guards : List (Guard T)}
    (hg : GuardsOk dummyReaderId C (setPhase phase r k p r) guards) (coherent : Coherent C a')
    (running : a'.stage = .running) (hw : a'.written = a.written) (ho : a'.offer = a.offer)
    (hc : a'.cursor = a.cursor)
    (held : ∀ r' k', setPhase phase r k p r' k' = some .alive ↔ a'.Held r' k')
    (destroy : ∀ r' k', setPhase phase r k p r' k' = some .destroy →
      k' < a'.written.length ∧ k' ∉ a'.dead ∧ a'.Released k' ∧ a'.lastDrop k' = some r')
    (store : ∀ r' k', setPhase phase r k p r' k' = some .store →
      k' ∈ a'.dead ∧ k' ∉ a'.freed ∧ a'.Released k' ∧ a'.lastDrop k' = some r')
    (busy : ∀ k' < a'.written.length, a'.Released k' → k' ∉ a'.freed →
      ∃ r', setPhase phase r k p r' k' = some .destroy ∨
        setPhase phase r k p r' k' = some .store) :
    CoreOk dummyReaderId C (setPhase phase r k p) a' (s.setGuards r guards) pending where
  coherent := coherent
  running := running
  size := h.size
  written := by rw [hw]; exact h.written
  offer := by rw [ho, hw]; exact h.offer
  idle := h.idle
  reader r' := by
    rw [hc]
    simpa using h.reader r'
  id r' := by simpa using h.id r'
  taken r' := by
    rw [hc]
    simpa using h.taken r'
  guards r' := by
    rcases eq_or_ne r' r with rfl | hne
    · simpa using hg
    · rw [setPhase_row_of_ne _ _ hne, ObjectCore.setGuards_guards_of_ne _ _ hne]
      exact h.guards r'
  held := held
  destroy := destroy
  store := store
  busy := busy

/-- The destructor of a guard begins: the reader drops the event, and the last one to do so goes on
with its destruction. -/
theorem dropped (h : CoreOk dummyReaderId C phase a s pending) {k : ℕ} (hheld : a.Held r k)
    {p : Option GuardPc} {guards : List (Guard T)}
    (hg : GuardsOk dummyReaderId C (setPhase phase r k p r) guards)
    (hp : (p = some .destroy ∧ ((spec (Fin R) α C).next a (.dropped r k)).Released k) ∨
      (p = none ∧ ¬ ((spec (Fin R) α C).next a (.dropped r k)).Released k)) :
    (spec (Fin R) α C).allowed a (.dropped r k) ∧
      CoreOk dummyReaderId C (setPhase phase r k p)
        ((spec (Fin R) α C).next a (.dropped r k)) (s.setGuards r guards) pending := by
  have hallowed : (spec (Fin R) α C).allowed a (.dropped r k) := ⟨h.running, hheld⟩
  have hlt : k < a.written.length := hheld.1.trans_le (h.coherent.cursor_le r)
  have hdead : k ∉ a.dead := fun hd => h.coherent.dead_unheld hd r hheld
  have hne_of_released : ∀ k', a.Released k' → k' ≠ k := by
    rintro k' hrel rfl
    exact hheld.2 (hrel r)
  refine ⟨hallowed, h.advance hg (h.coherent.next hallowed) h.running rfl rfl rfl ?_ ?_ ?_ ?_⟩
  · intro r' k'
    rw [held_dropped_next, ← h.held]
    by_cases heq : r' = r ∧ k' = k
    · obtain ⟨rfl, rfl⟩ := heq
      rcases hp with ⟨rfl, -⟩ | ⟨rfl, -⟩ <;> simp
    · rw [setPhase_of_ne _ _ heq]
      simp [heq]
  · intro r' k' hk'
    by_cases heq : r' = r ∧ k' = k
    · obtain ⟨rfl, rfl⟩ := heq
      rcases hp with ⟨-, hrel⟩ | ⟨rfl, -⟩
      · exact ⟨hlt, hdead, hrel, by simp [spec, State.next]⟩
      · simp at hk'
    · rw [setPhase_of_ne _ _ heq] at hk'
      obtain ⟨h1, h2, h3, h4⟩ := h.destroy r' k' hk'
      have hne := hne_of_released k' h3
      exact ⟨h1, h2, (released_dropped_next_of_ne C a r hne).2 h3,
        (lastDrop_dropped_next_of_ne C a r hne).trans h4⟩
  · intro r' k' hk'
    by_cases heq : r' = r ∧ k' = k
    · obtain ⟨rfl, rfl⟩ := heq
      rcases hp with ⟨rfl, -⟩ | ⟨rfl, -⟩ <;> simp at hk'
    · rw [setPhase_of_ne _ _ heq] at hk'
      obtain ⟨h1, h2, h3, h4⟩ := h.store r' k' hk'
      have hne := hne_of_released k' h3
      exact ⟨h1, h2, (released_dropped_next_of_ne C a r hne).2 h3,
        (lastDrop_dropped_next_of_ne C a r hne).trans h4⟩
  · intro k' hk' hrel hfreed
    rcases eq_or_ne k' k with rfl | hne
    · rcases hp with ⟨rfl, -⟩ | ⟨-, hno⟩
      · exact ⟨r, .inl (setPhase_self ..)⟩
      · exact absurd hrel hno
    · obtain ⟨r', hr'⟩ :=
        h.busy k' hk' ((released_dropped_next_of_ne C a r hne).1 hrel) hfreed
      refine ⟨r', ?_⟩
      rwa [setPhase_of_ne]
      exact fun heq => hne heq.2

/-- The last guard of an event destroys it. -/
theorem destroyed (h : CoreOk dummyReaderId C phase a s pending)
    (hj : (s.readers r).guards[j]? = some g) (hg : g.owner ≠ dummyReaderId)
    (hpc : g.pc = .destroy) :
    (spec (Fin R) α C).allowed a (.destroyed (some r) (a.item g.number)) ∧
      CoreOk dummyReaderId C (setPhase phase r g.number (some .store))
        ((spec (Fin R) α C).next a (.destroyed (some r) (a.item g.number)))
        (s.setGuards r ((s.readers r).guards.set j { g with pc := .store })) pending := by
  have hphase := ((h.guards r).live hj hg).1
  rw [hpc] at hphase
  obtain ⟨hlt, hdead, hrel, hlast⟩ := h.destroy r g.number hphase
  have hallowed : (spec (Fin R) α C).allowed a (.destroyed (some r) (a.item g.number)) :=
    ⟨h.running, g.number, hlt, rfl, hdead, hrel, hlast⟩
  refine ⟨hallowed, h.advance ?_ (h.coherent.next hallowed) h.running rfl rfl rfl ?_ ?_ ?_ ?_⟩
  · rw [setPhase_row]
    exact (h.guards r).setPc hj hg .store
  · intro r' k'
    change _ ↔ a.Held r' k'
    rw [← h.held]
    by_cases heq : r' = r ∧ k' = g.number
    · obtain ⟨rfl, rfl⟩ := heq
      simp [hphase]
    · rw [setPhase_of_ne _ _ heq]
  · intro r' k' hk'
    by_cases heq : r' = r ∧ k' = g.number
    · obtain ⟨rfl, rfl⟩ := heq
      simp at hk'
    · rw [setPhase_of_ne _ _ heq] at hk'
      obtain ⟨h1, h2, h3, h4⟩ := h.destroy r' k' hk'
      refine ⟨h1, mt (mem_dead_next hlt _).1 (not_or.2 ⟨?_, h2⟩), h3, h4⟩
      rintro rfl
      rw [hlast] at h4
      exact heq ⟨(Option.some.inj h4).symm, rfl⟩
  · intro r' k' hk'
    refine And.imp_left (mem_dead_next hlt _).2 ?_
    by_cases heq : r' = r ∧ k' = g.number
    · obtain ⟨rfl, rfl⟩ := heq
      exact ⟨.inl rfl, fun hf => hdead (h.coherent.dead_of_freed _ hf), hrel, hlast⟩
    · rw [setPhase_of_ne _ _ heq] at hk'
      obtain ⟨h1, h2, h3, h4⟩ := h.store r' k' hk'
      exact ⟨.inr h1, h2, h3, h4⟩
  · intro k' hk' hrel' hfreed
    rcases eq_or_ne k' g.number with rfl | hne
    · exact ⟨r, .inr (setPhase_self ..)⟩
    · obtain ⟨r', hr'⟩ := h.busy k' hk' hrel' hfreed
      refine ⟨r', ?_⟩
      rwa [setPhase_of_ne]
      exact fun heq => hne heq.2

/-- The last store of the destructor gives the bucket back. -/
theorem freed (h : CoreOk dummyReaderId C phase a s pending)
    (hj : (s.readers r).guards[j]? = some g) (hg : g.owner ≠ dummyReaderId)
    (hpc : g.pc = .store) :
    (spec (Fin R) α C).allowed a (.freed g.number) ∧
      CoreOk dummyReaderId C (setPhase phase r g.number none)
        ((spec (Fin R) α C).next a (.freed g.number))
        (s.setGuards r ((s.readers r).guards.eraseIdx j)) pending := by
  have hphase := ((h.guards r).live hj hg).1
  rw [hpc] at hphase
  obtain ⟨hdead, hfreed, hrel, hlast⟩ := h.store r g.number hphase
  have hallowed : (spec (Fin R) α C).allowed a (.freed g.number) := ⟨h.running, hdead, hfreed, hrel⟩
  refine ⟨hallowed, h.advance ?_ (h.coherent.next hallowed) h.running rfl rfl rfl ?_ ?_ ?_ ?_⟩
  · rw [setPhase_row]
    exact (h.guards r).erase hj hg
  · intro r' k'
    change _ ↔ a.Held r' k'
    rw [← h.held]
    by_cases heq : r' = r ∧ k' = g.number
    · obtain ⟨rfl, rfl⟩ := heq
      simp [hphase]
    · rw [setPhase_of_ne _ _ heq]
  · intro r' k' hk'
    by_cases heq : r' = r ∧ k' = g.number
    · obtain ⟨rfl, rfl⟩ := heq
      simp at hk'
    · rw [setPhase_of_ne _ _ heq] at hk'
      exact h.destroy r' k' hk'
  · intro r' k' hk'
    by_cases heq : r' = r ∧ k' = g.number
    · obtain ⟨rfl, rfl⟩ := heq
      simp at hk'
    · rw [setPhase_of_ne _ _ heq] at hk'
      obtain ⟨h1, h2, h3, h4⟩ := h.store r' k' hk'
      refine ⟨h1, ?_, h3, h4⟩
      simp only [spec, State.next, Finset.mem_insert, not_or]
      refine ⟨?_, h2⟩
      rintro rfl
      rw [hlast] at h4
      exact heq ⟨(Option.some.inj h4).symm, rfl⟩
  · intro k' hk' hrel' hfreed'
    simp only [spec, State.next, Finset.mem_insert, not_or] at hfreed'
    obtain ⟨r', hr'⟩ := h.busy k' hk' hrel' hfreed'.2
    refine ⟨r', ?_⟩
    rwa [setPhase_of_ne]
    exact fun heq => hfreed'.1 heq.2

/-! ### The teardown -/

/-- One owner of several leaves. -/
theorem leave (h : CoreOk dummyReaderId C phase a s pending) {producer : Bool}
    {readers : Fin R → ObjectReader T} (hidle : producer = false → pending = none)
    (hsame : ∀ r, { readers r with alive := (s.readers r).alive } = s.readers r) :
    CoreOk dummyReaderId C phase a { s with producer := producer, readers := readers }
      pending := by
  have hreader : ∀ r, (readers r).reader = (s.readers r).reader := fun r => by
    rw [← hsame r]
  have hguards : ∀ r, (readers r).guards = (s.readers r).guards := fun r => by
    rw [← hsame r]
  have htaken : ∀ r, (readers r).taken = (s.readers r).taken := fun r => by
    rw [← hsame r]
  refine { h with idle := hidle, reader := fun r => ?_, id := fun r => ?_, taken := fun r => ?_,
                  guards := fun r => ?_ }
  · simpa [hreader] using h.reader r
  · simpa [hreader] using h.id r
  · simpa [htaken] using h.taken r
  · simpa [hguards] using h.guards r

/-- Without live guards nothing is held. -/
theorem unheld_of_quiet (h : CoreOk dummyReaderId C phase a s pending)
    (hq : s.Quiet dummyReaderId) (r : Fin R) (k : ℕ) : ¬ a.Held r k := by
  rw [← h.held]
  intro hk
  obtain ⟨g, hg, hne, -⟩ := ((h.guards r).phase_iff k _).1 hk
  exact hne (hq r g hg)

/-- With no destructor at work the events that were not given back are alive, and somebody has not
dropped them. -/
theorem unreleased_of_settled (h : CoreOk dummyReaderId C phase a s pending)
    (hs : s.Settled dummyReaderId) {k : ℕ} (hk : k < a.written.length) (hfreed : k ∉ a.freed) :
    k ∉ a.dead ∧ ¬ a.Released k := by
  have hno : ¬ a.Released k := by
    intro hrel
    obtain ⟨r, hr⟩ := h.busy k hk hrel hfreed
    have halive : ∀ p, phase r k = some p → p = .alive := by
      intro p hp
      obtain ⟨g, hg, hne, -, rfl⟩ := ((h.guards r).phase_iff k p).1 hp
      exact hs r g hg hne
    rcases hr with hr | hr
    · cases halive _ hr
    · cases halive _ hr
  exact ⟨fun hd => hno (h.coherent.released_of_dead h.running k hd), hno⟩

/-- The last owner tears the ring down: it destroys what was not given back. -/
theorem teardown (h : CoreOk dummyReaderId C phase a s none) (hq : s.Quiet dummyReaderId)
    {f : ℕ → List (Option (Stored α))}
    (hf : ∀ k, a.written.length ≤ k → k < a.written.length + C →
      f (k % C) = if Occupied C a k then [a.item (k - C)] else []) (disposes : Bool) :
    let log := ((List.range C).flatMap f).map (.destroyed none) ++
      .closed :: if disposes then [.disposed] else []
    (spec (Fin R) α C).Legal a log ∧ (((spec (Fin R) α C).after a log).stage = .closed ∨
      ((spec (Fin R) α C).after a log).stage = .disposed) := by
  have hwindow : ∀ i, i < a.written.length ∧ i ∉ a.freed →
      i < a.written.length ∧ a.written.length ≤ i + C :=
    fun i hi => ⟨hi.1, h.coherent.length_le hi.2⟩
  obtain ⟨ks, hks, hnodup, hmem⟩ := WrappingCounter.flatMap_window (g := a.item) (f := f) hwindow
    (fun k hk hk' => by
      rw [hf k hk hk']
      refine if_congr ?_ rfl rfl
      refine and_congr_right fun hle => ⟨fun hfreed => ⟨by omega, hfreed⟩, And.right⟩) C le_rfl
  have hmem' : ∀ k, k ∈ ks ↔ k < a.written.length ∧ k ∉ a.freed := by
    intro k
    rw [hmem]
    refine and_iff_left_of_imp fun hk => Nat.mod_lt _ ?_
    have := h.coherent.length_le hk.2
    omega
  have hlegal := legal_teardown (C := C) disposes ks a (.inl h.running) h.offer_eq_none
    (h.unheld_of_quiet hq) hnodup ?_ ?_
  · rw [hks, List.map_map]
    exact hlegal
  · intro k hk
    obtain ⟨hlt, hfreed⟩ := (hmem' k).1 hk
    obtain ⟨hdead, hrel⟩ := h.unreleased_of_settled hq.settled hlt hfreed
    exact ⟨hlt, hdead, hrel⟩
  · intro k hk
    by_cases hfreed : k ∈ a.freed
    · exact .inl (h.coherent.dead_of_freed k hfreed)
    · exact .inr ((hmem' k).2 ⟨hk, hfreed⟩)

end CoreOk

end Ihft.Channel
