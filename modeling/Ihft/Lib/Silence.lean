import Ihft.Lib.ReleaseAcquire

/-!
# Threads that never release

A thread all of whose atomic accesses are relaxed or only acquire does not tell anybody of its plain
accesses.  Nothing that it did to a cell happens before what another thread does, so any later
conflicting access of another thread is a data race, whatever was read in between.
-/

namespace ReleaseAcquire

variable {ι κ θ V D : Type*}

namespace View

variable {v w : View ι θ} {o : MemoryOrder} {i : θ}

theorem receive_clock_eq_zero (hv : v.clock i = 0) (hw : w.clock i = 0) :
    (v.receive o w).clock i = 0 := by
  unfold receive
  split_ifs
  · change max (v.clock i) (w.clock i) = 0
    rw [hv, hw, max_self]
  · exact hv

theorem send_clock_eq_zero (h : o.releases → v.clock i = 0) : (v.send o).clock i = 0 := by
  unfold send
  split_ifs with ho
  · exact h ho
  · rfl

theorem tick_clock_of_ne [DecidableEq θ] {j : θ} (h : i ≠ j) : (v.tick j).clock i = v.clock i := by
  simp [tick, h]

end View

/-- No other thread, and no message, knows of a plain access of the thread `i`. -/
structure Silent (s : Memory ι κ θ V D) (i : θ) : Prop where
  views : ∀ j ≠ i, (s.views j).clock i = 0
  messages : ∀ ℓ, ∀ m ∈ s.stores ℓ, m.view.clock i = 0

namespace Silent

variable {s s' : Memory ι κ θ V D} {i j : θ} {x y : κ} {ℓ : ι} {v : V} {o : MemoryOrder} {t : ℕ}

theorem initial {value : ι → V} {cells : κ → D} (i : θ) :
    Silent (Memory.initial κ θ value cells) i where
  views _ _ := rfl
  messages ℓ m hm := by
    simp only [Memory.initial, List.mem_singleton] at hm
    rw [hm]
    rfl

/-- Another thread that reads or writes a cell the silent one has written races. -/
theorem readRaces (h : Silent s i) (hj : j ≠ i) (hw : 0 < s.written x i) : s.ReadRaces j x :=
  ⟨i, by rwa [h.views j hj]⟩

theorem writeRaces (h : Silent s i) (hj : j ≠ i) (hw : 0 < s.written x i ∨ 0 < s.read x i) :
    s.WriteRaces j x := ⟨i, by rwa [h.views j hj]⟩

section Threads

variable [DecidableEq θ]

theorem setView (h : Silent s i) {w : View ι θ} (hw : j ≠ i → w.clock i = 0) :
    Silent (s.setView j w) i where
  views k hk := by
    rcases eq_or_ne k j with rfl | hne
    · rw [Memory.setView_self]
      exact hw hk
    · rw [Memory.setView_of_ne hne]
      exact h.views k hk
  messages := h.messages

section Cells

variable [DecidableEq κ]

theorem readCell (h : Silent s i) : Silent (s.readCell j x) i := by
  have hview : Silent (s.setView j ((s.views j).tick j)) i := h.setView fun hj => by
    rw [View.tick_clock_of_ne hj.symm, h.views j hj]
  exact ⟨hview.views, hview.messages⟩

theorem writeCell (h : Silent s i) {d : D} : Silent (s.writeCell j x d) i := by
  have hview : Silent (s.setView j ((s.views j).tick j)) i := h.setView fun hj => by
    rw [View.tick_clock_of_ne hj.symm, h.views j hj]
  exact ⟨hview.views, hview.messages⟩

end Cells

end Threads

section Locations

variable [DecidableEq ι]

theorem addStore (h : Silent s i) {m : Message ι θ V} (hm : m.view.clock i = 0) :
    Silent (s.addStore ℓ m) i where
  views := h.views
  messages ℓ' m' hm' := by
    rcases eq_or_ne ℓ' ℓ with rfl | hne
    · rw [Memory.addStore_self, List.mem_cons] at hm'
      rcases hm' with rfl | hm'
      · exact hm
      · exact h.messages ℓ' m' hm'
    · rw [Memory.addStore_of_ne hne] at hm'
      exact h.messages ℓ' m' hm'

variable [DecidableEq θ]

theorem load (h : Silent s i) (hl : s.load o j ℓ t = some (v, s')) : Silent s' i := by
  unfold Memory.load at hl
  split at hl
  · cases hl
  · rename_i m hm
    split_ifs at hl
    simp only [Option.some.injEq, Prod.mk.injEq] at hl
    obtain ⟨rfl, rfl⟩ := hl
    exact h.setView fun hj => View.receive_clock_eq_zero (h.views j hj)
      (h.messages ℓ m (Memory.mem_of_message hm).1)

theorem store (h : Silent s i) (ho : j = i → o.releases = false)
    (hs : s.store o j ℓ v t = some s') : Silent s' i := by
  unfold Memory.store at hs
  split_ifs at hs
  obtain rfl := Option.some.inj hs
  refine (h.addStore (View.send_clock_eq_zero fun hrel => ?_)).setView (h.views j)
  refine h.views j fun hj => ?_
  rw [ho hj] at hrel
  cases hrel

theorem fetchModify (h : Silent s i) (ho : j = i → o.releases = false) {f : V → V}
    (hs : s.fetchModify o j ℓ f t = some (v, s')) : Silent s' i := by
  unfold Memory.fetchModify at hs
  split at hs
  · cases hs
  · rename_i m hm
    split_ifs at hs
    simp only [Option.some.injEq, Prod.mk.injEq] at hs
    obtain ⟨rfl, rfl⟩ := hs
    have hmessage := h.messages ℓ m (Memory.mem_of_message hm).1
    have hview : j ≠ i → (((s.views j).see ℓ (t + 1)).receive o m.view).clock i = 0 := fun hj =>
      View.receive_clock_eq_zero (h.views j hj) hmessage
    refine (h.addStore ?_).setView hview
    change max ((View.send _ o).clock i) (m.view.clock i) = 0
    rw [hmessage, max_eq_left (Nat.zero_le _)]
    refine View.send_clock_eq_zero fun hrel => hview fun hj => ?_
    rw [ho hj] at hrel
    cases hrel

end Locations

end Silent

/-! ## Accesses that were made -/

namespace Memory

variable [DecidableEq κ] [DecidableEq θ] {s : Memory ι κ θ V D} {i j : θ} {x y : κ} {d : D}

theorem readCell_read_pos : 0 < (s.readCell i x).read x i := by simp [readCell]

theorem writeCell_written_pos : 0 < (s.writeCell i x d).written x i := by simp [writeCell]

/-- Accesses are not forgotten. -/
theorem read_pos_readCell (h : 0 < s.read x i) : 0 < (s.readCell j y).read x i := by
  rcases eq_or_ne x y with rfl | hne
  · rcases eq_or_ne i j with rfl | hij
    · exact readCell_read_pos
    · rwa [readCell_read_self, if_neg hij]
  · rwa [readCell_read_of_ne hne]

theorem written_pos_writeCell (h : 0 < s.written x i) : 0 < (s.writeCell j y d).written x i := by
  rcases eq_or_ne x y with rfl | hne
  · rcases eq_or_ne i j with rfl | hij
    · exact writeCell_written_pos
    · rwa [writeCell_written_self, if_neg hij]
  · rwa [writeCell_written_of_ne hne]

end Memory

end ReleaseAcquire
