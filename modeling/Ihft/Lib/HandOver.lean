import Ihft.Lib.ReleaseAcquire

/-!
# Cells handed over from thread to thread

What makes waiting on an atomic location work under stale loads is the field `fresh` of `Signals`:
among the stores a thread may still read, only the latest has a value that it `awaits`.

`HandedOver` is the state of a plain cell that is guarded by one such location: a thread waits until
it loads a value it awaits, owns the cell from then on, and hands it over with a release store.
-/

namespace ReleaseAcquire

variable {ι κ θ V D : Type*}

/-- The latest value of the location is `value`, and a thread that loads what it awaits has read the
latest store. -/
structure Signals (s : Memory ι κ θ V D) (ℓ : ι) (value : V) (awaits : θ → V → Prop) : Prop where
  latest : ∃ m, s.IsLatest ℓ m
  value_eq : ∀ m, s.IsLatest ℓ m → m.value = value
  fresh : ∀ i, ∀ m ∈ s.stores ℓ, (s.views i).seen ℓ ≤ m.time → awaits i m.value → s.IsLatest ℓ m

namespace Signals

variable {s s' : Memory ι κ θ V D} {ℓ : ι} {value v : V} {awaits awaits' : θ → V → Prop} {i : θ}

theorem initial {value : ι → V} {cells : κ → D} (ℓ : ι) (awaits : θ → V → Prop) :
    Signals (Memory.initial κ θ value cells) ℓ (value ℓ) awaits where
  latest := ⟨⟨0, value ℓ, ⊥⟩, by simp [Memory.IsLatest, Memory.initial]⟩
  value_eq m hm := by
    obtain ⟨hmem, -⟩ := hm
    simp only [Memory.initial, List.mem_singleton] at hmem
    rw [hmem]
  fresh i m hm _ _ := by
    refine ⟨hm, fun m' hm' => ?_⟩
    simp only [Memory.initial, List.mem_singleton] at hm hm'
    rw [hm, hm']

/-- Whatever leaves the location alone, while views may grow. -/
theorem frame (h : Signals s ℓ value awaits) (hstores : s'.stores ℓ = s.stores ℓ)
    (hviews : ∀ j, s.views j ≤ s'.views j) : Signals s' ℓ value awaits := by
  refine ⟨?_, fun m hm => h.value_eq m ((Memory.isLatest_congr hstores).1 hm),
    fun j m hm hle ha => ?_⟩
  · obtain ⟨m, hm⟩ := h.latest
    exact ⟨m, (Memory.isLatest_congr hstores).2 hm⟩
  · rw [hstores] at hm
    exact (Memory.isLatest_congr hstores).2
      (h.fresh j m hm ((View.seen_le (hviews j) ℓ).trans hle) ha)

/-- Less may be awaited, and a thread that has seen every store may await anything. -/
theorem mono (h : Signals s ℓ value awaits)
    (hawaits : ∀ j, s.UpToDate j ℓ ∨ ∀ v, awaits' j v → awaits j v) :
    Signals s ℓ value awaits' := by
  refine { h with fresh := fun j m hm hle ha => ?_ }
  rcases hawaits j with hj | hj
  · exact ⟨hm, fun m' hm' => (hj m' hm').trans hle⟩
  · exact h.fresh j m hm hle (hj _ ha)

section Operations

variable [DecidableEq ι] [DecidableEq θ] {o : MemoryOrder} {t : ℕ}

/-- A load of an awaited value reads the latest store. -/
theorem load (h : Signals s ℓ value awaits) (hl : s.load o i ℓ t = some (v, s'))
    (hv : awaits i v) : v = value ∧ ∃ m, s.IsLatest ℓ m ∧ s'.UpToDate i ℓ ∧
      (o.acquires → m.view ≤ s'.views i) := by
  obtain ⟨m, hm, rfl, hseen, w, rfl, hle, htime, hview⟩ := Memory.load_eq_some hl
  have hlatest := h.fresh i m hm hseen hv
  refine ⟨h.value_eq m hlatest, m, hlatest, fun m' hm' => ?_, fun ho => ?_⟩
  · rw [Memory.setView_self]
    exact (hlatest.2 m' hm').trans htime
  · rw [Memory.setView_self]
    exact hview ho

/-- A thread adds a message later than all.  Nobody else awaits the value it replaces. -/
theorem push (h : Signals s ℓ value awaits) {m : Message ι θ V} {w : View ι θ}
    (hm : ∀ m' ∈ s.stores ℓ, m'.time < m.time) (hle : s.views i ≤ w) (htime : m.time ≤ w.seen ℓ)
    (hawaits : ∀ j ≠ i, ∀ v', awaits' j v' → awaits j v' ∧ v' ≠ value) :
    Signals ((s.addStore ℓ m).setView i w) ℓ m.value awaits' := by
  have hlatest : ∀ m', ((s.addStore ℓ m).setView i w).IsLatest ℓ m' ↔ m' = m := fun m' =>
    (Memory.isLatest_congr rfl).trans (Memory.isLatest_addStore hm)
  refine ⟨⟨m, (hlatest m).2 rfl⟩, fun m' hm' => by rw [(hlatest m').1 hm'],
    fun j m' hm' hle' ha => ?_⟩
  rw [Memory.setView_stores, Memory.addStore_self, List.mem_cons] at hm'
  rw [hlatest]
  refine hm'.resolve_right fun hold => ?_
  rcases eq_or_ne j i with rfl | hne
  · rw [Memory.setView_self] at hle'
    have := hm m' hold
    omega
  · rw [Memory.setView_of_ne hne] at hle'
    obtain ⟨ha, hne'⟩ := hawaits j hne _ ha
    exact hne' (h.value_eq m' (h.fresh j m' hold hle' ha))

/-- A store by a thread that has seen all others. -/
theorem store (h : Signals s ℓ value awaits) (hs : s.store o i ℓ v t = some s')
    (hi : s.UpToDate i ℓ) (hawaits : ∀ j ≠ i, ∀ v', awaits' j v' → awaits j v' ∧ v' ≠ value) :
    Signals s' ℓ v awaits' ∧ s'.UpToDate i ℓ ∧ s'.Contiguous ℓ t ∧
      ∀ m, s'.IsLatest ℓ m → m.time = t ∧ (o.releases → m.view = s'.views i) := by
  obtain ⟨hlt, w, w', rfl, hle, htime, hw⟩ := Memory.store_eq_some hs
  have hlater : ∀ m' ∈ s.stores ℓ, m'.time < t := fun m' hm' => (hi m' hm').trans_lt hlt
  have hlatest : ∀ m', ((s.addStore ℓ ⟨t, v, w'⟩).setView i w).IsLatest ℓ m' ↔ m' = ⟨t, v, w'⟩ :=
    fun m' => (Memory.isLatest_congr rfl).trans (Memory.isLatest_addStore hlater)
  refine ⟨h.push (m := ⟨t, v, w'⟩) hlater hle htime hawaits, ?_, ?_, fun m hm => ?_⟩
  · refine ((hlatest _).2 rfl).upToDate ?_
    rwa [Memory.setView_self]
  · exact (Memory.contiguous_addStore (m := ⟨t, v, w'⟩) hlater).congr rfl
  · rw [(hlatest m).1 hm, Memory.setView_self]
    exact ⟨rfl, hw⟩

end Operations

end Signals

/-- The cell `x` behind the location `ℓ`: nobody or `owner` holds it. -/
structure HandedOver (s : Memory ι κ θ V D) (ℓ : ι) (x : κ) (owner : Option θ) (value : V)
    (awaits : θ → V → Prop) : Prop extends Signals s ℓ value awaits where
  owned : ∀ i, owner = some i → s.UpToDate i ℓ ∧ s.Known (s.views i) x
  free : owner = none → ∀ m, s.IsLatest ℓ m → s.Known m.view x

namespace HandedOver

variable {s s' : Memory ι κ θ V D} {ℓ ℓ' : ι} {x y : κ} {owner : Option θ} {value : V}
  {awaits awaits' : θ → V → Prop} {i : θ}

theorem initial {value : ι → V} {cells : κ → D}
    (ℓ : ι) (x : κ) (awaits : θ → V → Prop) :
    HandedOver (Memory.initial κ θ value cells) ℓ x none (value ℓ) awaits where
  toSignals := .initial ℓ awaits
  owned i hi := by cases hi
  free _ m _ j := ⟨Nat.zero_le _, Nat.zero_le _⟩

/-- Whatever leaves the location and the cell alone, while views may grow. -/
theorem frame (h : HandedOver s ℓ x owner value awaits) (hstores : s'.stores ℓ = s.stores ℓ)
    (hviews : ∀ j, s.views j ≤ s'.views j) (hwritten : s'.written x = s.written x)
    (hread : s'.read x = s.read x) : HandedOver s' ℓ x owner value awaits := by
  have hknown : ∀ {v w}, v ≤ w → s.Known v x → s'.Known w x := fun hvw hk j => by
    rw [hwritten, hread]
    exact hk.mono hvw j
  refine ⟨h.toSignals.frame hstores hviews, fun j hj => ?_, fun ho m hm => ?_⟩
  · obtain ⟨hupToDate, hk⟩ := h.owned j hj
    exact ⟨hupToDate.congr hstores (hviews j), hknown (hviews j) hk⟩
  · exact hknown le_rfl (h.free ho m ((Memory.isLatest_congr hstores).1 hm))

/-- Less may be awaited. -/
theorem mono (h : HandedOver s ℓ x owner value awaits)
    (hawaits : ∀ j v, awaits' j v → awaits j v) : HandedOver s ℓ x owner value awaits' :=
  { h with toSignals := h.toSignals.mono fun j => .inr (hawaits j) }

section Atomics

variable [DecidableEq ι] [DecidableEq θ] {o : MemoryOrder} {v : V} {t : ℕ}

theorem load (h : HandedOver s ℓ x owner value awaits) (hl : s.load o i ℓ' t = some (v, s')) :
    HandedOver s' ℓ x owner value awaits := by
  obtain ⟨hviews, -, hwritten, hread⟩ := Memory.load_keeps hl
  exact h.frame (congrFun (Memory.load_stores hl) ℓ) hviews (congrFun hwritten x)
    (congrFun hread x)

/-- A load of an awaited value returned the latest one. -/
theorem eq_of_load (h : HandedOver s ℓ x owner value awaits)
    (hl : s.load o i ℓ t = some (v, s')) (hv : awaits i v) : v = value :=
  (h.toSignals.load hl hv).1

/-- An acquire load of an awaited value takes the cell; the thread may await something else next. -/
theorem acquire (h : HandedOver s ℓ x none value awaits) (hl : s.load .acquire i ℓ t = some (v, s'))
    (hv : awaits i v) (hawaits : ∀ j ≠ i, ∀ v, awaits' j v → awaits j v) :
    HandedOver s' ℓ x (some i) value awaits' := by
  obtain ⟨-, m, hm, hupToDate, hview⟩ := h.toSignals.load hl hv
  obtain ⟨hviews, -, hwritten, hread⟩ := Memory.load_keeps hl
  refine ⟨(h.load hl).toSignals.mono fun j => ?_, ?_, by simp⟩
  · rcases eq_or_ne j i with rfl | hne
    · exact .inl hupToDate
    · exact .inr (hawaits j hne)
  · intro j hj
    obtain rfl := Option.some.inj hj
    refine ⟨hupToDate, fun k => ?_⟩
    rw [hwritten, hread]
    exact (h.free rfl m hm).mono (hview rfl) k

theorem store_of_ne (h : HandedOver s ℓ x owner value awaits) (hne : ℓ ≠ ℓ')
    (hs : s.store o i ℓ' v t = some s') : HandedOver s' ℓ x owner value awaits := by
  obtain ⟨hviews, -, hwritten, hread⟩ := Memory.store_keeps hs
  exact h.frame (Memory.store_stores_of_ne hs hne) hviews (congrFun hwritten x)
    (congrFun hread x)

/-- A release store by the owner hands the cell over.  Nobody else awaits the value it replaces. -/
theorem release (h : HandedOver s ℓ x (some i) value awaits)
    (hs : s.store .release i ℓ v t = some s')
    (hawaits : ∀ j ≠ i, ∀ v', awaits' j v' → awaits j v' ∧ v' ≠ value) :
    HandedOver s' ℓ x none v awaits' := by
  obtain ⟨hupToDate, hknown⟩ := h.owned i rfl
  obtain ⟨hsignals, -, -, hlatest⟩ := h.toSignals.store hs hupToDate hawaits
  obtain ⟨hviews, -, hwritten, hread⟩ := Memory.store_keeps hs
  refine ⟨hsignals, by simp, fun _ m hm k => ?_⟩
  rw [(hlatest m hm).2 rfl, hwritten, hread]
  exact hknown.mono (hviews i) k

end Atomics

section Cells

variable [DecidableEq κ] [DecidableEq θ] {d : D}

theorem readCell_of_ne (h : HandedOver s ℓ x owner value awaits) (hne : x ≠ y) :
    HandedOver (s.readCell i y) ℓ x owner value awaits :=
  h.frame rfl Memory.le_readCell rfl (Memory.readCell_read_of_ne hne)

theorem writeCell_of_ne (h : HandedOver s ℓ x owner value awaits) (hne : x ≠ y) :
    HandedOver (s.writeCell i y d) ℓ x owner value awaits :=
  h.frame rfl Memory.le_writeCell (Memory.writeCell_written_of_ne hne) rfl

/-- The owner may read the cell. -/
theorem readCell (h : HandedOver s ℓ x (some i) value awaits) :
    ¬ s.ReadRaces i x ∧ HandedOver (s.readCell i x) ℓ x (some i) value awaits := by
  obtain ⟨hupToDate, hknown⟩ := h.owned i rfl
  refine ⟨hknown.writesKnown.not_readRaces, h.toSignals.frame rfl Memory.le_readCell, ?_, by simp⟩
  intro j hj
  obtain rfl := Option.some.inj hj
  exact ⟨hupToDate.congr rfl (Memory.le_readCell i), hknown.readCell⟩

/-- The owner may write the cell. -/
theorem writeCell (h : HandedOver s ℓ x (some i) value awaits) (d : D) :
    ¬ s.WriteRaces i x ∧ HandedOver (s.writeCell i x d) ℓ x (some i) value awaits := by
  obtain ⟨hupToDate, hknown⟩ := h.owned i rfl
  refine ⟨hknown.not_writeRaces, h.toSignals.frame rfl Memory.le_writeCell, ?_, by simp⟩
  intro j hj
  obtain rfl := Option.some.inj hj
  exact ⟨hupToDate.congr rfl (Memory.le_writeCell i), hknown.writeCell d⟩

end Cells

end HandedOver

end ReleaseAcquire
