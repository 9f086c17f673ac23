import Ihft.Lib.HandOver

/-!
# Cells shared until a counter has run down

A plain cell with one writer and several readers.  The writer marks it with a stamp that the readers
await, and sets a counter of the readers that still need the cell; every reader takes itself off
the counter when it is done, and the writer waits until the counter is empty.  The stores of a round
of the counter follow each other without a gap, so a read-modify-write reads the last one, and the
view of the last one holds what all readers that are done have sent along.

`CountedDown` is what the two locations need for that, whatever the orders of the accesses to the
counter are.  `SharedCell` adds the cell, which needs the orders.
-/

namespace ReleaseAcquire

variable {ι κ θ V D : Type*}

/-- Where a round of the cell stands: whether the writer is at work, which readers still need the
cell, which of them have entered it, the latest stamp and counter, and the time from which the
counter belongs to the round. -/
@[ext] structure Round (θ V : Type*) where
  writing : Prop
  pending : θ → Prop
  reading : θ → Prop
  stamp : V
  left : V
  base : ℕ

namespace Round

variable (p : Round θ V)

/-- The writer has found the counter empty. -/
def take : Round θ V := { p with writing := True }

/-- The writer sets the counter for the readers in `pending`. -/
def arm (pending : θ → Prop) (left : V) (t : ℕ) : Round θ V :=
  { p with pending := pending, left := left, base := t }

/-- The writer sets the stamp. -/
def publish (stamp : V) : Round θ V := { p with writing := False, stamp := stamp }

/-- A reader has found the stamp it awaits. -/
def enter (i : θ) : Round θ V := { p with reading := fun j => p.reading j ∨ j = i }

/-- A reader is done. -/
def leave (i : θ) (left : V) : Round θ V :=
  { p with
    pending := fun j => p.pending j ∧ j ≠ i
    reading := fun j => p.reading j ∧ j ≠ i
    left := left }

end Round

/-! ## The two locations -/

/-- The writer `w` awaits the empty counter. -/
def awaitsEmpty (w : θ) (empty : V) (i : θ) (v : V) : Prop := i = w ∧ v = empty

/-- The stamp `ℓ` and the counter `c` of a cell in the round `p`. -/
structure CountedDown (s : Memory ι κ θ V D) (ℓ c : ι) (w : θ) (empty : V) (awaits : θ → V → Prop)
    (p : Round θ V) : Prop where
  stamp : Signals s ℓ p.stamp awaits
  left : Signals s c p.left (awaitsEmpty w empty)
  contiguous : s.Contiguous c p.base
  stamped : s.UpToDate w ℓ
  published : ¬ p.writing → (∃ i, p.pending i) → ∀ m, s.IsLatest ℓ m → p.base ≤ m.view.seen c
  writing : p.writing → s.UpToDate w c
  reading : ∀ i, p.reading i → p.base ≤ (s.views i).seen c

namespace CountedDown

variable {s s' : Memory ι κ θ V D} {ℓ c ℓ' : ι} {w i : θ} {empty v : V}
  {awaits awaits' : θ → V → Prop} {p : Round θ V}

theorem initial {value : ι → V} {cells : κ → D} (h : value c = empty) (w : θ)
    (awaits : θ → V → Prop) : CountedDown (Memory.initial κ θ value cells) ℓ c w empty awaits
      ⟨False, fun _ => False, fun _ => False, value ℓ, empty, 0⟩ where
  stamp := .initial ℓ awaits
  left := by
    rw [← h]
    exact .initial c _
  contiguous := by
    refine ⟨fun _ _ => Nat.zero_le _, fun m hm _ => .inl ⟨hm, fun m' hm' => ?_⟩⟩
    simp only [Memory.initial, List.mem_singleton] at hm hm'
    rw [hm, hm']
  stamped m hm := by
    simp only [Memory.initial, List.mem_singleton] at hm
    rw [hm]
    exact Nat.zero_le _
  published _ hi := by simp at hi
  writing h := h.elim
  reading _ h := h.elim

/-- Whatever leaves the locations alone, while views may grow. -/
theorem frame (h : CountedDown s ℓ c w empty awaits p) (hℓ : s'.stores ℓ = s.stores ℓ)
    (hc : s'.stores c = s.stores c) (hviews : ∀ j, s.views j ≤ s'.views j) :
    CountedDown s' ℓ c w empty awaits p where
  stamp := h.stamp.frame hℓ hviews
  left := h.left.frame hc hviews
  contiguous := h.contiguous.congr hc
  stamped := h.stamped.congr hℓ (hviews w)
  published hw hi m hm := h.published hw hi m ((Memory.isLatest_congr hℓ).1 hm)
  writing hw := (h.writing hw).congr hc (hviews w)
  reading j hj := (h.reading j hj).trans (View.seen_le (hviews j) c)

/-- Less may be awaited. -/
theorem mono (h : CountedDown s ℓ c w empty awaits p)
    (hawaits : ∀ j v, awaits' j v → awaits j v) : CountedDown s ℓ c w empty awaits' p :=
  { h with stamp := h.stamp.mono fun j => .inr (hawaits j) }

section Cells

variable [DecidableEq κ] [DecidableEq θ] {x : κ} {d : D}

theorem readCell (h : CountedDown s ℓ c w empty awaits p) :
    CountedDown (s.readCell i x) ℓ c w empty awaits p := h.frame rfl rfl Memory.le_readCell

theorem writeCell (h : CountedDown s ℓ c w empty awaits p) :
    CountedDown (s.writeCell i x d) ℓ c w empty awaits p := h.frame rfl rfl Memory.le_writeCell

end Cells

variable [DecidableEq ι] [DecidableEq θ] {o : MemoryOrder} {t : ℕ}

theorem load (h : CountedDown s ℓ c w empty awaits p) (hl : s.load o i ℓ' t = some (v, s')) :
    CountedDown s' ℓ c w empty awaits p := by
  have hstores := Memory.load_stores hl
  exact h.frame (congrFun hstores ℓ) (congrFun hstores c) (Memory.load_keeps hl).views

theorem store_of_ne (h : CountedDown s ℓ c w empty awaits p) (hℓ : ℓ ≠ ℓ') (hc : c ≠ ℓ')
    (hs : s.store o i ℓ' v t = some s') : CountedDown s' ℓ c w empty awaits p :=
  h.frame (Memory.store_stores_of_ne hs hℓ) (Memory.store_stores_of_ne hs hc)
    (Memory.store_keeps hs).views

theorem fetchModify_of_ne (h : CountedDown s ℓ c w empty awaits p) (hℓ : ℓ ≠ ℓ') (hc : c ≠ ℓ')
    {f : V → V} (hs : s.fetchModify o i ℓ' f t = some (v, s')) :
    CountedDown s' ℓ c w empty awaits p :=
  h.frame (Memory.fetchModify_stores_of_ne hs hℓ) (Memory.fetchModify_stores_of_ne hs hc)
    (Memory.fetchModify_keeps hs).views

/-- The writer that loads an empty counter may begin. -/
theorem take (h : CountedDown s ℓ c w empty awaits p)
    (hl : s.load o w c t = some (empty, s')) : empty = p.left ∧
      CountedDown s' ℓ c w empty awaits p.take ∧
      ∃ m, s.IsLatest c m ∧ (o.acquires → m.view ≤ s'.views w) := by
  obtain ⟨hvalue, m, hm, hupToDate, hview⟩ := h.left.load hl ⟨rfl, rfl⟩
  have h' := h.load hl
  refine ⟨hvalue, ?_, m, hm, hview⟩
  exact ⟨h'.stamp, h'.left, h'.contiguous, h'.stamped, fun hw => absurd trivial hw,
    fun _ => hupToDate, h'.reading⟩

/-- The writer sets the counter while nobody reads. -/
theorem arm (h : CountedDown s ℓ c w empty awaits p) (hne : ℓ ≠ c) (hw : p.writing)
    (hnone : ∀ j, ¬ p.reading j) (hs : s.store o w c v t = some s') (pending : θ → Prop) :
    CountedDown s' ℓ c w empty awaits (p.arm pending v t) := by
  have hawaits : ∀ j ≠ w, ∀ v', awaitsEmpty w empty j v' →
      awaitsEmpty w empty j v' ∧ v' ≠ p.left := fun j hj v' ha => absurd ha.1 hj
  obtain ⟨hleft, hupToDate, hcontiguous, -⟩ := h.left.store hs (h.writing hw) hawaits
  have hstores := Memory.store_stores_of_ne hs hne
  have hviews := (Memory.store_keeps hs).views
  exact ⟨h.stamp.frame hstores hviews, hleft, hcontiguous, h.stamped.congr hstores (hviews w),
    fun hnw => absurd hw hnw, fun _ => hupToDate, fun j hj => absurd hj (hnone j)⟩

/-- The writer sets the stamp.  Nobody awaits the stamp it replaces. -/
theorem publish (h : CountedDown s ℓ c w empty awaits p) (hne : ℓ ≠ c) (hw : p.writing)
    (hs : s.store .release w ℓ v t = some s')
    (hawaits : ∀ j ≠ w, ∀ v', awaits' j v' → awaits j v' ∧ v' ≠ p.stamp) :
    CountedDown s' ℓ c w empty awaits' (p.publish v) ∧
      ∀ m, s'.IsLatest ℓ m → m.view = s'.views w := by
  obtain ⟨hstamp, hupToDate, -, hlatest⟩ := h.stamp.store hs h.stamped hawaits
  have hstores := Memory.store_stores_of_ne hs hne.symm
  have hviews := (Memory.store_keeps hs).views
  obtain ⟨last, hlast⟩ := h.left.latest
  have hbase : p.base ≤ (s'.views w).seen c := by
    refine (h.contiguous.base_le last hlast).trans ?_
    exact ((h.writing hw) last hlast.1).trans (View.seen_le (hviews w) c)
  refine ⟨⟨hstamp, h.left.frame hstores hviews, h.contiguous.congr hstores, hupToDate,
    fun _ _ m hm => ?_, fun hw' => hw'.elim,
    fun j hj => (h.reading j hj).trans (View.seen_le (hviews j) c)⟩,
    fun m hm => (hlatest m hm).2 rfl⟩
  rw [(hlatest m hm).2 rfl]
  exact hbase

/-- A load of an awaited stamp returned the latest one. -/
theorem eq_of_load (h : CountedDown s ℓ c w empty awaits p)
    (hl : s.load o i ℓ t = some (v, s')) (hv : awaits i v) : v = p.stamp :=
  (h.stamp.load hl hv).1

/-- A reader that loads the stamp it awaits enters; it may await something else next. -/
theorem enter (h : CountedDown s ℓ c w empty awaits p) (hw : ¬ p.writing) (hi : p.pending i)
    (hl : s.load .acquire i ℓ t = some (v, s')) (hv : awaits i v)
    (hawaits : ∀ j ≠ i, ∀ v, awaits' j v → awaits j v) :
    CountedDown s' ℓ c w empty awaits' (p.enter i) ∧
      ∃ m, s.IsLatest ℓ m ∧ m.view ≤ s'.views i := by
  obtain ⟨-, m, hm, hupToDate, hview⟩ := h.stamp.load hl hv
  have h' := h.load hl
  refine ⟨{ h' with stamp := h'.stamp.mono fun j => ?_, reading := fun j hj => ?_ }, m, hm,
    hview rfl⟩
  · rcases eq_or_ne j i with rfl | hne
    · exact .inl hupToDate
    · exact .inr (hawaits j hne)
  · rcases hj with hj | rfl
    · exact h'.reading j hj
    · exact (h.published hw ⟨j, hi⟩ m hm).trans (View.seen_le (hview rfl) c)

/-- A reader takes itself off the counter.  It modifies the latest value, and passes on what the
view of the latest store held. -/
theorem leave (h : CountedDown s ℓ c w empty awaits p) (hne : ℓ ≠ c) (hi : p.reading i)
    (hw : ¬ p.writing) (hleft : p.left ≠ empty) {f : V → V}
    (hs : s.fetchModify o i c f t = some (v, s')) : v = p.left ∧
      CountedDown s' ℓ c w empty awaits (p.leave i (f p.left)) ∧ s'.UpToDate i c ∧
      ∃ m, s.IsLatest c m ∧ ∀ m', s'.IsLatest c m' →
        m.view ≤ m'.view ∧ (o.releases → s'.views i ≤ m'.view) := by
  obtain ⟨m, hm, rfl, view, view', heq, hle, htime, hpass, hsend⟩ :=
    h.contiguous.fetchModify (h.reading i hi) hs
  have hvalue := h.left.value_eq m hm
  have hlater : ∀ m' ∈ s.stores c, m'.time < m.time + 1 := fun m' hm' =>
    Nat.lt_succ_of_le (hm.2 m' hm')
  have hstores := Memory.fetchModify_stores_of_ne hs hne
  have hviews := (Memory.fetchModify_keeps hs).views
  have hlatest : ∀ m', s'.IsLatest c m' ↔ m' = ⟨m.time + 1, f m.value, view'⟩ := fun m' => by
    rw [heq]
    exact (Memory.isLatest_congr rfl).trans (Memory.isLatest_addStore hlater)
  have hawaits : ∀ j ≠ i, ∀ v', awaitsEmpty w empty j v' →
      awaitsEmpty w empty j v' ∧ v' ≠ p.left := fun j _ v' ha => ⟨ha, by rw [ha.2]; exact hleft.symm⟩
  have hpush := h.left.push (m := ⟨m.time + 1, f m.value, view'⟩) hlater hle htime hawaits
  have hcontiguous := h.contiguous.addStore (m := ⟨m.time + 1, f m.value, view'⟩) hm rfl
  refine ⟨hvalue, ⟨h.stamp.frame hstores hviews, ?_, ?_, h.stamped.congr hstores (hviews w),
    fun hw' hj m' hm' => ?_, fun hw' => absurd hw' hw, fun j hj => ?_⟩, ?_, m, hm, fun m' hm' => ?_⟩
  · rw [heq, ← hvalue]
    exact hpush
  · rw [heq]
    exact hcontiguous.congr rfl
  · obtain ⟨j, hj⟩ := hj
    exact h.published hw' ⟨j, hj.1⟩ m' ((Memory.isLatest_congr hstores).1 hm')
  · exact (h.reading j hj.1).trans (View.seen_le (hviews j) c)
  · refine ((hlatest _).2 rfl).upToDate ?_
    rw [heq, Memory.setView_self]
    exact htime
  · rw [(hlatest m').1 hm', heq, Memory.setView_self]
    exact ⟨hpass, hsend⟩

/-- Whoever has seen all stores of the counter may set it to the empty mark, once nobody needs the
cell any more. -/
theorem clear (h : CountedDown s ℓ c w empty awaits p) (hne : ℓ ≠ c) (hw : ¬ p.writing)
    (hpending : ∀ j, ¬ p.pending j) (hreading : ∀ j, ¬ p.reading j) (hleft : p.left ≠ empty)
    (hi : s.UpToDate i c) (hs : s.store o i c empty t = some s') :
    CountedDown s' ℓ c w empty awaits (p.arm p.pending empty t) := by
  have hawaits : ∀ j ≠ i, ∀ v', awaitsEmpty w empty j v' →
      awaitsEmpty w empty j v' ∧ v' ≠ p.left := fun j _ v' ha => ⟨ha, by rw [ha.2]; exact hleft.symm⟩
  obtain ⟨hempty, -, hcontiguous, -⟩ := h.left.store hs hi hawaits
  have hstores := Memory.store_stores_of_ne hs hne
  have hviews := (Memory.store_keeps hs).views
  exact ⟨h.stamp.frame hstores hviews, hempty, hcontiguous, h.stamped.congr hstores (hviews w),
    fun _ ⟨j, hj⟩ => absurd hj (hpending j), fun hw' => absurd hw' hw,
    fun j hj => absurd hj (hreading j)⟩

end CountedDown

/-! ## The cell -/

/-- The cell `x` behind a stamp and a counter: everybody knows its own accesses, the writer those of
the readers that are done, and the readers those of the writer. -/
structure SharedCell (s : Memory ι κ θ V D) (ℓ c : ι) (x : κ) (w : θ) (empty : V)
    (awaits : θ → V → Prop) (p : Round θ V) : Prop
    extends CountedDown s ℓ c w empty awaits p where
  ownReads : ∀ i, s.read x i ≤ (s.views i).clock i
  ownWrites : s.WritesKnown (s.views w) x
  released : ∀ m, s.IsLatest c m → ∀ i ≠ w, ¬ p.pending i → s.read x i ≤ m.view.clock i
  carried : ¬ p.writing → (∃ i, p.pending i) → ∀ m, s.IsLatest ℓ m → s.WritesKnown m.view x
  exclusive : p.writing → s.Known (s.views w) x ∧ ∀ i, ¬ p.reading i
  shared : ∀ i, p.reading i → i ≠ w ∧ p.pending i ∧ s.WritesKnown (s.views i) x

namespace SharedCell

variable {s s' : Memory ι κ θ V D} {ℓ c ℓ' : ι} {x y : κ} {w i : θ} {empty v : V}
  {awaits awaits' : θ → V → Prop} {p : Round θ V}

theorem initial {value : ι → V} {cells : κ → D} (h : value c = empty) (x : κ) (w : θ)
    (awaits : θ → V → Prop) : SharedCell (Memory.initial κ θ value cells) ℓ c x w empty awaits
      ⟨False, fun _ => False, fun _ => False, value ℓ, empty, 0⟩ where
  toCountedDown := .initial h w awaits
  ownReads _ := Nat.zero_le _
  ownWrites _ := Nat.zero_le _
  released _ _ _ _ _ := Nat.zero_le _
  carried _ _ _ _ _ := Nat.zero_le _
  exclusive h := h.elim
  shared _ h := h.elim

/-- Whatever leaves the locations and the cell alone, while views may grow. -/
theorem frame (h : SharedCell s ℓ c x w empty awaits p) (hℓ : s'.stores ℓ = s.stores ℓ)
    (hc : s'.stores c = s.stores c) (hviews : ∀ j, s.views j ≤ s'.views j)
    (hwritten : s'.written x = s.written x) (hread : s'.read x = s.read x) :
    SharedCell s' ℓ c x w empty awaits p := by
  have hwrites : ∀ {u u'}, u ≤ u' → s.WritesKnown u x → s'.WritesKnown u' x := fun hle hk j => by
    rw [hwritten]
    exact hk.mono hle j
  have hknown : ∀ {u u'}, u ≤ u' → s.Known u x → s'.Known u' x := fun hle hk j => by
    rw [hwritten, hread]
    exact hk.mono hle j
  refine ⟨h.toCountedDown.frame hℓ hc hviews, fun j => ?_, hwrites (hviews w) h.ownWrites,
    fun m hm j hj hp => ?_, fun hw hj m hm => ?_, fun hw => ?_, fun j hj => ?_⟩
  · rw [hread]
    exact (h.ownReads j).trans (View.clock_le (hviews j) j)
  · rw [hread]
    exact h.released m ((Memory.isLatest_congr hc).1 hm) j hj hp
  · exact hwrites le_rfl (h.carried hw hj m ((Memory.isLatest_congr hℓ).1 hm))
  · exact ⟨hknown (hviews w) (h.exclusive hw).1, (h.exclusive hw).2⟩
  · obtain ⟨hjw, hp, hk⟩ := h.shared j hj
    exact ⟨hjw, hp, hwrites (hviews j) hk⟩

/-- Less may be awaited. -/
theorem mono (h : SharedCell s ℓ c x w empty awaits p)
    (hawaits : ∀ j v, awaits' j v → awaits j v) : SharedCell s ℓ c x w empty awaits' p :=
  { h with toCountedDown := h.toCountedDown.mono hawaits }

section Atomics

variable [DecidableEq ι] [DecidableEq θ] {o : MemoryOrder} {t : ℕ}

theorem load (h : SharedCell s ℓ c x w empty awaits p) (hl : s.load o i ℓ' t = some (v, s')) :
    SharedCell s' ℓ c x w empty awaits p := by
  have hstores := Memory.load_stores hl
  obtain ⟨hviews, -, hwritten, hread⟩ := Memory.load_keeps hl
  exact h.frame (congrFun hstores ℓ) (congrFun hstores c) hviews (congrFun hwritten x)
    (congrFun hread x)

theorem store_of_ne (h : SharedCell s ℓ c x w empty awaits p) (hℓ : ℓ ≠ ℓ') (hc : c ≠ ℓ')
    (hs : s.store o i ℓ' v t = some s') : SharedCell s' ℓ c x w empty awaits p := by
  obtain ⟨hviews, -, hwritten, hread⟩ := Memory.store_keeps hs
  exact h.frame (Memory.store_stores_of_ne hs hℓ) (Memory.store_stores_of_ne hs hc) hviews
    (congrFun hwritten x) (congrFun hread x)

theorem fetchModify_of_ne (h : SharedCell s ℓ c x w empty awaits p) (hℓ : ℓ ≠ ℓ') (hc : c ≠ ℓ')
    {f : V → V} (hs : s.fetchModify o i ℓ' f t = some (v, s')) :
    SharedCell s' ℓ c x w empty awaits p := by
  obtain ⟨hviews, -, hwritten, hread⟩ := Memory.fetchModify_keeps hs
  exact h.frame (Memory.fetchModify_stores_of_ne hs hℓ) (Memory.fetchModify_stores_of_ne hs hc)
    hviews (congrFun hwritten x) (congrFun hread x)

/-- The writer that acquires an empty counter owns the cell. -/
theorem take (h : SharedCell s ℓ c x w empty awaits p)
    (hnone : empty = p.left → ∀ j, ¬ p.pending j)
    (hl : s.load .acquire w c t = some (empty, s')) : empty = p.left ∧
      SharedCell s' ℓ c x w empty awaits p.take := by
  obtain ⟨hvalue, htake, m, hm, hview⟩ := h.toCountedDown.take hl
  have hpending := hnone hvalue
  have h' := h.load hl
  refine ⟨hvalue, htake, h'.ownReads, h'.ownWrites, h'.released, fun hw => absurd trivial hw,
    fun _ => ⟨fun j => ⟨h'.ownWrites j, ?_⟩, fun j hj => hpending j (h.shared j hj).2.1⟩,
    h'.shared⟩
  rcases eq_or_ne j w with rfl | hne
  · exact h'.ownReads j
  · rw [(Memory.load_keeps hl).read]
    exact (h.released m hm j hne (hpending j)).trans (View.clock_le (hview rfl) j)

/-- The writer sets the counter, with any order; every reader needs the cell then. -/
theorem arm (h : SharedCell s ℓ c x w empty awaits p) (hne : ℓ ≠ c) (hw : p.writing)
    (hs : s.store o w c v t = some s') {pending : θ → Prop} (hall : ∀ j ≠ w, pending j) :
    SharedCell s' ℓ c x w empty awaits (p.arm pending v t) := by
  obtain ⟨hknown, hnone⟩ := h.exclusive hw
  obtain ⟨hviews, -, hwritten, hread⟩ := Memory.store_keeps hs
  refine ⟨h.toCountedDown.arm hne hw hnone hs pending, fun j => ?_, fun j => ?_,
    fun m _ j hj hp => absurd (hall j hj) hp, fun hnw => absurd hw hnw,
    fun _ => ⟨fun j => ?_, hnone⟩, fun j hj => absurd hj (hnone j)⟩
  · rw [hread]
    exact (h.ownReads j).trans (View.clock_le (hviews j) j)
  · rw [hwritten]
    exact h.ownWrites.mono (hviews w) j
  · rw [hwritten, hread]
    exact hknown.mono (hviews w) j

/-- The writer hands the cell to the readers. -/
theorem publish (h : SharedCell s ℓ c x w empty awaits p) (hne : ℓ ≠ c) (hw : p.writing)
    (hs : s.store .release w ℓ v t = some s')
    (hawaits : ∀ j ≠ w, ∀ v', awaits' j v' → awaits j v' ∧ v' ≠ p.stamp) :
    SharedCell s' ℓ c x w empty awaits' (p.publish v) := by
  obtain ⟨hpublish, hview⟩ := h.toCountedDown.publish hne hw hs hawaits
  obtain ⟨hknown, hnone⟩ := h.exclusive hw
  obtain ⟨hviews, -, hwritten, hread⟩ := Memory.store_keeps hs
  have hstores := Memory.store_stores_of_ne hs hne.symm
  have hwrites : s'.WritesKnown (s'.views w) x := fun j => by
    rw [hwritten]
    exact h.ownWrites.mono (hviews w) j
  refine ⟨hpublish, fun j => ?_, hwrites, fun m hm j hj hp => ?_, fun _ _ m hm => ?_,
    fun hw' => hw'.elim, fun j hj => absurd hj (hnone j)⟩
  · rw [hread]
    exact (h.ownReads j).trans (View.clock_le (hviews j) j)
  · rw [hread]
    exact h.released m ((Memory.isLatest_congr hstores).1 hm) j hj hp
  · rw [hview m hm]
    exact hwrites

/-- A reader that acquires the stamp it awaits may read the cell. -/
theorem enter (h : SharedCell s ℓ c x w empty awaits p) (hw : ¬ p.writing) (hiw : i ≠ w)
    (hi : p.pending i) (hl : s.load .acquire i ℓ t = some (v, s')) (hv : awaits i v)
    (hawaits : ∀ j ≠ i, ∀ v, awaits' j v → awaits j v) :
    SharedCell s' ℓ c x w empty awaits' (p.enter i) := by
  obtain ⟨henter, m, hm, hview⟩ := h.toCountedDown.enter hw hi hl hv hawaits
  have h' := h.load hl
  refine ⟨henter, h'.ownReads, h'.ownWrites, h'.released, h'.carried, fun hw' => absurd hw' hw,
    fun j hj => ?_⟩
  rcases hj with hj | rfl
  · exact h'.shared j hj
  · refine ⟨hiw, hi, fun k => ?_⟩
    rw [(Memory.load_keeps hl).written]
    exact (h.carried hw ⟨j, hi⟩ m hm).mono hview k

/-- A reader is done and takes itself off the counter. -/
theorem leave (h : SharedCell s ℓ c x w empty awaits p) (hne : ℓ ≠ c) (hi : p.reading i)
    (hleft : p.left ≠ empty) {f : V → V}
    (hs : s.fetchModify .release i c f t = some (v, s')) :
    SharedCell s' ℓ c x w empty awaits (p.leave i (f p.left)) := by
  obtain ⟨hiw, -, -⟩ := h.shared i hi
  have hw : ¬ p.writing := fun hw => (h.exclusive hw).2 i hi
  obtain ⟨-, hleave, -, m, hm, hpass⟩ := h.toCountedDown.leave hne hi hw hleft hs
  obtain ⟨hviews, -, hwritten, hread⟩ := Memory.fetchModify_keeps hs
  have hstores := Memory.fetchModify_stores_of_ne hs hne
  have hown : ∀ j, s'.read x j ≤ (s'.views j).clock j := fun j => by
    rw [hread]
    exact (h.ownReads j).trans (View.clock_le (hviews j) j)
  have hwrites : ∀ {u u'}, u ≤ u' → s.WritesKnown u x → s'.WritesKnown u' x := fun hle hk j => by
    rw [hwritten]
    exact hk.mono hle j
  refine ⟨hleave, hown, hwrites (hviews w) h.ownWrites, fun m' hm' j hj hp => ?_,
    fun _ ⟨j, hj⟩ m' hm' => ?_, fun hw' => absurd hw' hw, fun j hj => ?_⟩
  · obtain ⟨hold, hnew⟩ := hpass m' hm'
    by_cases hpj : p.pending j
    · obtain rfl : j = i := by
        by_contra hji
        exact hp ⟨hpj, hji⟩
      exact (hown j).trans (View.clock_le (hnew rfl) j)
    · rw [hread]
      exact (h.released m hm j hj hpj).trans (View.clock_le hold j)
  · exact hwrites le_rfl (h.carried hw ⟨j, hj.1⟩ m' ((Memory.isLatest_congr hstores).1 hm'))
  · obtain ⟨hjw, hp, hk⟩ := h.shared j hj.1
    exact ⟨hjw, ⟨hp, hj.2⟩, hwrites (hviews j) hk⟩

end Atomics

section Cells

variable [DecidableEq κ] [DecidableEq θ] {d : D}

theorem readCell_of_ne (h : SharedCell s ℓ c x w empty awaits p) (hne : x ≠ y) :
    SharedCell (s.readCell i y) ℓ c x w empty awaits p :=
  h.frame rfl rfl Memory.le_readCell rfl (Memory.readCell_read_of_ne hne)

theorem writeCell_of_ne (h : SharedCell s ℓ c x w empty awaits p) (hne : x ≠ y) :
    SharedCell (s.writeCell i y d) ℓ c x w empty awaits p :=
  h.frame rfl rfl Memory.le_writeCell (Memory.writeCell_written_of_ne hne) rfl

/-- A reader inside may read the cell, together with the others. -/
theorem readCell (h : SharedCell s ℓ c x w empty awaits p) (hi : p.reading i) :
    ¬ s.ReadRaces i x ∧ SharedCell (s.readCell i x) ℓ c x w empty awaits p := by
  obtain ⟨hiw, hp, hk⟩ := h.shared i hi
  have hw : ¬ p.writing := fun hw => (h.exclusive hw).2 i hi
  have hviews : ∀ j, s.views j ≤ (s.readCell i x).views j := Memory.le_readCell
  have hread : ∀ j ≠ i, (s.readCell i x).read x j = s.read x j := fun j hj => by
    rw [Memory.readCell_read_self, if_neg hj]
  refine ⟨hk.not_readRaces, h.toCountedDown.frame rfl rfl hviews, fun j => ?_,
    h.ownWrites.mono (hviews w), fun m hm j hj hpj => ?_, fun _ hj m hm => h.carried hw hj m hm,
    fun hw' => absurd hw' hw, fun j hj => ?_⟩
  · rcases eq_or_ne j i with rfl | hne
    · rw [Memory.readCell_read_self, if_pos rfl]
    · rw [hread j hne]
      exact (h.ownReads j).trans (View.clock_le (hviews j) j)
  · have hne : j ≠ i := fun heq => hpj (heq ▸ hp)
    rw [hread j hne]
    exact h.released m hm j hj hpj
  · obtain ⟨hjw, hpj, hkj⟩ := h.shared j hj
    exact ⟨hjw, hpj, hkj.mono (hviews j)⟩

/-- The writer at work may write the cell. -/
theorem writeCell (h : SharedCell s ℓ c x w empty awaits p) (hw : p.writing) (d : D) :
    ¬ s.WriteRaces w x ∧ SharedCell (s.writeCell w x d) ℓ c x w empty awaits p := by
  obtain ⟨hk, hnone⟩ := h.exclusive hw
  have hviews : ∀ j, s.views j ≤ (s.writeCell w x d).views j := Memory.le_writeCell
  have hknown := hk.writeCell d
  refine ⟨hk.not_writeRaces, h.toCountedDown.frame rfl rfl hviews, fun j => ?_,
    hknown.writesKnown, fun m hm j hj hp => h.released m hm j hj hp, fun hnw => absurd hw hnw,
    fun _ => ⟨hknown, hnone⟩, fun j hj => absurd hj (hnone j)⟩
  exact (h.ownReads j).trans (View.clock_le (hviews j) j)

end Cells

end SharedCell

end ReleaseAcquire
