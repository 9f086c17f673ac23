import Mathlib.Data.Fintype.Basic
import Mathlib.Logic.Function.Basic
import Mathlib.Order.Lattice
import Mathlib.Tactic

/-!
# Release and acquire

An operational memory for threads `θ` that share atomic locations `ι` and plain cells `κ`.  The
stores of a location are kept as messages with a time, and the times are its modification order.
A thread sees, of every location, the stores up to some time; a load may return any message that
is not older, so it may be stale, and a store may go between two older messages.  A read-modify-write
stores right behind the message it reads.

The view of a thread also counts, for every thread, the plain accesses that happened before.  A
release store sends the view along, an acquire load receives it, and a read-modify-write passes on
the view of the message it reads.  A plain access that conflicts with one that did not happen
before is a data race.  Loads do not read from stores that are yet to come.
-/

namespace ReleaseAcquire

/-- The order of an atomic operation. -/
inductive MemoryOrder
  | relaxed
  | acquire
  | release
  | acqRel
  deriving DecidableEq, Repr

def MemoryOrder.acquires : MemoryOrder → Bool
  | relaxed | release => false
  | acquire | acqRel => true

def MemoryOrder.releases : MemoryOrder → Bool
  | relaxed | acquire => false
  | release | acqRel => true

/-! ## Views -/

/-- What is known: the latest store seen of every location, and how many of the plain accesses of
every thread happened before. -/
@[ext] structure View (ι θ : Type*) where
  seen : ι → ℕ
  clock : θ → ℕ

namespace View

variable {ι θ : Type*}

instance : SemilatticeSup (View ι θ) where
  le v w := v.seen ≤ w.seen ∧ v.clock ≤ w.clock
  le_refl _ := ⟨le_rfl, le_rfl⟩
  le_trans _ _ _ huv hvw := ⟨huv.1.trans hvw.1, huv.2.trans hvw.2⟩
  le_antisymm _ _ hvw hwv := View.ext (le_antisymm hvw.1 hwv.1) (le_antisymm hvw.2 hwv.2)
  sup v w := ⟨v.seen ⊔ w.seen, v.clock ⊔ w.clock⟩
  le_sup_left _ _ := ⟨le_sup_left, le_sup_left⟩
  le_sup_right _ _ := ⟨le_sup_right, le_sup_right⟩
  sup_le _ _ _ hu hv := ⟨sup_le hu.1 hv.1, sup_le hu.2 hv.2⟩

instance : OrderBot (View ι θ) where
  bot := ⟨⊥, ⊥⟩
  bot_le _ := ⟨bot_le, bot_le⟩

variable {v w : View ι θ}

theorem seen_le (h : v ≤ w) (ℓ : ι) : v.seen ℓ ≤ w.seen ℓ := h.1 ℓ

theorem clock_le (h : v ≤ w) (i : θ) : v.clock i ≤ w.clock i := h.2 i

/-- The store at the time `t` was seen. -/
def see [DecidableEq ι] (v : View ι θ) (ℓ : ι) (t : ℕ) : View ι θ :=
  { v with seen := Function.update v.seen ℓ (max (v.seen ℓ) t) }

/-- One more plain access of the thread `i`. -/
def tick [DecidableEq θ] (v : View ι θ) (i : θ) : View ι θ :=
  { v with clock := Function.update v.clock i (v.clock i + 1) }

/-- The view after a load of a message with the view `w`. -/
def receive (v : View ι θ) (o : MemoryOrder) (w : View ι θ) : View ι θ :=
  if o.acquires then v ⊔ w else v

/-- The view that a store sends along. -/
def send (v : View ι θ) (o : MemoryOrder) : View ι θ := if o.releases then v else ⊥

theorem le_receive (v : View ι θ) (o : MemoryOrder) (w : View ι θ) : v ≤ v.receive o w := by
  unfold receive
  split_ifs
  · exact le_sup_left
  · exact le_rfl

theorem le_receive_of_acquires {o : MemoryOrder} (ho : o.acquires) (v w : View ι θ) :
    w ≤ v.receive o w := by
  rw [receive, if_pos ho]
  exact le_sup_right

theorem send_of_releases {o : MemoryOrder} (ho : o.releases) (v : View ι θ) : v.send o = v :=
  if_pos ho

theorem le_see [DecidableEq ι] (v : View ι θ) (ℓ : ι) (t : ℕ) : v ≤ v.see ℓ t := by
  refine ⟨fun ℓ' => ?_, le_rfl⟩
  rcases eq_or_ne ℓ' ℓ with rfl | hne
  · simp [see]
  · simp [see, hne]

theorem time_le_see [DecidableEq ι] (v : View ι θ) (ℓ : ι) (t : ℕ) : t ≤ (v.see ℓ t).seen ℓ := by
  simp [see]

theorem le_tick [DecidableEq θ] (v : View ι θ) (i : θ) : v ≤ v.tick i := by
  refine ⟨le_rfl, fun j => ?_⟩
  rcases eq_or_ne j i with rfl | hne
  · simp [tick]
  · simp [tick, hne]

end View

/-! ## The memory -/

/-- A store, and the view it sends along. -/
structure Message (ι θ V : Type*) where
  time : ℕ
  value : V
  view : View ι θ

/-- The stores of the atomic locations, the views of the threads, the plain cells, and the number
of the last access of every thread to every cell. -/
structure Memory (ι κ θ V D : Type*) where
  stores : ι → List (Message ι θ V)
  views : θ → View ι θ
  cells : κ → D
  written : κ → θ → ℕ
  read : κ → θ → ℕ

namespace Memory

variable {ι κ θ V D : Type*}

/-- Everything was set up before the threads started. -/
def initial (κ θ : Type*) {ι V D : Type*} (value : ι → V) (cells : κ → D) : Memory ι κ θ V D where
  stores ℓ := [⟨0, value ℓ, ⊥⟩]
  views _ := ⊥
  cells := cells
  written _ _ := 0
  read _ _ := 0

/-- The message stored at the time `t`. -/
def message (s : Memory ι κ θ V D) (ℓ : ι) (t : ℕ) : Option (Message ι θ V) :=
  (s.stores ℓ).find? fun m => m.time = t

/-- A plain read by `i` races with a write that did not happen before. -/
def ReadRaces (s : Memory ι κ θ V D) (i : θ) (x : κ) : Prop :=
  ∃ j, (s.views i).clock j < s.written x j

/-- A plain write by `i` races with any access that did not happen before. -/
def WriteRaces (s : Memory ι κ θ V D) (i : θ) (x : κ) : Prop :=
  ∃ j, (s.views i).clock j < s.written x j ∨ (s.views i).clock j < s.read x j

instance [Fintype θ] (s : Memory ι κ θ V D) (i : θ) (x : κ) : Decidable (s.ReadRaces i x) :=
  inferInstanceAs (Decidable (∃ _, _))

instance [Fintype θ] (s : Memory ι κ θ V D) (i : θ) (x : κ) : Decidable (s.WriteRaces i x) :=
  inferInstanceAs (Decidable (∃ _, _))

section Operations

variable [DecidableEq ι] [DecidableEq κ] [DecidableEq θ]

def setView (s : Memory ι κ θ V D) (i : θ) (v : View ι θ) : Memory ι κ θ V D :=
  { s with views := Function.update s.views i v }

def addStore (s : Memory ι κ θ V D) (ℓ : ι) (m : Message ι θ V) : Memory ι κ θ V D :=
  { s with stores := Function.update s.stores ℓ (m :: s.stores ℓ) }

/-- An atomic load that returns the message stored at the time `t`. -/
def load (s : Memory ι κ θ V D) (o : MemoryOrder) (i : θ) (ℓ : ι) (t : ℕ) :
    Option (V × Memory ι κ θ V D) :=
  match s.message ℓ t with
  | none => none
  | some m =>
    if (s.views i).seen ℓ ≤ t then
      some (m.value, s.setView i (((s.views i).see ℓ t).receive o m.view))
    else
      none

/-- An atomic store at the time `t`. -/
def store (s : Memory ι κ θ V D) (o : MemoryOrder) (i : θ) (ℓ : ι) (value : V) (t : ℕ) :
    Option (Memory ι κ θ V D) :=
  if (s.views i).seen ℓ < t ∧ (s.message ℓ t).isNone then
    let view := (s.views i).see ℓ t
    some ((s.addStore ℓ ⟨t, value, view.send o⟩).setView i view)
  else
    none

/-- An atomic read-modify-write of the message stored at the time `t`. -/
def fetchModify (s : Memory ι κ θ V D) (o : MemoryOrder) (i : θ) (ℓ : ι) (f : V → V) (t : ℕ) :
    Option (V × Memory ι κ θ V D) :=
  match s.message ℓ t with
  | none => none
  | some m =>
    if (s.views i).seen ℓ ≤ t ∧ (s.message ℓ (t + 1)).isNone then
      let view := ((s.views i).see ℓ (t + 1)).receive o m.view
      some (m.value, (s.addStore ℓ ⟨t + 1, f m.value, view.send o ⊔ m.view⟩).setView i view)
    else
      none

/-- A plain read; the value is the one in the cell. -/
def readCell (s : Memory ι κ θ V D) (i : θ) (x : κ) : Memory ι κ θ V D :=
  { s.setView i ((s.views i).tick i) with
    read := Function.update s.read x
      (Function.update (s.read x) i ((s.views i).clock i + 1)) }

/-- A plain write. -/
def writeCell (s : Memory ι κ θ V D) (i : θ) (x : κ) (d : D) : Memory ι κ θ V D :=
  { s.setView i ((s.views i).tick i) with
    cells := Function.update s.cells x d
    written := Function.update s.written x
      (Function.update (s.written x) i ((s.views i).clock i + 1)) }

end Operations

/-! ## What an operation leaves behind -/

/-- No message of the location is later. -/
def IsLatest (s : Memory ι κ θ V D) (ℓ : ι) (m : Message ι θ V) : Prop :=
  m ∈ s.stores ℓ ∧ ∀ m' ∈ s.stores ℓ, m'.time ≤ m.time

/-- The thread has seen every store of the location. -/
def UpToDate (s : Memory ι κ θ V D) (i : θ) (ℓ : ι) : Prop :=
  ∀ m ∈ s.stores ℓ, m.time ≤ (s.views i).seen ℓ

/-- From the time `base` on the stores of the location follow each other without a gap. -/
structure Contiguous (s : Memory ι κ θ V D) (ℓ : ι) (base : ℕ) : Prop where
  base_le : ∀ m, s.IsLatest ℓ m → base ≤ m.time
  next : ∀ m ∈ s.stores ℓ, base ≤ m.time →
    s.IsLatest ℓ m ∨ ∃ m' ∈ s.stores ℓ, m'.time = m.time + 1

/-- Every plain write of the cell happened before the view. -/
def WritesKnown (s : Memory ι κ θ V D) (v : View ι θ) (x : κ) : Prop :=
  ∀ j, s.written x j ≤ v.clock j

/-- Every plain access to the cell happened before the view. -/
def Known (s : Memory ι κ θ V D) (v : View ι θ) (x : κ) : Prop :=
  ∀ j, s.written x j ≤ v.clock j ∧ s.read x j ≤ v.clock j

/-- The views only grow, and no plain cell is accessed. -/
structure Keeps (s s' : Memory ι κ θ V D) : Prop where
  views : ∀ i, s.views i ≤ s'.views i
  cells : s'.cells = s.cells
  written : s'.written = s.written
  read : s'.read = s.read

section Facts

variable {s s' : Memory ι κ θ V D} {i : θ} {ℓ : ι} {x : κ} {v w : View ι θ} {t : ℕ}
  {m : Message ι θ V}

theorem isLatest_congr (h : s'.stores ℓ = s.stores ℓ) : s'.IsLatest ℓ m ↔ s.IsLatest ℓ m := by
  simp only [IsLatest, h]

theorem Contiguous.congr {base : ℕ} (hc : s.Contiguous ℓ base) (h : s'.stores ℓ = s.stores ℓ) :
    s'.Contiguous ℓ base := by
  refine ⟨fun m hm => hc.base_le m ((isLatest_congr h).1 hm), fun m hm hle => ?_⟩
  rw [h] at hm ⊢
  exact (hc.next m hm hle).imp_left (isLatest_congr h).2

theorem IsLatest.upToDate (hm : s.IsLatest ℓ m) (h : m.time ≤ (s.views i).seen ℓ) :
    s.UpToDate i ℓ := fun m' hm' => (hm.2 m' hm').trans h

theorem UpToDate.congr (hu : s.UpToDate i ℓ) (h : s'.stores ℓ = s.stores ℓ)
    (hv : s.views i ≤ s'.views i) : s'.UpToDate i ℓ := by
  intro m hm
  rw [h] at hm
  exact (hu m hm).trans (View.seen_le hv ℓ)

theorem mem_of_message (h : s.message ℓ t = some m) : m ∈ s.stores ℓ ∧ m.time = t := by
  refine ⟨List.mem_of_find?_eq_some h, ?_⟩
  have := List.find?_some h
  simpa using this

theorem WritesKnown.mono (h : s.WritesKnown v x) (hvw : v ≤ w) : s.WritesKnown w x :=
  fun j => (h j).trans (View.clock_le hvw j)

theorem Known.mono (h : s.Known v x) (hvw : v ≤ w) : s.Known w x :=
  fun j => ⟨(h j).1.trans (View.clock_le hvw j), (h j).2.trans (View.clock_le hvw j)⟩

theorem Known.writesKnown (h : s.Known v x) : s.WritesKnown v x := fun j => (h j).1

theorem WritesKnown.not_readRaces (h : s.WritesKnown (s.views i) x) : ¬ s.ReadRaces i x := by
  rintro ⟨j, hj⟩
  exact absurd (h j) (by omega)

theorem Known.not_writeRaces (h : s.Known (s.views i) x) : ¬ s.WriteRaces i x := by
  rintro ⟨j, hj | hj⟩
  · exact absurd (h j).1 (by omega)
  · exact absurd (h j).2 (by omega)

end Facts

section Threads

variable [DecidableEq θ] {s : Memory ι κ θ V D} {i j : θ} {v : View ι θ}

@[simp] theorem setView_stores : (s.setView i v).stores = s.stores := rfl

@[simp] theorem setView_cells : (s.setView i v).cells = s.cells := rfl

@[simp] theorem setView_self : (s.setView i v).views i = v := by simp [setView]

theorem setView_of_ne (h : j ≠ i) : (s.setView i v).views j = s.views j := by simp [setView, h]

/-- The views only grow when one of them is replaced by a greater one. -/
theorem le_setView (h : s.views i ≤ v) (j : θ) : s.views j ≤ (s.setView i v).views j := by
  rcases eq_or_ne j i with rfl | hne
  · simpa using h
  · rw [setView_of_ne hne]

end Threads

section Locations

variable [DecidableEq ι] {s : Memory ι κ θ V D} {ℓ ℓ' : ι} {m : Message ι θ V}

@[simp] theorem addStore_views : (s.addStore ℓ m).views = s.views := rfl

@[simp] theorem addStore_cells : (s.addStore ℓ m).cells = s.cells := rfl

@[simp] theorem addStore_self : (s.addStore ℓ m).stores ℓ = m :: s.stores ℓ := by simp [addStore]

theorem addStore_of_ne (h : ℓ' ≠ ℓ) : (s.addStore ℓ m).stores ℓ' = s.stores ℓ' := by
  simp [addStore, h]

/-- A message later than all is the latest one. -/
theorem isLatest_addStore (h : ∀ m' ∈ s.stores ℓ, m'.time < m.time) {m' : Message ι θ V} :
    (s.addStore ℓ m).IsLatest ℓ m' ↔ m' = m := by
  have hmem : ∀ m', m' ∈ (s.addStore ℓ m).stores ℓ ↔ m' = m ∨ m' ∈ s.stores ℓ := fun m' => by
    rw [addStore_self, List.mem_cons]
  constructor
  · rintro ⟨hm', hle⟩
    refine ((hmem m').1 hm').resolve_right fun hold => ?_
    have := hle m ((hmem m).2 (.inl rfl))
    have := h m' hold
    omega
  · rintro rfl
    refine ⟨(hmem _).2 (.inl rfl), fun m' hm' => ?_⟩
    rcases (hmem m').1 hm' with rfl | hold
    · exact le_rfl
    · exact (h m' hold).le

theorem contiguous_addStore (h : ∀ m' ∈ s.stores ℓ, m'.time < m.time) :
    (s.addStore ℓ m).Contiguous ℓ m.time where
  base_le m' hm' := by rw [(isLatest_addStore h).1 hm']
  next m' hm' hle := by
    rw [addStore_self, List.mem_cons] at hm'
    refine .inl ((isLatest_addStore h).2 (hm'.resolve_right fun hold => ?_))
    have := h m' hold
    omega

theorem Contiguous.addStore {base : ℕ} {last : Message ι θ V} (hc : s.Contiguous ℓ base)
    (hlast : s.IsLatest ℓ last) (htime : m.time = last.time + 1) :
    (s.addStore ℓ m).Contiguous ℓ base := by
  have hlater : ∀ m' ∈ s.stores ℓ, m'.time < m.time := fun m' hm' => by
    have := hlast.2 m' hm'
    omega
  refine ⟨fun m' hm' => ?_, fun m' hm' hle => ?_⟩
  · rw [(isLatest_addStore hlater).1 hm', htime]
    exact (hc.base_le last hlast).trans (Nat.le_succ _)
  · rw [isLatest_addStore hlater]
    rw [addStore_self, List.mem_cons] at hm'
    refine hm'.imp_right fun hold => ?_
    rw [addStore_self]
    rcases hc.next m' hold hle with hl | ⟨m'', hm'', heq⟩
    · exact ⟨m, List.mem_cons_self, by rw [htime, le_antisymm (hlast.2 m' hold) (hl.2 _ hlast.1)]⟩
    · exact ⟨m'', List.mem_cons_of_mem _ hm'', heq⟩

variable [DecidableEq θ] {s' : Memory ι κ θ V D} {i : θ} {t : ℕ} {o : MemoryOrder} {value : V}

/-- A load changes nothing but the view of its thread. -/
theorem load_eq_some (h : s.load o i ℓ t = some (value, s')) :
    ∃ m ∈ s.stores ℓ, m.value = value ∧ (s.views i).seen ℓ ≤ m.time ∧ ∃ v, s' = s.setView i v ∧
      s.views i ≤ v ∧ m.time ≤ v.seen ℓ ∧ (o.acquires → m.view ≤ v) := by
  unfold load at h
  split at h
  · cases h
  · rename_i m hm
    obtain ⟨hmem, rfl⟩ := mem_of_message hm
    split_ifs at h with hle
    simp only [Option.some.injEq, Prod.mk.injEq] at h
    obtain ⟨rfl, rfl⟩ := h
    have hreceive := View.le_receive ((s.views i).see ℓ m.time) o m.view
    refine ⟨m, hmem, rfl, hle, _, rfl, (View.le_see _ _ _).trans hreceive, ?_,
      fun ho => View.le_receive_of_acquires ho _ _⟩
    exact (View.time_le_see _ _ _).trans (View.seen_le hreceive ℓ)

/-- A store adds one message, behind all that its thread has seen. -/
theorem store_eq_some (h : s.store o i ℓ value t = some s') :
    (s.views i).seen ℓ < t ∧ ∃ v w, s' = (s.addStore ℓ ⟨t, value, w⟩).setView i v ∧
      s.views i ≤ v ∧ t ≤ v.seen ℓ ∧ (o.releases → w = v) := by
  unfold store at h
  split_ifs at h with hlt
  obtain rfl := Option.some.inj h
  exact ⟨hlt.1, _, _, rfl, View.le_see _ _ _, View.time_le_see _ _ _,
    fun ho => View.send_of_releases ho _⟩

/-- A read-modify-write adds one message right behind the one it reads, and passes its view on. -/
theorem fetchModify_eq_some {f : V → V} (h : s.fetchModify o i ℓ f t = some (value, s')) :
    ∃ m ∈ s.stores ℓ, m.value = value ∧ (s.views i).seen ℓ ≤ m.time ∧
      (∀ m' ∈ s.stores ℓ, m'.time ≠ m.time + 1) ∧
      ∃ v w, s' = (s.addStore ℓ ⟨m.time + 1, f value, w⟩).setView i v ∧
        s.views i ≤ v ∧ m.time + 1 ≤ v.seen ℓ ∧ m.view ≤ w ∧ (o.releases → v ≤ w) := by
  unfold fetchModify at h
  split at h
  · cases h
  · rename_i m hm
    obtain ⟨hmem, rfl⟩ := mem_of_message hm
    split_ifs at h with hle
    simp only [Option.some.injEq, Prod.mk.injEq] at h
    obtain ⟨rfl, rfl⟩ := h
    obtain ⟨hseen, hnone⟩ := hle
    have hreceive := View.le_receive ((s.views i).see ℓ (m.time + 1)) o m.view
    refine ⟨m, hmem, rfl, hseen, fun m' hm' heq => ?_, _, _, rfl,
      (View.le_see _ _ _).trans hreceive, ?_, le_sup_right, fun ho => ?_⟩
    · rw [Option.isNone_iff_eq_none, message, List.find?_eq_none] at hnone
      exact hnone m' hm' (by simpa using heq)
    · exact (View.time_le_see _ _ _).trans (View.seen_le hreceive ℓ)
    · rw [View.send_of_releases ho]
      exact le_sup_left

theorem load_keeps (h : s.load o i ℓ t = some (value, s')) : s.Keeps s' := by
  obtain ⟨m, -, -, -, v, rfl, hle, -⟩ := load_eq_some h
  exact ⟨le_setView hle, rfl, rfl, rfl⟩

theorem load_stores (h : s.load o i ℓ t = some (value, s')) : s'.stores = s.stores := by
  obtain ⟨m, -, -, -, v, rfl, -⟩ := load_eq_some h
  rfl

theorem store_keeps (h : s.store o i ℓ value t = some s') : s.Keeps s' := by
  obtain ⟨-, v, w, rfl, hle, -⟩ := store_eq_some h
  exact ⟨le_setView hle, rfl, rfl, rfl⟩

theorem store_stores_of_ne (h : s.store o i ℓ value t = some s') (hne : ℓ' ≠ ℓ) :
    s'.stores ℓ' = s.stores ℓ' := by
  obtain ⟨-, v, w, rfl, -⟩ := store_eq_some h
  exact addStore_of_ne hne

theorem fetchModify_keeps {f : V → V} (h : s.fetchModify o i ℓ f t = some (value, s')) :
    s.Keeps s' := by
  obtain ⟨m, -, -, -, -, v, w, rfl, hle, -⟩ := fetchModify_eq_some h
  exact ⟨le_setView hle, rfl, rfl, rfl⟩

theorem fetchModify_stores_of_ne {f : V → V} (h : s.fetchModify o i ℓ f t = some (value, s'))
    (hne : ℓ' ≠ ℓ) : s'.stores ℓ' = s.stores ℓ' := by
  obtain ⟨m, -, -, -, -, v, w, rfl, -⟩ := fetchModify_eq_some h
  exact addStore_of_ne hne

/-- Where the stores follow each other without a gap, only the last one can be modified. -/
theorem Contiguous.fetchModify {f : V → V} {base : ℕ} (hc : s.Contiguous ℓ base)
    (hseen : base ≤ (s.views i).seen ℓ) (h : s.fetchModify o i ℓ f t = some (value, s')) :
    ∃ m, s.IsLatest ℓ m ∧ m.value = value ∧
      ∃ v w, s' = (s.addStore ℓ ⟨m.time + 1, f value, w⟩).setView i v ∧
        s.views i ≤ v ∧ m.time + 1 ≤ v.seen ℓ ∧ m.view ≤ w ∧ (o.releases → v ≤ w) := by
  obtain ⟨m, hm, hvalue, hle, hgap, hrest⟩ := fetchModify_eq_some h
  refine ⟨m, (hc.next m hm (hseen.trans hle)).resolve_right ?_, hvalue, hrest⟩
  rintro ⟨m', hm', heq⟩
  exact hgap m' hm' heq

end Locations

section Cells

variable [DecidableEq κ] [DecidableEq θ] {s : Memory ι κ θ V D} {i : θ} {x y : κ} {d : D}

@[simp] theorem readCell_stores : (s.readCell i x).stores = s.stores := rfl

@[simp] theorem readCell_cells : (s.readCell i x).cells = s.cells := rfl

@[simp] theorem readCell_written : (s.readCell i x).written = s.written := rfl

@[simp] theorem writeCell_stores : (s.writeCell i x d).stores = s.stores := rfl

@[simp] theorem writeCell_cells : (s.writeCell i x d).cells = Function.update s.cells x d := rfl

@[simp] theorem writeCell_read : (s.writeCell i x d).read = s.read := rfl

theorem le_readCell (j : θ) : s.views j ≤ (s.readCell i x).views j :=
  le_setView (View.le_tick _ _) j

theorem le_writeCell (j : θ) : s.views j ≤ (s.writeCell i x d).views j :=
  le_setView (View.le_tick _ _) j

theorem readCell_read_of_ne (h : y ≠ x) : (s.readCell i x).read y = s.read y := by
  simp [readCell, h]

theorem writeCell_written_of_ne (h : y ≠ x) : (s.writeCell i x d).written y = s.written y := by
  simp [writeCell, h]

/-- The number of an access is the clock of its thread. -/
theorem readCell_read_self (j : θ) : (s.readCell i x).read x j =
    if j = i then ((s.readCell i x).views i).clock i else s.read x j := by
  rcases eq_or_ne j i with rfl | hne
  · simp [readCell, setView, View.tick]
  · simp [readCell, hne]

theorem writeCell_written_self (j : θ) : (s.writeCell i x d).written x j =
    if j = i then ((s.writeCell i x d).views i).clock i else s.written x j := by
  rcases eq_or_ne j i with rfl | hne
  · simp [writeCell, setView, View.tick]
  · simp [writeCell, hne]

/-- Whoever knows all accesses to a cell still does after one of his own. -/
theorem Known.readCell (h : s.Known (s.views i) x) :
    (s.readCell i x).Known ((s.readCell i x).views i) x := by
  intro j
  have hle := View.clock_le (le_readCell (s := s) (i := i) (x := x) i) j
  refine ⟨(h j).1.trans hle, ?_⟩
  rw [readCell_read_self]
  split_ifs with hj
  · rw [hj]
  · exact (h j).2.trans hle

theorem Known.writeCell (h : s.Known (s.views i) x) (d : D) :
    (s.writeCell i x d).Known ((s.writeCell i x d).views i) x := by
  intro j
  have hle := View.clock_le (le_writeCell (s := s) (i := i) (x := x) (d := d) i) j
  refine ⟨?_, (h j).2.trans hle⟩
  rw [writeCell_written_self]
  split_ifs with hj
  · rw [hj]
  · exact (h j).1.trans hle

end Cells

end Memory

/-! ## Programs over the memory -/

/-- What is seen of a program: what it shows, and its data races. -/
inductive Event (κ ο : Type*)
  | shows (o : ο)
  | race (x : κ)
  deriving DecidableEq, Repr

variable {κ ο π : Type*}

/-- No access raced. -/
def RaceFree (log : List (Event κ ο)) : Prop := ∀ x, .race x ∉ log

/-- Only what the program shows. -/
def shown (log : List (Event κ ο)) : List ο :=
  log.filterMap fun
    | .shows o => some o
    | .race _ => none

/-- Show something else, and the same races. -/
def Event.bind (f : ο → List π) : Event κ ο → List (Event κ π)
  | .shows o => (f o).map .shows
  | .race x => [.race x]

/-- The race of an access, when it is one. -/
def raceIf (p : Prop) [Decidable p] (x : κ) : List (Event κ ο) := if p then [.race x] else []

theorem raceIf_of_not {p : Prop} [Decidable p] (h : ¬ p) (x : κ) :
    (raceIf p x : List (Event κ ο)) = [] := if_neg h

@[simp] theorem shown_raceIf (p : Prop) [Decidable p] (x : κ) :
    shown (raceIf p x : List (Event κ ο)) = [] := by
  unfold raceIf
  split_ifs <;> rfl

@[simp] theorem raceIf_bind (f : ο → List π) (p : Prop) [Decidable p] (x : κ) :
    (raceIf p x).flatMap (Event.bind f) = raceIf p x := by
  unfold raceIf
  split_ifs <;> rfl

@[simp] theorem shown_nil : shown ([] : List (Event κ ο)) = [] := rfl

@[simp] theorem shown_append (l l' : List (Event κ ο)) : shown (l ++ l') = shown l ++ shown l' :=
  List.filterMap_append

@[simp] theorem shown_map (l : List ο) : shown (l.map (.shows : ο → Event κ ο)) = l := by
  simp [shown, List.filterMap_map]

@[simp] theorem flatMap_bind (f : ο → List π) (l : List ο) :
    (l.map (.shows : ο → Event κ ο)).flatMap (Event.bind f) = (l.flatMap f).map .shows := by
  rw [List.flatMap_map, List.map_flatMap]
  rfl

theorem raceFree_map (l : List ο) : RaceFree (l.map (.shows : ο → Event κ ο)) := by
  simp [RaceFree]

theorem raceFree_nil : RaceFree ([] : List (Event κ ο)) := by simp [RaceFree]

theorem RaceFree.left {l l' : List (Event κ ο)} (h : RaceFree (l ++ l')) : RaceFree l :=
  fun x hx => h x (List.mem_append_left l' hx)

/-- In a run without races an access does not race. -/
theorem RaceFree.not_raceIf {l l' : List (Event κ ο)} {p : Prop} [Decidable p] {x : κ}
    (h : RaceFree (l ++ (raceIf p x ++ l'))) : ¬ p := by
  intro hp
  refine h x (List.mem_append_right l (List.mem_append_left l' ?_))
  rw [raceIf, if_pos hp]
  exact List.mem_singleton_self _

theorem RaceFree.append {l l' : List (Event κ ο)} (h : RaceFree l) (h' : RaceFree l') :
    RaceFree (l ++ l') := fun x hx => (List.mem_append.1 hx).elim (h x) (h' x)

end ReleaseAcquire
