import Mathlib.Logic.Function.Basic
import Ihft.Channel.Factory

/-!
# The one-to-each ring

A bucket of the one-to-each queues carries its occupancy in `m_counter`, which counts down as the
readers release the event and is `EMPTY_DATA_MARK` when the bucket is free.  The sequence number
is never reset, so a free bucket keeps the one of its last event.  `Writer.tryWrite` and
`Writer.resume` are the atomic steps of `one2each_seqnum_stream_queue_impl::try_write`.

`RingOk` speaks of the slots `k` with `W ≤ k < W + C`, as in the one-to-one ring: the slot `k` is
the bucket `k % C`, waiting for the event `k` and last used by the event `k - C`.
-/

namespace Ihft.Channel.One2Each

variable {T : SeqnumCounter} {β : Type*}

/-- `DUMMY_READER_ID` of `one2each_seqnum_queue_constant`. -/
def dummyReaderId (T : SeqnumCounter) : T.Val := BitVec.ofNat T.digits 255

def emptyDataMark (T : SeqnumCounter) : T.Val := 0

def constructedDataMark (T : SeqnumCounter) : T.Val := 1

/-- `channel_factory::make` for the one-to-each queues. -/
def make (T : SeqnumCounter) (queueCapacity readersCount : ℕ) : Option (ProducerAndConsumers T) :=
  channelFactoryMake (dummyReaderId T) queueCapacity readersCount

theorem max_reader_lt (T : SeqnumCounter) : 255 < 2 ^ T.digits :=
  T.two_pow_eight_le.trans_lt' (by decide)

theorem make_eq_some {n R : ℕ} {ch : ProducerAndConsumers T} (h : make T n R = some ch) :
    ∃ C, to2pow T n = some C ∧ IsCapacity T C ∧ 1 ≤ R ∧ R ≤ 255 ∧
      ch = ⟨producerAfter T C R, consumersFrom T C 0 R⟩ :=
  channelFactoryMake_eq_some (max_reader_lt T) h

/-- Every requested capacity gives a channel with any number of readers from 1 to 255. -/
theorem make_isSome (T : SeqnumCounter) (n : ℕ) {R : ℕ} (h1 : 1 ≤ R) (h2 : R ≤ 255) :
    ∃ C, to2pow T n = some C ∧ IsCapacity T C ∧
      make T n R = some ⟨producerAfter T C R, consumersFrom T C 0 R⟩ := by
  obtain ⟨C, hC, hcap, -⟩ := to2pow_spec T n
  have := channelFactoryMake_eq (max_reader_lt T) hC R
  rw [if_pos ⟨h1, h2⟩] at this
  exact ⟨C, hC, hcap, this⟩

/-- `one2each_seqnum_bucket`; the storage is `none` where no event lives. -/
structure Bucket (T : SeqnumCounter) (β : Type*) where
  seqn : T.Val
  counter : T.Val
  storage : Option β
  deriving DecidableEq, Repr

/-- The constructor of a bucket. -/
def Bucket.new : Bucket T β := ⟨dummyEventSeqNum T, emptyDataMark T, none⟩

/-- The ring; only the places below the capacity are used. -/
abbrev RingBuffer (T : SeqnumCounter) (β : Type*) := ℕ → Bucket T β

def setSeqn (ring : RingBuffer T β) (b : ℕ) (seqn : T.Val) : RingBuffer T β :=
  Function.update ring b { ring b with seqn := seqn }

def setCounter (ring : RingBuffer T β) (b : ℕ) (counter : T.Val) : RingBuffer T β :=
  Function.update ring b { ring b with counter := counter }

def setStorage (ring : RingBuffer T β) (b : ℕ) (storage : Option β) : RingBuffer T β :=
  Function.update ring b { ring b with storage := storage }

section Ring

variable (ring : RingBuffer T β) (b c : ℕ)

/-- An update of one bucket leaves alone every field that it does not touch. -/
theorem update_field {γ : Type*} (p : Bucket T β → γ) {x : Bucket T β} (hx : p x = p (ring b)) :
    p (Function.update ring b x c) = p (ring c) := by
  by_cases h : c = b
  · subst h; rw [Function.update_self, hx]
  · rw [Function.update_of_ne h]

@[simp] theorem setSeqn_counter (v : T.Val) : (setSeqn ring b v c).counter = (ring c).counter :=
  update_field ring b c Bucket.counter rfl

@[simp] theorem setSeqn_storage (v : T.Val) : (setSeqn ring b v c).storage = (ring c).storage :=
  update_field ring b c Bucket.storage rfl

@[simp] theorem setCounter_seqn (v : T.Val) : (setCounter ring b v c).seqn = (ring c).seqn :=
  update_field ring b c Bucket.seqn rfl

@[simp] theorem setCounter_storage (v : T.Val) :
    (setCounter ring b v c).storage = (ring c).storage :=
  update_field ring b c Bucket.storage rfl

@[simp] theorem setStorage_seqn (x : Option β) : (setStorage ring b x c).seqn = (ring c).seqn :=
  update_field ring b c Bucket.seqn rfl

@[simp] theorem setStorage_counter (x : Option β) :
    (setStorage ring b x c).counter = (ring c).counter :=
  update_field ring b c Bucket.counter rfl

@[simp] theorem setSeqn_self (v : T.Val) : (setSeqn ring b v b).seqn = v := by simp [setSeqn]

@[simp] theorem setCounter_self (v : T.Val) : (setCounter ring b v b).counter = v := by
  simp [setCounter]

@[simp] theorem setStorage_self (x : Option β) : (setStorage ring b x b).storage = x := by
  simp [setStorage]

variable {b c}

theorem setSeqn_of_ne (h : c ≠ b) (v : T.Val) : setSeqn ring b v c = ring c := by
  simp [setSeqn, h]

theorem setCounter_of_ne (h : c ≠ b) (v : T.Val) : setCounter ring b v c = ring c := by
  simp [setCounter, h]

theorem setStorage_of_ne (h : c ≠ b) (x : Option β) : setStorage ring b x c = ring c := by
  simp [setStorage, h]

end Ring

/-! ## The steps of `try_write` -/

/-- Where a writer stands inside `try_write(event, counter)`. -/
inductive WriterPc (T : SeqnumCounter) (β : Type*)
  | idle
  | construct (event : β) (counter : T.Val)
  | storeCounter (event : β) (counter : T.Val)
  | publish (event : β) (counter : T.Val)
  deriving DecidableEq, Repr

/-- The arguments of the call the writer is in. -/
def WriterPc.args : WriterPc T β → Option (β × T.Val)
  | idle => none
  | construct event counter => some (event, counter)
  | storeCounter event counter => some (event, counter)
  | publish event counter => some (event, counter)

/-- The event of that call. -/
def WriterPc.event (pc : WriterPc T β) : Option β := pc.args.map Prod.fst

structure Writer (T : SeqnumCounter) (β : Type*) where
  impl : QueueImpl T
  pc : WriterPc T β
  deriving DecidableEq, Repr

/-- Enter `try_write`: load `m_counter` of the next bucket and compare it with the empty mark. -/
def Writer.tryWrite (w : Writer T β) (ring : RingBuffer T β) (event : β) (counter : T.Val) :
    Option (Writer T β × List (WriterEvent β)) :=
  match w.pc with
  | .idle =>
    if (ring w.impl.nextBucket).counter = emptyDataMark T then
      some ({ w with pc := .construct event counter }, [.offered event])
    else
      some (w, [.offered event, .refused event])
  | _ => none

/-- Go on inside `try_write`: construct the event, store `m_counter`, store `m_seqn`. -/
def Writer.resume (w : Writer T β) (ring : RingBuffer T β) :
    Option (RingBuffer T β × Writer T β × List (WriterEvent β)) :=
  match w.pc with
  | .idle => none
  | .construct event counter =>
    some (setStorage ring w.impl.nextBucket (some event),
      { w with pc := .storeCounter event counter }, [])
  | .storeCounter event counter =>
    some (setCounter ring w.impl.nextBucket counter, { w with pc := .publish event counter }, [])
  | .publish event _ =>
    some (setSeqn ring w.impl.nextBucket w.impl.seqn, ⟨w.impl.advance, .idle⟩, [.wrote event])

/-! ## The invariant of the ring -/

/-- `count k` is the value of `m_counter` in the slot `k`, `mark` the one a write starts from;
`alive k`: the event `k - C` lives in the slot; `item i` is the event with the index `i`. -/
structure RingOk (C W : ℕ) (mark : T.Val) (count : ℕ → T.Val) (alive : ℕ → Prop)
    (item : ℕ → Option β) (ring : RingBuffer T β) (w : Writer T β) : Prop where
  index : w.impl.AtIndex C W
  behind : ∀ k, alive k → C ≤ k
  unused : ∀ k, W ≤ k → k < C → (ring (k % C)).seqn = dummyEventSeqNum T
  stale : ∀ k, W ≤ k → k < W + C → C ≤ k → (ring (k % C)).seqn = seqnOf T (k - C)
  counter : ∀ k, W ≤ k → k < W + C → (k = W → ∀ e c, w.pc ≠ .publish e c) →
    (ring (k % C)).counter = count k
  storage : ∀ k, W ≤ k → k < W + C → alive k → (ring (k % C)).storage = item (k - C)
  free : w.pc ≠ .idle → count W = emptyDataMark T ∧ ¬ alive W
  given : ∀ e c, w.pc.args = some (e, c) → c = mark
  built : ∀ e c, w.pc = .storeCounter e c ∨ w.pc = .publish e c →
    (ring (W % C)).storage = some e
  marked : ∀ e c, w.pc = .publish e c → (ring (W % C)).counter = c

section Ok

variable {C W : ℕ} {mark : T.Val} {count count' : ℕ → T.Val} {alive alive' : ℕ → Prop}
  {item item' : ℕ → Option β} {ring : RingBuffer T β} {w w' : Writer T β} {e : β} {c : T.Val}
  {evs : List (WriterEvent β)}

/-- The load of a reader standing at `p` succeeds exactly when the event `p` is published: the
stale number of the event `p - C` is not mistaken for it. -/
theorem RingOk.load_iff (hC : IsCapacity T C) (h : RingOk C W mark count alive item ring w) {p : ℕ}
    (hp : p ≤ W) (hW : W ≤ p + C) : (ring (p % C)).seqn = seqnOf T p ↔ p < W := by
  have hpos := hC.pos
  constructor
  · intro heq
    by_contra hlt
    obtain rfl : p = W := by omega
    by_cases hle : C ≤ p
    · rw [h.stale p le_rfl (by omega) hle] at heq
      refine seqnOf_add_capacity_ne hC (p - C) ?_
      rw [Nat.sub_add_cancel hle, heq]
    · rw [h.unused p le_rfl (by omega)] at heq
      exact seqnOf_ne_dummy p heq.symm
  · intro hlt
    have := h.stale (p + C) hW (by omega) (Nat.le_add_left C p)
    rwa [Nat.add_mod_right, Nat.add_sub_cancel] at this

/-- The load of the writer succeeds exactly when the counter of its next bucket has run down. -/
theorem RingOk.tryWrite (hC : IsCapacity T C) (h : RingOk C W mark count alive item ring w)
    (halive : alive W → count W ≠ emptyDataMark T)
    (ht : w.tryWrite ring e mark = some (w', evs)) :
    RingOk C W mark count alive item ring w' ∧ w.pc = .idle ∧
      ((count W = emptyDataMark T ∧ w' = ⟨w.impl, .construct e mark⟩ ∧ evs = [.offered e]) ∨
        (count W ≠ emptyDataMark T ∧ w' = w ∧ evs = [.offered e, .refused e])) := by
  have hpos := hC.pos
  unfold Writer.tryWrite at ht
  split at ht
  · rename_i hpc
    rw [h.index.nextBucket, h.counter W le_rfl (by omega) (by simp [hpc])] at ht
    split_ifs at ht with h0
    · simp only [Option.some.injEq, Prod.mk.injEq] at ht
      obtain ⟨rfl, rfl⟩ := ht
      refine ⟨{ h with counter := ?_, free := ?_, given := ?_, built := ?_, marked := ?_ }, hpc,
        .inl ⟨h0, rfl, rfl⟩⟩
      · intro k hk hk' _
        exact h.counter k hk hk' (by simp [hpc])
      · intro _
        exact ⟨h0, fun ha => halive ha h0⟩
      · intro e' c' he
        simp only [WriterPc.args, Option.some.injEq, Prod.mk.injEq] at he
        exact he.2.symm
      · rintro e' c' (he | he) <;> cases he
      · intro e' c' he
        cases he
    · simp only [Option.some.injEq, Prod.mk.injEq] at ht
      obtain ⟨rfl, rfl⟩ := ht
      exact ⟨h, hpc, .inr ⟨h0, rfl, rfl⟩⟩
  · cases ht

/-- The construction touches a bucket whose event is dead. -/
theorem RingOk.construct (hC : IsCapacity T C) (h : RingOk C W mark count alive item ring w)
    (hpc : w.pc = .construct e c) :
    RingOk C W mark count alive item (setStorage ring w.impl.nextBucket (some e))
      ⟨w.impl, .storeCounter e c⟩ := by
  have hpos := hC.pos
  have hfree := h.free (by rw [hpc]; simp)
  refine { h with
    unused := ?_, stale := ?_, counter := ?_, storage := ?_, free := fun _ => hfree, given := ?_,
    built := ?_, marked := ?_ }
  · intro k hk hk'
    rw [setStorage_seqn]
    exact h.unused k hk hk'
  · intro k hk hk' hle
    rw [setStorage_seqn]
    exact h.stale k hk hk' hle
  · intro k hk hk' _
    rw [setStorage_counter]
    exact h.counter k hk hk' (by simp [hpc])
  · intro k hk hk' ha
    rw [h.index.nextBucket, setStorage_of_ne]
    · exact h.storage k hk hk' ha
    · intro heq
      have := WrappingCounter.mod_injOn_window hk hk' le_rfl (by omega) heq
      exact hfree.2 (this ▸ ha)
  · intro e' c' he
    exact h.given e' c' (by rw [hpc]; exact he)
  · rintro e' c' (he | he)
    · simp only [WriterPc.storeCounter.injEq] at he
      rw [h.index.nextBucket, setStorage_self, he.1]
    · cases he
  · intro e' c' he
    cases he

/-- The store of `m_counter` marks the bucket of the event that is not yet published. -/
theorem RingOk.storeCounter (hC : IsCapacity T C) (h : RingOk C W mark count alive item ring w)
    (hpc : w.pc = .storeCounter e c) :
    RingOk C W mark count alive item (setCounter ring w.impl.nextBucket c)
      ⟨w.impl, .publish e c⟩ := by
  have hpos := hC.pos
  have hfree := h.free (by rw [hpc]; simp)
  refine { h with
    unused := ?_, stale := ?_, counter := ?_, storage := ?_, free := fun _ => hfree, given := ?_,
    built := ?_, marked := ?_ }
  · intro k hk hk'
    rw [setCounter_seqn]
    exact h.unused k hk hk'
  · intro k hk hk' hle
    rw [setCounter_seqn]
    exact h.stale k hk hk' hle
  · intro k hk hk' hpub
    have hne : k ≠ W := fun heq => hpub heq e c rfl
    rw [h.index.nextBucket, setCounter_of_ne]
    · exact h.counter k hk hk' (by simp [hpc])
    · exact fun heq => hne (WrappingCounter.mod_injOn_window hk hk' le_rfl (by omega) heq)
  · intro k hk hk' ha
    rw [setCounter_storage]
    exact h.storage k hk hk' ha
  · intro e' c' he
    exact h.given e' c' (by rw [hpc]; exact he)
  · rintro e' c' (he | he)
    · cases he
    · simp only [WriterPc.publish.injEq] at he
      rw [setCounter_storage, ← he.1]
      exact h.built e c (.inl hpc)
  · intro e' c' he
    simp only [WriterPc.publish.injEq] at he
    rw [h.index.nextBucket, setCounter_self, he.2]

/-- The store of `m_seqn` publishes the event `W` and moves the window on. -/
theorem RingOk.publish (hC : IsCapacity T C) (h : RingOk C W mark count alive item ring w)
    (hpc : w.pc = .publish e c) (hcount : ∀ k, k < W + C → count' k = count k)
    (hnew : count' (W + C) = mark) (halive : ∀ k, k ≠ W + C → alive' k → alive k)
    (hitem : item' W = some e) (hold : ∀ i, i < W → item' i = item i) :
    RingOk C (W + 1) mark count' alive' item' (setSeqn ring w.impl.nextBucket w.impl.seqn)
      ⟨w.impl.advance, .idle⟩ := by
  have hpos := hC.pos
  have hother : ∀ k, W + 1 ≤ k → k < W + C → k % C ≠ W % C := by
    intro k hk hk' heq
    have := WrappingCounter.mod_injOn_window (show W ≤ k by omega) hk' le_rfl (by omega) heq
    omega
  have hlast : (W + C) % C = W % C := Nat.add_mod_right W C
  refine ⟨h.index.advance hC, ?_, ?_, ?_, ?_, ?_, by simp, ?_, ?_, ?_⟩
  · intro k hk
    by_cases hkW : k = W + C
    · omega
    · exact h.behind k (halive k hkW hk)
  · intro k hk hk'
    rw [h.index.nextBucket, setSeqn_of_ne _ (hother k hk (by omega))]
    exact h.unused k (by omega) hk'
  · intro k hk hk' hle
    by_cases hkW : k = W + C
    · subst hkW
      rw [hlast, h.index.nextBucket, setSeqn_self, h.index.seqn_eq, Nat.add_sub_cancel]
    · rw [h.index.nextBucket, setSeqn_of_ne _ (hother k hk (by omega))]
      exact h.stale k (by omega) (by omega) hle
  · intro k hk hk' _
    rw [setSeqn_counter]
    by_cases hkW : k = W + C
    · subst hkW
      rw [hlast, hnew, h.marked e c hpc]
      exact h.given e c (by rw [hpc]; rfl)
    · rw [hcount k (by omega)]
      exact h.counter k (by omega) (by omega) (fun heq => absurd heq (by omega))
  · intro k hk hk' ha
    rw [setSeqn_storage]
    by_cases hkW : k = W + C
    · subst hkW
      rw [hlast, Nat.add_sub_cancel, hitem]
      exact h.built e c (.inr hpc)
    · have ha' := halive k hkW ha
      have hle := h.behind k ha'
      rw [h.storage k (by omega) (by omega) ha', hold (k - C) (by omega)]
  · intro e' c' he
    cases he
  · rintro e' c' (he | he) <;> cases he
  · intro e' c' he
    cases he

/-- A slot whose counter is not empty is not the one being written. -/
theorem RingOk.ne_of_count_ne (h : RingOk C W mark count alive item ring w) {j : ℕ}
    (hcount : count j ≠ emptyDataMark T) (hpc : w.pc ≠ .idle) : j ≠ W := by
  rintro rfl
  exact hcount (h.free hpc).1

/-- A reader changes the counter of the slot `j`, which is not empty. -/
theorem RingOk.setCounter (h : RingOk C W mark count alive item ring w) {j : ℕ} (hj : W ≤ j)
    (hj' : j < W + C) (hjc : count j ≠ emptyDataMark T)
    (hcount : ∀ k, k ≠ j → count' k = count k) (halive : ∀ k, alive' k → alive k) :
    RingOk C W mark count' alive' item (One2Each.setCounter ring (j % C) (count' j)) w := by
  have hother : ∀ k, W ≤ k → k < W + C → k ≠ j → k % C ≠ j % C := fun k hk hk' hne heq =>
    hne (WrappingCounter.mod_injOn_window hk hk' hj hj' heq)
  refine ⟨h.index, fun k hk => h.behind k (halive k hk), ?_, ?_, ?_, ?_, ?_, h.given, ?_, ?_⟩
  · intro k hk hk'
    rw [setCounter_seqn]
    exact h.unused k hk hk'
  · intro k hk hk' hle
    rw [setCounter_seqn]
    exact h.stale k hk hk' hle
  · intro k hk hk' hpub
    by_cases hne : k = j
    · rw [hne, setCounter_self]
    · rw [setCounter_of_ne _ (hother k hk hk' hne), hcount k hne]
      exact h.counter k hk hk' hpub
  · intro k hk hk' ha
    rw [setCounter_storage]
    exact h.storage k hk hk' (halive k ha)
  · intro hpc
    have hne := h.ne_of_count_ne hjc hpc
    rw [hcount W hne.symm]
    exact ⟨(h.free hpc).1, fun ha => (h.free hpc).2 (halive W ha)⟩
  · intro e c he
    rw [setCounter_storage]
    exact h.built e c he
  · intro e c he
    have hne := h.ne_of_count_ne hjc (by rw [he]; simp)
    rw [setCounter_of_ne _ (hother W le_rfl (by omega) hne.symm)]
    exact h.marked e c he

/-- The event of the slot `j` dies; its bucket is not yet empty. -/
theorem RingOk.destroy (h : RingOk C W mark count alive item ring w) {j : ℕ} (hj : W ≤ j)
    (hj' : j < W + C) (hjc : count j ≠ emptyDataMark T)
    (halive : ∀ k, alive' k → alive k ∧ k ≠ j) :
    RingOk C W mark count alive' item (setStorage ring (j % C) none) w := by
  have hother : ∀ k, W ≤ k → k < W + C → k ≠ j → k % C ≠ j % C := fun k hk hk' hne heq =>
    hne (WrappingCounter.mod_injOn_window hk hk' hj hj' heq)
  refine ⟨h.index, fun k hk => h.behind k (halive k hk).1, ?_, ?_, ?_, ?_, ?_, h.given, ?_, ?_⟩
  · intro k hk hk'
    rw [setStorage_seqn]
    exact h.unused k hk hk'
  · intro k hk hk' hle
    rw [setStorage_seqn]
    exact h.stale k hk hk' hle
  · intro k hk hk' hpub
    rw [setStorage_counter]
    exact h.counter k hk hk' hpub
  · intro k hk hk' ha
    obtain ⟨ha', hne⟩ := halive k ha
    rw [setStorage_of_ne _ (hother k hk hk' hne)]
    exact h.storage k hk hk' ha'
  · intro hpc
    exact ⟨(h.free hpc).1, fun ha => (h.free hpc).2 (halive W ha).1⟩
  · intro e c he
    have hne := h.ne_of_count_ne hjc (by rcases he with he | he <;> rw [he] <;> simp)
    rw [setStorage_of_ne _ (hother W le_rfl (by omega) hne.symm)]
    exact h.built e c he
  · intro e c he
    rw [setStorage_counter]
    exact h.marked e c he

theorem ringOk_new (nextReaderId : T.Val) (hcount : ∀ k, k < C → count k = emptyDataMark T)
    (behind : ∀ k, alive k → C ≤ k) :
    RingOk C 0 mark count alive item (fun _ => Bucket.new (T := T))
      ⟨{ QueueImpl.new T C with nextReaderId := nextReaderId }, .idle⟩ where
  index := ⟨rfl, rfl, by simp [QueueImpl.new]⟩
  behind := behind
  unused _ _ _ := rfl
  stale k _ hk hle := by omega
  counter k _ hk _ := (hcount k (by omega)).symm
  storage k _ hk ha := by have := behind k ha; omega
  free hpc := absurd rfl hpc
  given e c he := by cases he
  built e c he := by rcases he with he | he <;> cases he
  marked e c he := by cases he

end Ok

end Ihft.Channel.One2Each
