import Mathlib.Logic.Function.Basic
import Ihft.Channel.Factory

/-!
# The one-to-one ring

A bucket of the one-to-one queues carries its occupancy in the sequence number: the dummy value
marks an empty bucket.  `Writer.tryWrite` and `Writer.resume` are the atomic steps of
`one2one_seqnum_stream_queue_impl::try_write`: the load of `m_seqn`, the construction of the event
and the store of `m_seqn`, with the private updates attached to the step before them.

`RingOk` is the invariant of a ring whose writer stands at the index `W`.  It speaks of the slots
`k` with `W ≤ k < W + C`: the slot `k` is the bucket `k % C`, waiting for the event `k` and last
used by the event `k - C`.
-/

namespace Ihft.Channel.One2One

variable {T : SeqnumCounter} {β : Type*}

/-- `DUMMY_READER_ID` of `one2one_seqnum_queue_constant`. -/
def dummyReaderId (T : SeqnumCounter) : T.Val := 1

/-- `channel_factory::make` for the one-to-one queues. -/
def make (T : SeqnumCounter) (queueCapacity readersCount : ℕ) : Option (ProducerAndConsumers T) :=
  channelFactoryMake (dummyReaderId T) queueCapacity readersCount

theorem make_eq_some {n R : ℕ} {ch : ProducerAndConsumers T} (h : make T n R = some ch) :
    ∃ C, to2pow T n = some C ∧ IsCapacity T C ∧ R = 1 ∧
      ch = ⟨producerAfter T C 1, [.new (C - 1) 0]⟩ := by
  obtain ⟨C, hC, hcap, h1, h2, rfl⟩ := channelFactoryMake_eq_some (one_lt_two_pow_digits T) h
  obtain rfl : R = 1 := by omega
  exact ⟨C, hC, hcap, rfl, rfl⟩

/-- Every requested capacity gives a channel with one reader. -/
theorem make_one (T : SeqnumCounter) (n : ℕ) :
    ∃ C, to2pow T n = some C ∧ IsCapacity T C ∧
      make T n 1 = some ⟨producerAfter T C 1, [.new (C - 1) 0]⟩ := by
  obtain ⟨C, hC, hcap, -⟩ := to2pow_spec T n
  refine ⟨C, hC, hcap, ?_⟩
  have := channelFactoryMake_eq (one_lt_two_pow_digits T) hC 1
  rw [if_pos ⟨le_rfl, le_rfl⟩] at this
  exact this

/-- `one2one_seqnum_bucket`; the storage is `none` where no event lives. -/
structure Bucket (T : SeqnumCounter) (β : Type*) where
  seqn : T.Val
  storage : Option β
  deriving DecidableEq, Repr

/-- The constructor of a bucket. -/
def Bucket.new : Bucket T β := ⟨dummyEventSeqNum T, none⟩

/-- The ring; only the places below the capacity are used. -/
abbrev RingBuffer (T : SeqnumCounter) (β : Type*) := ℕ → Bucket T β

def setSeqn (ring : RingBuffer T β) (b : ℕ) (seqn : T.Val) : RingBuffer T β :=
  Function.update ring b { ring b with seqn := seqn }

def setStorage (ring : RingBuffer T β) (b : ℕ) (storage : Option β) : RingBuffer T β :=
  Function.update ring b { ring b with storage := storage }

section Ring

variable (ring : RingBuffer T β) (b c : ℕ)

@[simp] theorem setSeqn_storage (v : T.Val) : (setSeqn ring b v c).storage = (ring c).storage := by
  by_cases h : c = b
  · subst h; simp [setSeqn]
  · simp [setSeqn, h]

@[simp] theorem setStorage_seqn (x : Option β) : (setStorage ring b x c).seqn = (ring c).seqn := by
  by_cases h : c = b
  · subst h; simp [setStorage]
  · simp [setStorage, h]

@[simp] theorem setSeqn_self (v : T.Val) : (setSeqn ring b v b).seqn = v := by simp [setSeqn]

@[simp] theorem setStorage_self (x : Option β) : (setStorage ring b x b).storage = x := by
  simp [setStorage]

variable {b c}

theorem setSeqn_of_ne (h : c ≠ b) (v : T.Val) : (setSeqn ring b v c).seqn = (ring c).seqn := by
  simp [setSeqn, h]

theorem setStorage_of_ne (h : c ≠ b) (x : Option β) :
    (setStorage ring b x c).storage = (ring c).storage := by
  simp [setStorage, h]

end Ring

/-! ## The steps of `try_write` -/

/-- Where a writer stands inside `try_write`. -/
inductive WriterPc (β : Type*)
  | idle
  | construct (event : β)
  | publish (event : β)
  deriving DecidableEq, Repr

/-- The event of the call the writer is in. -/
def WriterPc.event : WriterPc β → Option β
  | idle => none
  | construct event => some event
  | publish event => some event

structure Writer (T : SeqnumCounter) (β : Type*) where
  impl : QueueImpl T
  pc : WriterPc β
  deriving DecidableEq, Repr

/-- Enter `try_write`: load `m_seqn` of the next bucket and compare it with the dummy value. -/
def Writer.tryWrite (w : Writer T β) (ring : RingBuffer T β) (event : β) :
    Option (Writer T β × List (WriterEvent β)) :=
  match w.pc with
  | .idle =>
    if (ring w.impl.nextBucket).seqn = dummyEventSeqNum T then
      some ({ w with pc := .construct event }, [.offered event])
    else
      some (w, [.offered event, .refused event])
  | _ => none

/-- Go on inside `try_write`: construct the event, then store `m_seqn`. -/
def Writer.resume (w : Writer T β) (ring : RingBuffer T β) :
    Option (RingBuffer T β × Writer T β × List (WriterEvent β)) :=
  match w.pc with
  | .idle => none
  | .construct event =>
    some (setStorage ring w.impl.nextBucket (some event), { w with pc := .publish event }, [])
  | .publish event =>
    some (setSeqn ring w.impl.nextBucket w.impl.seqn, ⟨w.impl.advance, .idle⟩, [.wrote event])

/-! ## The invariant of the ring -/

/-- `occupied k`: the bucket of the slot `k` has not been given back by the event `k - C`;
`alive k`: that event lives in it; `item i` is the event with the index `i`. -/
structure RingOk (C W : ℕ) (occupied alive : ℕ → Prop) (item : ℕ → Option β)
    (ring : RingBuffer T β) (w : Writer T β) : Prop where
  index : w.impl.AtIndex C W
  behind : ∀ k, occupied k → C ≤ k
  occupied_of_alive : ∀ k, alive k → occupied k
  full : ∀ k, W ≤ k → k < W + C → occupied k → (ring (k % C)).seqn = seqnOf T (k - C)
  vacant : ∀ k, W ≤ k → k < W + C → ¬ occupied k → (ring (k % C)).seqn = dummyEventSeqNum T
  storage : ∀ k, W ≤ k → k < W + C → alive k → (ring (k % C)).storage = item (k - C)
  free : w.pc ≠ .idle → ¬ occupied W
  built : ∀ e, w.pc = .publish e → (ring (W % C)).storage = some e

section Ok

variable {C W : ℕ} {occupied alive occupied' alive' : ℕ → Prop} {item item' : ℕ → Option β}
  {ring : RingBuffer T β} {w w' : Writer T β} {e : β} {evs : List (WriterEvent β)}

/-- The load of the reader standing at `p` succeeds exactly when the event `p` is published. -/
theorem RingOk.load_iff (hC : IsCapacity T C) (h : RingOk C W occupied alive item ring w) {p : ℕ}
    (hp : p ≤ W) (hW : W ≤ p + C) (hocc : p < W → occupied (p + C)) :
    (ring (p % C)).seqn = seqnOf T p ↔ p < W := by
  have hpos := hC.pos
  constructor
  · intro heq
    by_contra hlt
    obtain rfl : p = W := by omega
    by_cases ho : occupied p
    · have hle := h.behind p ho
      rw [h.full p le_rfl (by omega) ho] at heq
      refine seqnOf_add_capacity_ne hC (p - C) ?_
      rw [Nat.sub_add_cancel hle, heq]
    · rw [h.vacant p le_rfl (by omega) ho] at heq
      exact seqnOf_ne_dummy p heq.symm
  · intro hlt
    have := h.full (p + C) hW (by omega) (hocc hlt)
    rwa [Nat.add_mod_right, Nat.add_sub_cancel] at this

/-- The load of the writer succeeds exactly when its next bucket is not occupied. -/
theorem RingOk.tryWrite (hC : IsCapacity T C) (h : RingOk C W occupied alive item ring w)
    (ht : w.tryWrite ring e = some (w', evs)) :
    RingOk C W occupied alive item ring w' ∧ w.pc = .idle ∧
      ((¬ occupied W ∧ w' = ⟨w.impl, .construct e⟩ ∧ evs = [.offered e]) ∨
        (occupied W ∧ w' = w ∧ evs = [.offered e, .refused e])) := by
  have hpos := hC.pos
  unfold Writer.tryWrite at ht
  split at ht
  · rename_i hpc
    rw [h.index.nextBucket] at ht
    by_cases ho : occupied W
    · rw [h.full W le_rfl (by omega) ho, if_neg (seqnOf_ne_dummy _)] at ht
      simp only [Option.some.injEq, Prod.mk.injEq] at ht
      obtain ⟨rfl, rfl⟩ := ht
      exact ⟨h, hpc, .inr ⟨ho, rfl, rfl⟩⟩
    · rw [h.vacant W le_rfl (by omega) ho, if_pos rfl] at ht
      simp only [Option.some.injEq, Prod.mk.injEq] at ht
      obtain ⟨rfl, rfl⟩ := ht
      refine ⟨{ h with free := fun _ => ho, built := ?_ }, hpc, .inl ⟨ho, rfl, rfl⟩⟩
      intro e' he'
      cases he'
  · cases ht

/-- The construction touches a bucket that is not occupied. -/
theorem RingOk.construct (hC : IsCapacity T C) (h : RingOk C W occupied alive item ring w)
    (hpc : w.pc = .construct e) :
    RingOk C W occupied alive item (setStorage ring w.impl.nextBucket (some e))
      ⟨w.impl, .publish e⟩ := by
  have hpos := hC.pos
  have hfree : ¬ occupied W := h.free (by rw [hpc]; simp)
  refine { h with full := ?_, vacant := ?_, storage := ?_, free := fun _ => hfree, built := ?_ }
  · intro k hk hk' ho
    rw [setStorage_seqn]
    exact h.full k hk hk' ho
  · intro k hk hk' ho
    rw [setStorage_seqn]
    exact h.vacant k hk hk' ho
  · intro k hk hk' ha
    rw [h.index.nextBucket, setStorage_of_ne]
    · exact h.storage k hk hk' ha
    · intro heq
      have := WrappingCounter.mod_injOn_window hk hk' le_rfl (by omega) heq
      exact hfree (this ▸ h.occupied_of_alive k ha)
  · intro e' he'
    simp only [WriterPc.publish.injEq] at he'
    rw [h.index.nextBucket, setStorage_self, he']

/-- The store of `m_seqn` makes the event `W` occupy its bucket and moves the window on. -/
theorem RingOk.publish (hC : IsCapacity T C) (h : RingOk C W occupied alive item ring w)
    (hpc : w.pc = .publish e) (hocc : ∀ k, k ≠ W + C → (occupied' k ↔ occupied k))
    (halive : ∀ k, k ≠ W + C → alive' k → alive k) (hnew : occupied' (W + C))
    (hitem : item' W = some e) (hold : ∀ i, i < W → item' i = item i) :
    RingOk C (W + 1) occupied' alive' item' (setSeqn ring w.impl.nextBucket w.impl.seqn)
      ⟨w.impl.advance, .idle⟩ := by
  have hpos := hC.pos
  have hother : ∀ k, W + 1 ≤ k → k < W + C → k % C ≠ W % C := by
    intro k hk hk' heq
    have := WrappingCounter.mod_injOn_window (show W ≤ k by omega) hk' le_rfl (by omega) heq
    omega
  have hlast : (W + C) % C = W % C := Nat.add_mod_right W C
  refine ⟨h.index.advance hC, ?_, ?_, ?_, ?_, ?_, by simp, by simp⟩
  · intro k hk
    by_cases hkW : k = W + C
    · omega
    · exact h.behind k ((hocc k hkW).1 hk)
  · intro k hk
    by_cases hkW : k = W + C
    · exact hkW ▸ hnew
    · exact (hocc k hkW).2 (h.occupied_of_alive k (halive k hkW hk))
  · intro k hk hk' ho
    by_cases hkW : k = W + C
    · subst hkW
      rw [hlast, h.index.nextBucket, setSeqn_self, h.index.seqn_eq, Nat.add_sub_cancel]
    · rw [h.index.nextBucket, setSeqn_of_ne _ (hother k hk (by omega))]
      exact h.full k (by omega) (by omega) ((hocc k hkW).1 ho)
  · intro k hk hk' ho
    have hkW : k ≠ W + C := fun hkW => ho (hkW ▸ hnew)
    rw [h.index.nextBucket, setSeqn_of_ne _ (hother k hk (by omega))]
    exact h.vacant k (by omega) (by omega) (fun ho' => ho ((hocc k hkW).2 ho'))
  · intro k hk hk' ha
    rw [setSeqn_storage]
    by_cases hkW : k = W + C
    · subst hkW
      rw [hlast, Nat.add_sub_cancel, hitem]
      exact h.built e hpc
    · have ha' := halive k hkW ha
      have hle := h.behind k (h.occupied_of_alive k ha')
      rw [h.storage k (by omega) (by omega) ha', hold (k - C) (by omega)]

/-- The event of the slot `j` dies; its bucket stays occupied. -/
theorem RingOk.destroy (h : RingOk C W occupied alive item ring w) {j : ℕ} (hj : W ≤ j)
    (hj' : j < W + C) (ho : occupied j) (halive : ∀ k, alive' k → alive k ∧ k ≠ j) :
    RingOk C W occupied alive' item (setStorage ring (j % C) none) w := by
  refine { h with
    occupied_of_alive := fun k hk => h.occupied_of_alive k (halive k hk).1
    full := ?_, vacant := ?_, storage := ?_, built := ?_ }
  · intro k hk hk' hok
    rw [setStorage_seqn]
    exact h.full k hk hk' hok
  · intro k hk hk' hok
    rw [setStorage_seqn]
    exact h.vacant k hk hk' hok
  · intro k hk hk' ha
    obtain ⟨ha', hne⟩ := halive k ha
    rw [setStorage_of_ne]
    · exact h.storage k hk hk' ha'
    · exact fun heq => hne (WrappingCounter.mod_injOn_window hk hk' hj hj' heq)
  · intro e he
    have hfree : ¬ occupied W := h.free (by rw [he]; simp)
    rw [setStorage_of_ne]
    · exact h.built e he
    · intro heq
      have := WrappingCounter.mod_injOn_window le_rfl (by omega) hj hj' heq
      exact hfree (this ▸ ho)

/-- The bucket of the slot `j` is given back. -/
theorem RingOk.release (h : RingOk C W occupied alive item ring w) {j : ℕ} (hj : W ≤ j)
    (hj' : j < W + C) (hocc : ∀ k, occupied' k ↔ occupied k ∧ k ≠ j)
    (halive : ∀ k, alive' k → alive k ∧ k ≠ j) :
    RingOk C W occupied' alive' item (setSeqn ring (j % C) (dummyEventSeqNum T)) w := by
  have hother : ∀ k, W ≤ k → k < W + C → k ≠ j → k % C ≠ j % C := fun k hk hk' hne heq =>
    hne (WrappingCounter.mod_injOn_window hk hk' hj hj' heq)
  refine ⟨h.index, fun k hk => h.behind k ((hocc k).1 hk).1, ?_, ?_, ?_, ?_, ?_, ?_⟩
  · intro k hk
    obtain ⟨ha, hne⟩ := halive k hk
    exact (hocc k).2 ⟨h.occupied_of_alive k ha, hne⟩
  · intro k hk hk' ho
    obtain ⟨ho, hne⟩ := (hocc k).1 ho
    rw [setSeqn_of_ne _ (hother k hk hk' hne)]
    exact h.full k hk hk' ho
  · intro k hk hk' ho
    by_cases hne : k = j
    · rw [hne, setSeqn_self]
    · rw [setSeqn_of_ne _ (hother k hk hk' hne)]
      exact h.vacant k hk hk' (fun ho' => ho ((hocc k).2 ⟨ho', hne⟩))
  · intro k hk hk' ha
    rw [setSeqn_storage]
    exact h.storage k hk hk' (halive k ha).1
  · intro hpc ho
    exact h.free hpc ((hocc W).1 ho).1
  · intro e he
    rw [setSeqn_storage]
    exact h.built e he

theorem ringOk_new (nextReaderId : T.Val) (behind : ∀ k, occupied k → C ≤ k)
    (halive : ∀ k, alive k → occupied k) :
    RingOk C 0 occupied alive item (fun _ => Bucket.new (T := T))
      ⟨{ QueueImpl.new T C with nextReaderId := nextReaderId }, .idle⟩ where
  index := ⟨rfl, rfl, by simp [QueueImpl.new]⟩
  behind := behind
  occupied_of_alive := halive
  full k _ hk ho := by have := behind k ho; omega
  vacant _ _ _ _ := rfl
  storage k _ hk ha := by have := behind k (halive k ha); omega
  free hpc := absurd rfl hpc
  built e he := by cases he

end Ok

end Ihft.Channel.One2One
