import Ihft.Lib.Broadcast
import Ihft.Channel.ChannelHelper

/-!
# Private counters of writers and readers

Every queue keeps its position in two private fields: a wrapping sequence number and the bucket it
selects.  `QueueImpl` holds those of the writer, `StreamReader` those of a reader.  `AtIndex` says
that such a pair stands at an unbounded index, and is kept by `advance`.
-/

namespace Ihft.Channel

/-- The only reader of a one-to-one queue has the number `0`. -/
instance singleReader : NeZero 1 := ⟨Nat.one_ne_zero⟩

variable {T : SeqnumCounter}

/-- `SEQNUM_MASK`, the same in both families of queues. -/
def seqnumMask (T : SeqnumCounter) : T.Val := T.max >>> 1

/-- `DUMMY_EVENT_SEQ_NUM`, the same in both families of queues. -/
def dummyEventSeqNum (T : SeqnumCounter) : T.Val := T.max

/-- The sequence number stored for the event with the unbounded index `i`. -/
def seqnOf (T : SeqnumCounter) (i : ℕ) : T.Val := WrappingCounter.stamp T.digits i

theorem ofNat_and_seqnumMask (i : ℕ) : BitVec.ofNat T.digits i &&& seqnumMask T = seqnOf T i := rfl

theorem seqnOf_ne_dummy (i : ℕ) : seqnOf T i ≠ dummyEventSeqNum T :=
  WrappingCounter.stamp_ne_allOnes T.digits_pos i

/-- Events that meet in one bucket have different sequence numbers. -/
theorem seqnOf_add_capacity_ne {C : ℕ} (hC : IsCapacity T C) (i : ℕ) :
    seqnOf T (i + C) ≠ seqnOf T i := by
  have hpos := hC.pos
  have h2 := hC.two_mul_le
  exact (WrappingCounter.stamp_ne_of_lt T.digits_pos (by omega) (by omega)).symm

/-! ## The reader -/

/-- The private fields of a reader, `one2*_seqnum_stream_*_reader`. -/
structure StreamReader (T : SeqnumCounter) where
  nextBucket : ℕ
  storageMask : ℕ
  nextSeqNum : T.Val
  id : T.Val
  deriving DecidableEq, Repr

namespace StreamReader

/-- The constructor of a reader. -/
def new (storageMask : ℕ) (id : T.Val) : StreamReader T where
  nextBucket := 0 &&& storageMask
  storageMask := storageMask
  nextSeqNum := 0
  id := id

/-- `counter_t const next = m_next_seq_num & SEQNUM_MASK`. -/
def next (r : StreamReader T) : T.Val := r.nextSeqNum &&& seqnumMask T

/-- `m_next_seq_num++; m_next_bucket = m_next_seq_num & m_storage_mask;` -/
def advance (r : StreamReader T) : StreamReader T :=
  let nextSeqNum := r.nextSeqNum + 1
  { r with nextSeqNum := nextSeqNum, nextBucket := nextSeqNum.toNat &&& r.storageMask }

/-- The reader stands at the event with the unbounded index `i`. -/
structure AtIndex (r : StreamReader T) (C i : ℕ) : Prop where
  storageMask : r.storageMask = C - 1
  nextSeqNum : r.nextSeqNum = BitVec.ofNat T.digits i
  nextBucket : r.nextBucket = i % C

theorem atIndex_new {C : ℕ} (id : T.Val) : (new (C - 1) id).AtIndex C 0 :=
  ⟨rfl, rfl, by simp [new]⟩

theorem AtIndex.next_eq {r : StreamReader T} {C i : ℕ} (h : r.AtIndex C i) :
    r.next = seqnOf T i := by
  rw [next, h.nextSeqNum, ofNat_and_seqnumMask]

theorem AtIndex.advance {r : StreamReader T} {C i : ℕ} (hC : IsCapacity T C)
    (h : r.AtIndex C i) : r.advance.AtIndex C (i + 1) where
  storageMask := h.storageMask
  nextSeqNum := by simp only [StreamReader.advance, h.nextSeqNum, WrappingCounter.ofNat_succ]
  nextBucket := by
    simp only [StreamReader.advance, h.nextSeqNum, WrappingCounter.ofNat_succ, h.storageMask,
      hC.and_mask]

/-- After `i` events the reader stands at the index `i`. -/
theorem atIndex_iterate {C : ℕ} (hC : IsCapacity T C) (id : T.Val) :
    ∀ i, (StreamReader.advance^[i] (new (C - 1) id)).AtIndex C i
  | 0 => atIndex_new id
  | i + 1 => by
    rw [Function.iterate_succ_apply']
    exact (atIndex_iterate hC id i).advance hC

@[simp] theorem advance_id (r : StreamReader T) : r.advance.id = r.id := rfl

end StreamReader

/-! ## The writer -/

/-- The private fields of `one2one_seqnum_stream_queue_impl` and of its one-to-each twin, which
declare the same ones; the shared ring is kept apart. -/
structure QueueImpl (T : SeqnumCounter) where
  nextBucket : ℕ
  storageMask : ℕ
  nextSeqNum : T.Val
  nextReaderId : T.Val
  deriving DecidableEq, Repr

namespace QueueImpl

/-- The constructor, for a ring of `n` places. -/
def new (T : SeqnumCounter) (n : ℕ) : QueueImpl T where
  nextBucket := 0
  storageMask := n - 1
  nextSeqNum := 0
  nextReaderId := 0

/-- `counter_t const seqn = m_next_seq_num & SEQNUM_MASK`. -/
def seqn (q : QueueImpl T) : T.Val := q.nextSeqNum &&& seqnumMask T

/-- `m_next_seq_num++; m_next_bucket = m_next_seq_num & m_storage_mask;` -/
def advance (q : QueueImpl T) : QueueImpl T :=
  let nextSeqNum := q.nextSeqNum + 1
  { q with nextSeqNum := nextSeqNum, nextBucket := nextSeqNum.toNat &&& q.storageMask }

/-- `create_reader`: the identifiers run up to the one that marks a moved-from guard. -/
def createReader (dummyReaderId : T.Val) (q : QueueImpl T) : QueueImpl T × Option (StreamReader T) :=
  let nextId := q.nextReaderId
  let q := { q with nextReaderId := q.nextReaderId + 1 }
  if nextId ≠ dummyReaderId then
    (q, some (.new q.storageMask nextId))
  else
    ({ q with nextReaderId := q.nextReaderId - 1 }, none)

/-- `capacity()`. -/
def capacity (q : QueueImpl T) : ℕ := q.storageMask + 1

/-- `readers_count()`, a `size_t`. -/
def readersCount (q : QueueImpl T) : ℕ := q.nextReaderId.toNat

/-- `readers_mask()`, a `size_t`; there is none where the shift is as wide as the word. -/
def readersMask (q : QueueImpl T) : Option (BitVec 64) :=
  if q.nextReaderId.toNat < 64 then some (~~~(~~~0#64 <<< q.nextReaderId.toNat)) else none

/-- The writer stands at the event with the unbounded index `i`. -/
structure AtIndex (q : QueueImpl T) (C i : ℕ) : Prop where
  storageMask : q.storageMask = C - 1
  nextSeqNum : q.nextSeqNum = BitVec.ofNat T.digits i
  nextBucket : q.nextBucket = i % C

theorem AtIndex.seqn_eq {q : QueueImpl T} {C i : ℕ} (h : q.AtIndex C i) :
    q.seqn = seqnOf T i := by
  rw [seqn, h.nextSeqNum, ofNat_and_seqnumMask]

theorem AtIndex.advance {q : QueueImpl T} {C i : ℕ} (hC : IsCapacity T C)
    (h : q.AtIndex C i) : q.advance.AtIndex C (i + 1) where
  storageMask := h.storageMask
  nextSeqNum := by simp only [QueueImpl.advance, h.nextSeqNum, WrappingCounter.ofNat_succ]
  nextBucket := by
    simp only [QueueImpl.advance, h.nextSeqNum, WrappingCounter.ofNat_succ, h.storageMask,
      hC.and_mask]

/-- After `i` events the writer stands at the index `i`. -/
theorem atIndex_iterate {C : ℕ} (hC : IsCapacity T C) :
    ∀ i, (QueueImpl.advance^[i] (QueueImpl.new T C)).AtIndex C i
  | 0 => ⟨rfl, rfl, (Nat.zero_mod C).symm⟩
  | i + 1 => by
    rw [Function.iterate_succ_apply']
    exact (atIndex_iterate hC i).advance hC

@[simp] theorem advance_nextReaderId (q : QueueImpl T) :
    q.advance.nextReaderId = q.nextReaderId := rfl

end QueueImpl

/-! ## The numbers of a queue -/

/-- Indices at most a round of the ring apart are equal where their stored numbers are. -/
theorem eq_of_seqnOf_eq {C : ℕ} (hC : IsCapacity T C) {i j : ℕ} (hij : i ≤ j + C) (hji : j ≤ i + C)
    (h : seqnOf T i = seqnOf T j) : i = j := by
  have hpos := hC.pos
  have h2 := hC.two_mul_le
  rcases lt_trichotomy i j with hlt | heq | hlt
  · exact absurd h (WrappingCounter.stamp_ne_of_lt T.digits_pos hlt (by omega))
  · exact heq
  · exact absurd h.symm (WrappingCounter.stamp_ne_of_lt T.digits_pos hlt (by omega))

/-- `v` is the number that a reader, which goes on with the event `p`, awaits in the bucket `b`. -/
def AwaitedIn (T : SeqnumCounter) (C p b : ℕ) (v : T.Val) : Prop :=
  ∃ k, p ≤ k ∧ k < p + C ∧ k % C = b ∧ v = seqnOf T k

theorem awaitedIn_self {C : ℕ} (hC : 0 < C) (p : ℕ) : AwaitedIn T C p (p % C) (seqnOf T p) :=
  ⟨p, le_rfl, by omega, rfl, rfl⟩

/-- After the event `p` only another number is awaited in its bucket. -/
theorem AwaitedIn.of_succ {C p b : ℕ} {v : T.Val} (h : AwaitedIn T C (p + 1) b v)
    (hb : b ≠ p % C) : AwaitedIn T C p b v := by
  obtain ⟨k, hk, hk', rfl, rfl⟩ := h
  refine ⟨k, by omega, ?_, rfl, rfl⟩
  by_contra hge
  obtain rfl : k = p + C := by omega
  exact hb (Nat.add_mod_right p C)

theorem AwaitedIn.ne_dummy {C p b : ℕ} {v : T.Val} (h : AwaitedIn T C p b v) :
    v ≠ dummyEventSeqNum T := by
  obtain ⟨k, -, -, -, rfl⟩ := h
  exact seqnOf_ne_dummy k

/-- The numbers that the writer and the readers of a queue of capacity `C` compute for the event
`i`, and what tells the events apart by them. -/
structure NeverAlias (T : SeqnumCounter) (C : ℕ) : Prop where
  writer : ∀ i, let q := QueueImpl.advance^[i] (QueueImpl.new T C)
    q.seqn = BitVec.ofNat T.digits i &&& seqnumMask T ∧ q.nextBucket = i % C
  reader : ∀ id i, let r := StreamReader.advance^[i] (StreamReader.new (T := T) (C - 1) id)
    r.next = BitVec.ofNat T.digits i &&& seqnumMask T ∧ r.nextBucket = i % C
  distinct : ∀ i j, i % C = j % C → i ≤ j + C → j ≤ i + C →
    BitVec.ofNat T.digits i &&& seqnumMask T = BitVec.ofNat T.digits j &&& seqnumMask T → i = j
  not_dummy : ∀ i, BitVec.ofNat T.digits i &&& seqnumMask T ≠ dummyEventSeqNum T
  bucket : ∀ i, (BitVec.ofNat T.digits i).toNat &&& (C - 1) = i % C

/-- No two events that meet in one bucket share a number, however often the counter wraps. -/
theorem to2pow_neverAlias (T : SeqnumCounter) (n : ℕ) :
    ∃ C, to2pow T n = some C ∧ NeverAlias T C := by
  obtain ⟨C, hto2pow, hC, -⟩ := to2pow_spec T n
  refine ⟨C, hto2pow, ⟨fun i => ?_, fun id i => ?_, fun i j _ hij hji h => ?_, seqnOf_ne_dummy,
    hC.and_mask⟩⟩
  · have hi := QueueImpl.atIndex_iterate (T := T) hC i
    exact ⟨hi.seqn_eq, hi.nextBucket⟩
  · have hi := StreamReader.atIndex_iterate hC id i
    exact ⟨hi.next_eq, hi.nextBucket⟩
  · exact eq_of_seqnOf_eq hC hij hji h

/-- What a `try_write` shows: the event it was called with, and how it ended. -/
inductive WriterEvent (β : Type*)
  | offered (event : β)
  | wrote (event : β)
  | refused (event : β)
  deriving DecidableEq, Repr

/-! ## Plain events -/

/-- Where the reader of a POD queue stands inside `try_read`, in the bucket `b`. -/
inductive PodReaderPc (α : Type*)
  | idle
  | copy (b : ℕ)
  | release (b : ℕ) (opt : Option α)
  deriving DecidableEq, Repr

/-- The bucket that the reader works in. -/
def PodReaderPc.bucket {α : Type*} : PodReaderPc α → Option ℕ
  | .idle => none
  | .copy b => some b
  | .release b _ => some b

/-- The number of the event that the next load of the reader waits for; `taken` counts the finished
calls. -/
def PodReaderPc.nextNumber {α : Type*} (taken : ℕ) : PodReaderPc α → ℕ
  | .idle => taken
  | .copy _ => taken + 1
  | .release _ _ => taken + 1

/-- The moves of the threads of a POD queue: a call of `try_write` or `try_read`, up to and with
its first atomic operation, or one more atomic operation of a thread inside its call. -/
inductive PodInput (R : ℕ) (α : Type*)
  | tryWrite (event : α)
  | writer
  | tryRead (r : Fin R)
  | reader (r : Fin R)
  deriving DecidableEq, Repr

/-- The reader next to the event `p`: inside `try_read` it has moved its private counters past the
event it is taking. -/
def PodReaderOk {α : Type*} (C : ℕ) (written : List α) (p : ℕ) (reader : StreamReader T) :
    PodReaderPc α → Prop
  | .idle => reader.AtIndex C p
  | .copy b => reader.AtIndex C (p + 1) ∧ p < written.length ∧ b = p % C
  | .release b opt => reader.AtIndex C (p + 1) ∧ p < written.length ∧ b = p % C ∧ opt = written[p]?

theorem PodReaderOk.append {α : Type*} {C p : ℕ} {written : List α} {reader : StreamReader T}
    {pc : PodReaderPc α} (h : PodReaderOk C written p reader pc) (es : List α) :
    PodReaderOk C (written ++ es) p reader pc := by
  cases pc with
  | idle => exact h
  | copy b =>
    obtain ⟨h1, h2, h3⟩ := h
    exact ⟨h1, by simp only [List.length_append]; omega, h3⟩
  | release b opt =>
    obtain ⟨h1, h2, h3, h4⟩ := h
    exact ⟨h1, by simp only [List.length_append]; omega, h3,
      by rw [h4, List.getElem?_append_left h2]⟩

/-- The completed operations a writer shows. -/
def WriterEvent.podObs {R : ℕ} {α : Type*} : WriterEvent α → List (Broadcast.Obs (Fin R) α)
  | .offered _ => []
  | .wrote event => [.wrote event]
  | .refused event => [.refused event]

end Ihft.Channel
