import Ihft.Lib.CountDown
import Ihft.Channel.One2Each.QueueImpl

/-!
# The one-to-each ring under release and acquire

The loads and stores of `m_seqn` and `m_counter` with the memory orders of the source, over a memory
in which loads may be stale.  The event in a bucket is a plain cell.  `RingMemoryOk` says that every
bucket is a cell that the writer shares with the readers until its counter has run down.
-/

namespace Ihft.Channel.One2Each

open ReleaseAcquire

variable {T : SeqnumCounter} {R : ℕ} {β : Type*}

/-- The threads of a one-to-each queue. -/
inductive Party (R : ℕ)
  | writer
  | reader (r : Fin R)
  deriving DecidableEq, Repr, Fintype

/-- The atomic fields of a bucket. -/
inductive Location
  | seqn (b : ℕ)
  | counter (b : ℕ)
  deriving DecidableEq, Repr

/-- The buckets: `m_seqn` and `m_counter` are atomic, the storage is plain. -/
abbrev RingMemory (T : SeqnumCounter) (R : ℕ) (β : Type*) :=
  Memory Location ℕ (Party R) T.Val (Option β)

/-- The atomic fields of a new bucket. -/
def Location.initial (T : SeqnumCounter) : Location → T.Val
  | .seqn _ => dummyEventSeqNum T
  | .counter _ => emptyDataMark T

/-- The buckets as they are constructed. -/
def RingMemory.new (T : SeqnumCounter) (R : ℕ) (β : Type*) : RingMemory T R β :=
  .initial ℕ (Party R) (Location.initial T) fun _ => none

/-! ## The steps of `try_write` -/

/-- Enter `try_write`: `m_counter.load(std::memory_order_acquire)` of the next bucket reads the store
of the time `t`. -/
def Writer.tryWriteAt (w : Writer T β) (memory : RingMemory T R β) (event : β) (counter : T.Val)
    (t : ℕ) : Option (RingMemory T R β × Writer T β × List (Event ℕ (WriterEvent β))) :=
  match w.pc with
  | .idle =>
    match memory.load .acquire .writer (.counter w.impl.nextBucket) t with
    | none => none
    | some (value, memory) =>
      if value = emptyDataMark T then
        some (memory, { w with pc := .construct event counter }, [.shows (.offered event)])
      else
        some (memory, w, [.shows (.offered event), .shows (.refused event)])
  | _ => none

/-- Go on inside `try_write`: construct the event, then `m_counter.store(counter,
std::memory_order_relaxed)`, then `m_seqn.store(seqn, std::memory_order_release)`. -/
def Writer.resumeAt (w : Writer T β) (memory : RingMemory T R β) (t : ℕ) :
    Option (RingMemory T R β × Writer T β × List (Event ℕ (WriterEvent β))) :=
  let b := w.impl.nextBucket
  match w.pc with
  | .idle => none
  | .construct event counter =>
    some (memory.writeCell .writer b (some event), { w with pc := .storeCounter event counter },
      raceIf (memory.WriteRaces .writer b) b)
  | .storeCounter event counter =>
    (memory.store .relaxed .writer (.counter b) counter t).map fun memory =>
      (memory, { w with pc := .publish event counter }, [])
  | .publish event _ =>
    (memory.store .release .writer (.seqn b) w.impl.seqn t).map fun memory =>
      (memory, ⟨w.impl.advance, .idle⟩, [.shows (.wrote event)])

/-- The bucket that the writer works in. -/
def Writer.bucket (w : Writer T β) : Option ℕ :=
  match w.pc with
  | .idle => none
  | _ => some w.impl.nextBucket

/-- The rest of `try_write` shows nothing or that it went through. -/
theorem Writer.resume_cases {w w' : Writer T β} {ring ring' : RingBuffer T β}
    {evs : List (WriterEvent β)} (h : w.resume ring = some (ring', w', evs)) :
    evs = [] ∨ ∃ e, evs = [.wrote e] := by
  unfold Writer.resume at h
  split at h
  · cases h
  · cases h
    exact .inl rfl
  · cases h
    exact .inl rfl
  · cases h
    exact .inr ⟨_, rfl⟩

/-! ## The rounds of the buckets -/

/-- Who is at work in which bucket: the writer writes in one, the readers in `pending b` still need
the event in `b`, and those in `reading b` have found it. -/
structure RoundsOk (round : ℕ → Round (Party R) T.Val) (writing : Option ℕ)
    (pending reading : ℕ → Fin R → Prop) : Prop where
  writing : ∀ b, (round b).writing ↔ writing = some b
  pending : ∀ b r, (round b).pending (.reader r) ↔ pending b r
  reading : ∀ b r, (round b).reading (.reader r) ↔ reading b r
  writer : ∀ b, ¬ (round b).pending .writer ∧ ¬ (round b).reading .writer

namespace RoundsOk

variable {round : ℕ → Round (Party R) T.Val} {writing : Option ℕ}
  {pending pending' reading reading' : ℕ → Fin R → Prop} {b : ℕ} {r : Fin R}

/-- The round of one bucket changes. -/
theorem update (h : RoundsOk round writing pending reading) {p : Round (Party R) T.Val}
    {writing' : Option ℕ} (hw : p.writing ↔ writing' = some b)
    (hp : ∀ r, p.pending (.reader r) ↔ pending' b r)
    (hr : ∀ r, p.reading (.reader r) ↔ reading' b r)
    (hself : ¬ p.pending .writer ∧ ¬ p.reading .writer)
    (hw' : ∀ c ≠ b, writing' = some c ↔ writing = some c)
    (hp' : ∀ c ≠ b, ∀ r, pending' c r ↔ pending c r)
    (hr' : ∀ c ≠ b, ∀ r, reading' c r ↔ reading c r) :
    RoundsOk (Function.update round b p) writing' pending' reading' := by
  constructor <;> intro c <;> rcases eq_or_ne c b with rfl | hne
  · simpa using hw
  · simpa [hne, h.writing] using (hw' c hne).symm
  · simpa using hp
  · simpa [hne, h.pending] using fun r => (hp' c hne r).symm
  · simpa using hr
  · simpa [hne, h.reading] using fun r => (hr' c hne r).symm
  · simpa using hself
  · simpa [hne] using h.writer c

theorem take (h : RoundsOk round none pending reading) (b : ℕ) :
    RoundsOk (Function.update round b (round b).take) (some b) pending reading := by
  refine h.update ?_ (h.pending b) (h.reading b) (h.writer b) ?_ (fun _ _ _ => Iff.rfl)
    fun _ _ _ => Iff.rfl
  · simp [Round.take]
  · intro c hne
    simp [hne.symm]

theorem arm (h : RoundsOk round (some b) pending reading) (left : T.Val) (t : ℕ)
    (hp : ∀ c r, pending' c r ↔ pending c r ∨ c = b) :
    RoundsOk (Function.update round b ((round b).arm (fun i => i ≠ .writer) left t)) (some b)
      pending' reading := by
  refine h.update ?_ (fun r => ?_) (h.reading b) ⟨by simp [Round.arm], (h.writer b).2⟩
    (fun _ _ => Iff.rfl)
    (fun c hne r => ?_) fun _ _ _ => Iff.rfl
  · exact h.writing b
  · simp [Round.arm, hp]
  · simp [hp, hne]

theorem publish (h : RoundsOk round (some b) pending reading) (stamp : T.Val)
    (hp : ∀ c r, pending' c r ↔ pending c r) :
    RoundsOk (Function.update round b ((round b).publish stamp)) none pending' reading := by
  refine h.update ?_ (fun r => (h.pending b r).trans (hp b r).symm) (h.reading b) (h.writer b) ?_
    (fun c _ r => hp c r) fun _ _ _ => Iff.rfl
  · simp [Round.publish]
  · intro c hne
    simp [hne.symm]

theorem enter (h : RoundsOk round writing pending reading)
    (hr : ∀ c r', reading' c r' ↔ reading c r' ∨ (c = b ∧ r' = r)) :
    RoundsOk (Function.update round b ((round b).enter (.reader r))) writing pending reading' := by
  refine h.update (h.writing b) (h.pending b) (fun r' => ?_) ⟨(h.writer b).1, ?_⟩
    (fun _ _ => Iff.rfl) (fun _ _ _ => Iff.rfl) fun c hne r' => ?_
  · simp [Round.enter, hr, h.reading]
  · simp [Round.enter, (h.writer b).2]
  · simp [hr, hne]

theorem leave (h : RoundsOk round writing pending reading) (left : T.Val)
    (hp : ∀ c r', pending' c r' ↔ pending c r' ∧ ¬ (c = b ∧ r' = r))
    (hr : ∀ c r', reading' c r' ↔ reading c r' ∧ ¬ (c = b ∧ r' = r)) :
    RoundsOk (Function.update round b ((round b).leave (.reader r) left)) writing pending'
      reading' := by
  refine h.update (h.writing b) (fun r' => ?_) (fun r' => ?_)
    ⟨fun hw => (h.writer b).1 hw.1, fun hw => (h.writer b).2 hw.1⟩
    (fun _ _ => Iff.rfl) (fun c hne r' => ?_) fun c hne r' => ?_
  · simp [Round.leave, hp, h.pending]
  · simp [Round.leave, hr, h.reading]
  · simp [hp, hne]
  · simp [hr, hne]

/-- The counter of a bucket that nobody needs is set. -/
theorem clear (h : RoundsOk round writing pending reading) (left : T.Val) (t : ℕ) :
    RoundsOk (Function.update round b ((round b).arm (round b).pending left t)) writing pending
      reading :=
  h.update (h.writing b) (h.pending b) (h.reading b) (h.writer b) (fun _ _ => Iff.rfl)
    (fun _ _ _ => Iff.rfl) fun _ _ _ => Iff.rfl

end RoundsOk

/-! ## The invariant -/

/-- What the threads wait for in the bucket `b`; `next r` is the event that `r` goes on with. -/
def Awaits (T : SeqnumCounter) (C : ℕ) (next : Fin R → ℕ) (b : ℕ) : Party R → T.Val → Prop
  | .writer, _ => False
  | .reader r, v => AwaitedIn T C (next r) b v

/-- The bucket `b` with its event, as a cell that the writer shares with the readers. -/
abbrev Shared (memory : RingMemory T R β) (b : ℕ) (awaits : Party R → T.Val → Prop)
    (p : Round (Party R) T.Val) : Prop :=
  SharedCell memory (.seqn b) (.counter b) b .writer (emptyDataMark T) awaits p

/-- The atomic fields of the bucket `b`, whatever is done with its event. -/
abbrev Counted (memory : RingMemory T R β) (b : ℕ) (awaits : Party R → T.Val → Prop)
    (p : Round (Party R) T.Val) : Prop :=
  CountedDown memory (.seqn b) (.counter b) .writer (emptyDataMark T) awaits p

/-- The memory against the ring of the latest stores, where `P` holds of every bucket. -/
structure RingMemoryOk
    (P : RingMemory T R β → ℕ → (Party R → T.Val → Prop) → Round (Party R) T.Val → Prop) (C : ℕ)
    (next : Fin R → ℕ) (round : ℕ → Round (Party R) T.Val) (ring : RingBuffer T β)
    (memory : RingMemory T R β) : Prop where
  bucket : ∀ b, P memory b (Awaits T C next b) (round b)
  stamp : ∀ b, (round b).stamp = (ring b).seqn
  left : ∀ b, (round b).left = (ring b).counter
  cells : ∀ b, memory.cells b = (ring b).storage

/-- A reader that goes on awaits less, but for its bucket. -/
theorem awaits_update {C b : ℕ} {next : Fin R → ℕ} {r : Fin R} {j : Party R} {v : T.Val}
    (hj : b = next r % C → j ≠ .reader r)
    (h : Awaits T C (Function.update next r (next r + 1)) b j v) : Awaits T C next b j v := by
  cases j with
  | writer => exact h
  | reader r' =>
    change AwaitedIn T C (Function.update next r (next r + 1) r') b v at h
    rcases eq_or_ne r' r with rfl | hne
    · rw [Function.update_self] at h
      exact h.of_succ fun hb => hj hb rfl
    · rw [Function.update_of_ne hne] at h
      exact h

/-- The rounds at the start. -/
def Round.initial (T : SeqnumCounter) (R : ℕ) : Round (Party R) T.Val :=
  ⟨False, fun _ => False, fun _ => False, dummyEventSeqNum T, emptyDataMark T, 0⟩

theorem ringMemoryOk_new (C : ℕ) (next : Fin R → ℕ) :
    RingMemoryOk Shared C next (fun _ => Round.initial T R) (fun _ => Bucket.new (T := T) (β := β))
      (RingMemory.new T R β) where
  bucket b := SharedCell.initial rfl b _ _
  stamp _ := rfl
  left _ := rfl
  cells _ := rfl

namespace RingMemoryOk

variable {C b t : ℕ} {next next' : Fin R → ℕ} {round : ℕ → Round (Party R) T.Val}
  {ring ring' : RingBuffer T β} {memory memory' : RingMemory T R β} {i : Party R} {r : Fin R}
  {v : T.Val} {o : MemoryOrder} {ℓ : Location} {p : Round (Party R) T.Val}

section Buckets

variable {P : RingMemory T R β → ℕ → (Party R → T.Val → Prop) → Round (Party R) T.Val → Prop}

theorem frame (h : RingMemoryOk P C next round ring memory)
    (hbucket : ∀ c, P memory' c (Awaits T C next c) (round c))
    (hcells : memory'.cells = memory.cells) : RingMemoryOk P C next round ring memory' := by
  refine ⟨hbucket, h.stamp, h.left, fun c => ?_⟩
  rw [hcells]
  exact h.cells c

/-- One bucket changes, with its round. -/
theorem update (h : RingMemoryOk P C next round ring memory)
    (hself : P memory' b (Awaits T C next' b) p)
    (hother : ∀ c ≠ b, P memory' c (Awaits T C next' c) (round c))
    (hring : ∀ c ≠ b, ring' c = ring c) (hcells : ∀ c ≠ b, memory'.cells c = memory.cells c)
    (hstamp : p.stamp = (ring' b).seqn) (hleft : p.left = (ring' b).counter)
    (hcell : memory'.cells b = (ring' b).storage) :
    RingMemoryOk P C next' (Function.update round b p) ring' memory' := by
  constructor <;> intro c <;> rcases eq_or_ne c b with rfl | hne
  · rw [Function.update_self]
    exact hself
  · rw [Function.update_of_ne hne]
    exact hother c hne
  · rw [Function.update_self]
    exact hstamp
  · rw [Function.update_of_ne hne, hring c hne]
    exact h.stamp c
  · rw [Function.update_self]
    exact hleft
  · rw [Function.update_of_ne hne, hring c hne]
    exact h.left c
  · exact hcell
  · rw [hcells c hne, hring c hne]
    exact h.cells c

/-- A thread has loaded from a bucket. -/
theorem loaded (h : RingMemoryOk P C next round ring memory)
    (hcells : memory'.cells = memory.cells) (hself : P memory' b (Awaits T C next' b) p)
    (hother : ∀ c ≠ b, P memory' c (Awaits T C next' c) (round c))
    (hstamp : p.stamp = (round b).stamp) (hleft : p.left = (round b).left) :
    RingMemoryOk P C next' (Function.update round b p) ring memory' := by
  refine h.update hself hother (fun _ _ => rfl) (fun c _ => by rw [hcells])
    (hstamp.trans (h.stamp b)) (hleft.trans (h.left b)) ?_
  rw [hcells]
  exact h.cells b

/-- A thread has stored to the counter of a bucket. -/
theorem countered (h : RingMemoryOk P C next round ring memory)
    (hcells : memory'.cells = memory.cells) (hself : P memory' b (Awaits T C next b) p)
    (hother : ∀ c ≠ b, P memory' c (Awaits T C next c) (round c))
    (hstamp : p.stamp = (round b).stamp) :
    RingMemoryOk P C next (Function.update round b p) (setCounter ring b p.left) memory' := by
  refine h.update hself hother (fun c hc => setCounter_of_ne ring hc _) (fun c _ => by rw [hcells])
    (by rw [setCounter_seqn, hstamp]; exact h.stamp b) (by rw [setCounter_self]) ?_
  rw [hcells, setCounter_storage]
  exact h.cells b

/-- The writer has stored the number of an event. -/
theorem stamped (h : RingMemoryOk P C next round ring memory)
    (hcells : memory'.cells = memory.cells) (hself : P memory' b (Awaits T C next b) p)
    (hother : ∀ c ≠ b, P memory' c (Awaits T C next c) (round c))
    (hleft : p.left = (round b).left) :
    RingMemoryOk P C next (Function.update round b p) (setSeqn ring b p.stamp) memory' := by
  refine h.update hself hother (fun c hc => setSeqn_of_ne ring hc _) (fun c _ => by rw [hcells])
    (by rw [setSeqn_self]) (by rw [setSeqn_counter, hleft]; exact h.left b) ?_
  rw [hcells, setSeqn_storage]
  exact h.cells b

/-- The event in a bucket has changed. -/
theorem stored (h : RingMemoryOk P C next round ring memory) {x : Option β}
    (hbucket : ∀ c, P (memory.writeCell i b x) c (Awaits T C next c) (round c)) :
    RingMemoryOk P C next round (setStorage ring b x) (memory.writeCell i b x) := by
  have hring : ∀ c ≠ b, setStorage ring b x c = ring c := fun c hc => setStorage_of_ne ring hc x
  have hok := h.update (hbucket b) (fun c _ => hbucket c) hring
    (fun c hc => by rw [Memory.writeCell_cells, Function.update_of_ne hc])
    (by rw [h.stamp, setStorage_seqn]) (by rw [h.left, setStorage_counter])
    (by rw [Memory.writeCell_cells, Function.update_self, setStorage_self])
  rwa [Function.update_eq_self] at hok

end Buckets

section Shared

theorem load (h : RingMemoryOk Shared C next round ring memory)
    (hl : memory.load o i ℓ t = some (v, memory')) : RingMemoryOk Shared C next round ring memory' :=
  h.frame (fun c => (h.bucket c).load hl) (Memory.load_keeps hl).cells

/-- A writer that loads the empty mark has the bucket to itself. -/
theorem take (h : RingMemoryOk Shared C next round ring memory)
    (hnone : (ring b).counter = emptyDataMark T → ∀ j, ¬ (round b).pending j)
    (hl : memory.load .acquire .writer (.counter b) t = some (emptyDataMark T, memory')) :
    (ring b).counter = emptyDataMark T ∧
      RingMemoryOk Shared C next (Function.update round b (round b).take) ring memory' := by
  obtain ⟨hvalue, htake⟩ := (h.bucket b).take (fun heq => hnone (by rw [← h.left b, heq])) hl
  exact ⟨by rw [← h.left b, hvalue], h.loaded (Memory.load_keeps hl).cells htake
    (fun c _ => (h.bucket c).load hl) rfl rfl⟩

/-- The writer constructs an event in the bucket it has to itself. -/
theorem construct (h : RingMemoryOk Shared C next round ring memory) (hw : (round b).writing)
    (x : Option β) : ¬ memory.WriteRaces .writer b ∧
      RingMemoryOk Shared C next round (setStorage ring b x) (memory.writeCell .writer b x) := by
  obtain ⟨hrace, hself⟩ := (h.bucket b).writeCell hw x
  refine ⟨hrace, h.stored fun c => ?_⟩
  rcases eq_or_ne c b with rfl | hne
  · exact hself
  · exact (h.bucket c).writeCell_of_ne hne

/-- The writer sets the counter. -/
theorem storeCounter (h : RingMemoryOk Shared C next round ring memory) (hw : (round b).writing)
    (hs : memory.store o .writer (.counter b) v t = some memory') :
    RingMemoryOk Shared C next (Function.update round b ((round b).arm (fun i => i ≠ .writer) v t))
      (setCounter ring b v) memory' :=
  h.countered (Memory.store_keeps hs).cells ((h.bucket b).arm (by simp) hw hs fun j hj => hj)
    (fun c hc => (h.bucket c).store_of_ne (by simp) (by simpa using hc) hs) rfl

/-- The writer publishes the event.  Nobody awaits the number that it replaces. -/
theorem publish (h : RingMemoryOk Shared C next round ring memory) (hw : (round b).writing)
    (hs : memory.store .release .writer (.seqn b) v t = some memory')
    (hne : ∀ r v', AwaitedIn T C (next r) b v' → v' ≠ (ring b).seqn) :
    RingMemoryOk Shared C next (Function.update round b ((round b).publish v)) (setSeqn ring b v)
      memory' := by
  refine h.stamped (Memory.store_keeps hs).cells
    ((h.bucket b).publish (by simp) hw hs fun j hj v' ha => ⟨ha, ?_⟩)
    (fun c hc => (h.bucket c).store_of_ne (by simpa using hc) (by simp) hs) rfl
  rw [h.stamp b]
  cases j with
  | writer => exact absurd rfl hj
  | reader r => exact hne r v' ha

/-- A load of the number of the next event has read the latest store. -/
theorem seqn_eq (h : RingMemoryOk Shared C next round ring memory) (hC : 0 < C)
    (hl : memory.load .acquire (.reader r) (.seqn (next r % C)) t =
      some (seqnOf T (next r), memory')) : (ring (next r % C)).seqn = seqnOf T (next r) := by
  have hawaits : Awaits T C next (next r % C) (.reader r) (seqnOf T (next r)) := awaitedIn_self hC _
  rw [← h.stamp]
  exact ((h.bucket _).eq_of_load hl hawaits).symm

/-- A reader that loads the number of its next event goes on. -/
theorem enter (h : RingMemoryOk Shared C next round ring memory) (hC : 0 < C)
    (hl : memory.load .acquire (.reader r) (.seqn (next r % C)) t =
      some (seqnOf T (next r), memory'))
    (hw : ¬ (round (next r % C)).writing) (hp : (round (next r % C)).pending (.reader r)) :
    RingMemoryOk Shared C (Function.update next r (next r + 1))
      (Function.update round (next r % C) ((round (next r % C)).enter (.reader r))) ring
      memory' := by
  have hawaits : Awaits T C next (next r % C) (.reader r) (seqnOf T (next r)) := awaitedIn_self hC _
  exact h.loaded (Memory.load_keeps hl).cells
    ((h.bucket _).enter hw (by simp) hp hl hawaits fun j hj v => awaits_update fun _ => hj)
    (fun c hc => ((h.bucket c).load hl).mono fun j v => awaits_update fun heq => absurd heq hc)
    rfl rfl

/-- A reader copies the event it has found. -/
theorem copy (h : RingMemoryOk Shared C next round ring memory)
    (hr : (round b).reading (.reader r)) : ¬ memory.ReadRaces (.reader r) b ∧
      RingMemoryOk Shared C next round ring (memory.readCell (.reader r) b) := by
  obtain ⟨hrace, hself⟩ := (h.bucket b).readCell hr
  refine ⟨hrace, h.frame (fun c => ?_) rfl⟩
  rcases eq_or_ne c b with rfl | hne
  · exact hself
  · exact (h.bucket c).readCell_of_ne hne

/-- A reader takes itself off the counter of the event it has copied. -/
theorem leave (h : RingMemoryOk Shared C next round ring memory)
    (hr : (round b).reading (.reader r)) (hne : (ring b).counter ≠ emptyDataMark T)
    (hs : memory.fetchModify .release (.reader r) (.counter b) (· - 1) t = some (v, memory')) :
    RingMemoryOk Shared C next (Function.update round b ((round b).leave (.reader r)
      ((ring b).counter - 1))) (setCounter ring b ((ring b).counter - 1)) memory' := by
  have hleft := h.left b
  have hself := (h.bucket b).leave (by simp) hr (by rwa [hleft]) hs
  rw [hleft] at hself
  exact h.countered (Memory.fetchModify_keeps hs).cells hself
    (fun c hc => (h.bucket c).fetchModify_of_ne (by simp) (by simpa using hc) hs) rfl

end Shared

/-! ## Only the counters

Without a promise on the orders the counters still count; nothing is said of the events. -/

section Counted

theorem counted_new (C : ℕ) (next : Fin R → ℕ) :
    RingMemoryOk Counted C next (fun _ => Round.initial T R) (fun _ => Bucket.new (T := T) (β := β))
      (RingMemory.new T R β) where
  bucket _ := CountedDown.initial rfl _ _
  stamp _ := rfl
  left _ := rfl
  cells _ := rfl

theorem counted_load (h : RingMemoryOk Counted C next round ring memory)
    (hl : memory.load o i ℓ t = some (v, memory')) :
    RingMemoryOk Counted C next round ring memory' :=
  h.frame (fun c => (h.bucket c).load hl) (Memory.load_keeps hl).cells

theorem counted_take (h : RingMemoryOk Counted C next round ring memory)
    (hl : memory.load o .writer (.counter b) t = some (emptyDataMark T, memory')) :
    (ring b).counter = emptyDataMark T ∧
      RingMemoryOk Counted C next (Function.update round b (round b).take) ring memory' := by
  obtain ⟨hvalue, htake, -⟩ := (h.bucket b).take hl
  exact ⟨by rw [← h.left b, hvalue], h.loaded (Memory.load_keeps hl).cells htake
    (fun c _ => (h.bucket c).load hl) rfl rfl⟩

theorem counted_writeCell (h : RingMemoryOk Counted C next round ring memory) (x : Option β) :
    RingMemoryOk Counted C next round (setStorage ring b x) (memory.writeCell i b x) :=
  h.stored fun c => (h.bucket c).writeCell

theorem counted_readCell (h : RingMemoryOk Counted C next round ring memory) :
    RingMemoryOk Counted C next round ring (memory.readCell i b) :=
  h.frame (fun c => (h.bucket c).readCell) rfl

theorem counted_storeCounter (h : RingMemoryOk Counted C next round ring memory)
    (hw : (round b).writing) (hnone : ∀ j, ¬ (round b).reading j)
    (hs : memory.store o .writer (.counter b) v t = some memory') :
    RingMemoryOk Counted C next (Function.update round b ((round b).arm (fun i => i ≠ .writer) v t))
      (setCounter ring b v) memory' :=
  h.countered (Memory.store_keeps hs).cells ((h.bucket b).arm (by simp) hw hnone hs _)
    (fun c hc => (h.bucket c).store_of_ne (by simp) (by simpa using hc) hs) rfl

theorem counted_publish (h : RingMemoryOk Counted C next round ring memory) (hw : (round b).writing)
    (hs : memory.store .release .writer (.seqn b) v t = some memory')
    (hne : ∀ r v', AwaitedIn T C (next r) b v' → v' ≠ (ring b).seqn) :
    RingMemoryOk Counted C next (Function.update round b ((round b).publish v)) (setSeqn ring b v)
      memory' := by
  refine h.stamped (Memory.store_keeps hs).cells
    ((h.bucket b).publish (by simp) hw hs fun j hj v' ha => ⟨ha, ?_⟩).1
    (fun c hc => (h.bucket c).store_of_ne (by simpa using hc) (by simp) hs) rfl
  rw [h.stamp b]
  cases j with
  | writer => exact absurd rfl hj
  | reader r => exact hne r v' ha

theorem counted_seqn_eq (h : RingMemoryOk Counted C next round ring memory) (hC : 0 < C)
    (hl : memory.load o (.reader r) (.seqn (next r % C)) t = some (seqnOf T (next r), memory')) :
    (ring (next r % C)).seqn = seqnOf T (next r) := by
  have hawaits : Awaits T C next (next r % C) (.reader r) (seqnOf T (next r)) := awaitedIn_self hC _
  rw [← h.stamp]
  exact ((h.bucket _).eq_of_load hl hawaits).symm

theorem counted_enter (h : RingMemoryOk Counted C next round ring memory) (hC : 0 < C)
    (hl : memory.load .acquire (.reader r) (.seqn (next r % C)) t =
      some (seqnOf T (next r), memory'))
    (hw : ¬ (round (next r % C)).writing) (hp : (round (next r % C)).pending (.reader r)) :
    RingMemoryOk Counted C (Function.update next r (next r + 1))
      (Function.update round (next r % C) ((round (next r % C)).enter (.reader r))) ring
      memory' := by
  have hawaits : Awaits T C next (next r % C) (.reader r) (seqnOf T (next r)) := awaitedIn_self hC _
  exact h.loaded (Memory.load_keeps hl).cells
    ((h.bucket _).enter hw hp hl hawaits fun j hj v => awaits_update fun _ => hj).1
    (fun c hc => ((h.bucket c).load hl).mono fun j v => awaits_update fun heq => absurd heq hc)
    rfl rfl

/-- A reader takes itself off the counter, and has seen all of its stores then. -/
theorem counted_leave (h : RingMemoryOk Counted C next round ring memory)
    (hr : (round b).reading (.reader r)) (hw : ¬ (round b).writing)
    (hne : (ring b).counter ≠ emptyDataMark T)
    (hs : memory.fetchModify o (.reader r) (.counter b) (· - 1) t = some (v, memory')) :
    v = (ring b).counter ∧ memory'.UpToDate (.reader r) (.counter b) ∧
      RingMemoryOk Counted C next (Function.update round b ((round b).leave (.reader r)
        ((ring b).counter - 1))) (setCounter ring b ((ring b).counter - 1)) memory' := by
  have hleft := h.left b
  obtain ⟨hvalue, hself, hupToDate, -⟩ := (h.bucket b).leave (by simp) hr hw (by rwa [hleft]) hs
  rw [hleft] at hvalue hself
  exact ⟨hvalue, hupToDate, h.countered (Memory.fetchModify_keeps hs).cells hself
    (fun c hc => (h.bucket c).fetchModify_of_ne (by simp) (by simpa using hc) hs) rfl⟩

/-- The last reader of an event gives the bucket back. -/
theorem counted_clear (h : RingMemoryOk Counted C next round ring memory)
    (hw : ¬ (round b).writing) (hpending : ∀ j, ¬ (round b).pending j)
    (hreading : ∀ j, ¬ (round b).reading j) (hne : (ring b).counter ≠ emptyDataMark T)
    (hi : memory.UpToDate i (.counter b))
    (hs : memory.store o i (.counter b) (emptyDataMark T) t = some memory') :
    RingMemoryOk Counted C next
      (Function.update round b ((round b).arm (round b).pending (emptyDataMark T) t))
      (setCounter ring b (emptyDataMark T)) memory' :=
  h.countered (Memory.store_keeps hs).cells
    ((h.bucket b).clear (by simp) hw hpending hreading (by rwa [h.left b]) hi hs)
    (fun c hc => (h.bucket c).store_of_ne (by simp) (by simpa using hc) hs) rfl

end Counted

end RingMemoryOk

end Ihft.Channel.One2Each
