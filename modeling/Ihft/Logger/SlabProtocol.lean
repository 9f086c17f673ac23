import Ihft.Logger.ClientRuns

/-!
# The slab protocol of the logger

The pool of a client hands its slabs out in a circle and the queue knows nothing of slabs, and yet
no event is constructed over another one, and every event ends once: with the temporary box when
the queue refuses it, and otherwise with a guard or the ring.
-/

namespace Ihft.Logger

open Observe GuardedBroadcast Channel Memory StreamFixedPoolAllocator

variable {R : ℕ} {σ ε : Type*}

/-- The events that were destroyed, by the temporary box or by the queue. -/
def ended (log : List (ClientObs R ε)) : List (LoggerEvent ε) :=
  log.filterMap fun
    | .discarded x => x
    | .queue (.destroyed _ x) => x.map Stored.value
    | _ => none

/-- What holds of the slabs of a client in every run. -/
structure SlabProtocol (s : ClientState σ ε) (log : List (ClientObs R ε)) : Prop where
  /-- An event is constructed in an empty slab only. -/
  fresh : ∀ slab before x, .constructed slab before x ∈ log → before = none
  /-- What is destroyed is an event. -/
  found : .discarded none ∉ log ∧ ∀ who, .queue (.destroyed who none) ∉ log
  distinct : ((constructs log).map LoggerEvent.serial).Nodup
  /-- Every event constructed either was destroyed, once, or lives in its slab. -/
  account : ∃ alive, (ended log ++ alive).Perm (constructs log) ∧
    ∀ x, x ∈ alive ↔ ∃ p, s.slabs p = some x
  /-- The temporary box destroys the refused events, the queue those it accepted. -/
  refused : discards log = refusals (toLog log)
  accepted : ∀ who x, .queue (.destroyed who (some x)) ∈ log → x ∈ numbered (writes (toLog log))
  disjoint : (discards log ++ writes (toLog log)).Nodup
  /-- The ring, and with it the last event, is destroyed after the last log call. -/
  complete : .closed ∈ toLog log → (ended log).Perm (constructs log)
  /-- The events in the ring lie in other slabs than the active one, but for the event that was
  just written while its log call has not moved the pool on. -/
  apart : ∀ x ∈ survivors (toLog log), ∃ p, s.slabs p = some x.value ∧
    (x.number + s.pc.behind < (writes (toLog log)).length → p ≠ s.allocator.activeSlab)

/-- The ends of the events, by their two kinds. -/
theorem ended_perm (log : List (ClientObs R ε)) :
    (ended log).Perm (discards log ++ (destroyedObjects (toLog log)).map Stored.value) := by
  induction log with
  | nil => exact .refl _
  | cons o os ih =>
    cases o with
    | constructed slab before x => exact ih
    | discarded x =>
      cases x with
      | none => exact ih
      | some x => exact ih.cons x
    | queue o =>
      cases o with
      | destroyed who x =>
        cases x with
        | none => exact ih
        | some x => exact (ih.cons x.value).trans List.perm_middle.symm
      | _ => exact ih

namespace ClientOk

variable {C size : ℕ} {s : ClientState σ ε} {log : List (ClientObs R ε)}

theorem written_eq (h : ClientOk C size s log) :
    (broadcastOf C log).written = writes (toLog log) :=
  (tracks_of_legal h.legal).written

/-- An event left in the ring, as the slabs know it. -/
theorem mem_survivors_iff (h : ClientOk C size s log) {x : Stored (LoggerEvent ε)} :
    x ∈ survivors (toLog log) ↔ x.number ∉ (broadcastOf C log).dead ∧
      (broadcastOf C log).written[x.number]? = some x.value := by
  have hdead := (tracks_of_legal h.legal).dead x.number
  change x.number ∈ (broadcastOf C log).dead ↔ _ at hdead
  have hmem : x ∈ numbered (writes (toLog log)) ↔
      (broadcastOf C log).written[x.number]? = some x.value := by
    rw [← h.written_eq, List.mem_iff_getElem?]
    constructor
    · rintro ⟨k, hk⟩
      rw [← State.item_eq_numbered] at hk
      obtain ⟨rfl, hvalue⟩ := State.item_eq_some_iff.1 hk
      exact hvalue
    · intro hvalue
      refine ⟨x.number, ?_⟩
      rw [← State.item_eq_numbered]
      exact State.item_eq_some_iff.2 ⟨rfl, hvalue⟩
  rw [survivors, List.mem_filter, hmem, and_comm]
  apply and_congr_left'
  rw [decide_eq_true_eq, hdead, Nat.pos_iff_ne_zero, not_not]

/-- What lives in the slabs is left in the ring or in hand. -/
theorem mem_slabs_iff (h : ClientOk C size s log) {x : LoggerEvent ε} :
    (∃ p, s.slabs p = some x) ↔ x ∈ (survivors (toLog log)).map Stored.value ++
      inHand (slabOf size (broadcastOf C log).written.length) s.slabs s.pc := by
  rw [List.mem_append, List.mem_map]
  constructor
  · rintro ⟨p, hp⟩
    rcases h.slabs.used p (by simp [hp]) with ⟨k, hk, hdead, rfl⟩ | ⟨hhand, rfl⟩
    · rw [h.slabs.live k hk hdead] at hp
      exact .inl ⟨⟨k, x⟩, h.mem_survivors_iff.2 ⟨hdead, hp⟩, rfl⟩
    · right
      simp [inHand, hhand, hp]
  · rintro (⟨y, hy, rfl⟩ | hx)
    · obtain ⟨hdead, hvalue⟩ := h.mem_survivors_iff.1 hy
      refine ⟨slabOf size y.number, ?_⟩
      rw [h.slabs.live _ (List.getElem?_eq_some_iff.1 hvalue).1 hdead]
      exact hvalue
    · unfold inHand at hx
      split_ifs at hx with hhand
      · exact ⟨_, Option.mem_toList.1 hx⟩
      · exact absurd hx List.not_mem_nil

/-- What ended and what lives are the events that were constructed. -/
theorem ended_append (h : ClientOk C size s log) :
    (ended log ++ ((survivors (toLog log)).map Stored.value ++
      inHand (slabOf size (broadcastOf C log).written.length) s.slabs s.pc)).Perm
      (constructs log) := by
  have hwrites : ((destroyedObjects (toLog log)).map Stored.value ++
      (survivors (toLog log)).map Stored.value).Perm (writes (toLog log)) := by
    have hperm := (destroyedObjects_append_survivors h.legal).map Stored.value
    rwa [List.map_append, numbered_map_value] at hperm
  have hended := (ended_perm log).append_right ((survivors (toLog log)).map Stored.value ++
    inHand (slabOf size (broadcastOf C log).written.length) s.slabs s.pc)
  refine hended.trans (List.Perm.trans ?_ h.split)
  rw [List.append_assoc, List.append_assoc, ← List.append_assoc (List.map _ _)]
  exact (hwrites.append_right _).append_left _

/-- An event left in the ring does not lie in the active slab. -/
theorem apart (h : ClientOk C size s log) (hsize : C < size) {x : Stored (LoggerEvent ε)}
    (hx : x ∈ survivors (toLog log)) : ∃ p, s.slabs p = some x.value ∧
      (x.number + s.pc.behind < (writes (toLog log)).length → p ≠ s.allocator.activeSlab) := by
  obtain ⟨hdead, hvalue⟩ := h.mem_survivors_iff.1 hx
  have hlt := (List.getElem?_eq_some_iff.1 hvalue).1
  refine ⟨slabOf size x.number, (h.slabs.live _ hlt hdead).trans hvalue, fun hbehind => ?_⟩
  obtain ⟨j, hj, hlen⟩ := h.slabs.active
  rw [← h.written_eq] at hbehind
  rw [hj]
  exact slabOf_ne_of_alive h.slabs.coherent hsize hdead (by omega) (by omega)

/-- The account of a client says that it keeps the slab protocol. -/
theorem slabProtocol (h : ClientOk C size s log) (hsize : C < size)
    (hclosed : .closed ∈ toLog log → s.pc = .gone) : SlabProtocol s log where
  fresh := h.fresh
  found := by
    refine ⟨h.discarded, fun who hmem => ?_⟩
    obtain ⟨y, -, hy⟩ := destroyed_item h.legal (mem_toLog.2 hmem)
    cases hy
  distinct := by
    rw [h.serials]
    exact List.nodup_range
  account := ⟨_, h.ended_append, fun x => h.mem_slabs_iff.symm⟩
  refused := h.lost
  accepted := by
    intro who x hmem
    obtain ⟨y, hy, heq⟩ := destroyed_item h.legal (mem_toLog.2 hmem)
    cases heq
    exact hy
  disjoint := by
    have hnodup : (constructs log).Nodup := by
      apply List.Nodup.of_map LoggerEvent.serial
      rw [h.serials]
      exact List.nodup_range
    exact (List.nodup_append.1 (h.split.nodup_iff.2 hnodup)).1
  complete := by
    intro hc
    have hperm := h.ended_append
    rw [survivors_eq_nil h.legal hc, hclosed hc] at hperm
    simpa [inHand, ClientPc.InHand] using hperm
  apart := fun x hx => h.apart hsize hx

end ClientOk

/-! ## The clients of both families -/

/-- The client of a queue with `C` places keeps the slab protocol when its pool has more slabs. -/
theorem slabProtocol_of_reaches {C : ℕ} {M : Machine σ (ObjectInput R Box) (Obs (Fin R) Box)}
    {Rel : σ → State (Fin R) Box → Prop} {produces ready : σ → Prop}
    (hM : IsObjectQueue C M Rel produces ready) {queue : σ}
    {allocator : StreamFixedPoolAllocator} (hsize : C < allocator.capacity)
    (hnext : allocator.position = 0) (hqueue : Rel queue GuardedBroadcast.start)
    (hproduces : produces queue) {s : ClientState σ ε} {log : List (ClientObs R ε)}
    (h : (clientMachine ε M).Reaches (.start queue allocator) s log) : SlabProtocol s log := by
  have hrel := client_reaches hM hsize hnext hqueue hproduces h
  exact hrel.ok.slabProtocol hsize hrel.closed

/-- A pool of `extra` slabs more than the queue has places is enough for all log calls, whatever
the readers do at the same time. -/
theorem logger_slabProtocol (T : SeqnumCounter) (ε : Type*) (n extra : ℕ) (hextra : 1 ≤ extra) :
    (∀ producer reader contentAllocator s log,
      One2One.make T n 1 = some ⟨producer, [reader]⟩ →
      (new producer.capacity extra).capacity = producer.capacity + extra →
      (clientMachine ε (One2One.objectMachine T 1 Box)).Reaches
        (.start (.start Box ⟨producer, [reader]⟩ contentAllocator) (new producer.capacity extra))
        s log → SlabProtocol s log) ∧
    ∀ R ch contentAllocator s log, One2Each.make T n R = some ch → R + 1 < 2 ^ T.digits →
      (new ch.producer.capacity extra).capacity = ch.producer.capacity + extra →
      (clientMachine ε (One2Each.objectMachine T _ Box)).Reaches
        (.start (.start Box ch contentAllocator) (new ch.producer.capacity extra))
        s log → SlabProtocol s log := by
  constructor
  · intro producer reader contentAllocator s log hmake hcapacity h
    obtain ⟨C, -, hC, -, hpair⟩ := One2One.make_eq_some hmake
    simp only [ProducerAndConsumers.mk.injEq, List.cons.injEq, and_true] at hpair
    obtain ⟨rfl, rfl⟩ := hpair
    rw [producerAfter_capacity hC] at hcapacity h
    exact slabProtocol_of_reaches (One2One.isObjectQueue hC) (by omega) rfl
      (One2One.objectRel_start hC contentAllocator) rfl h
  · intro R ch contentAllocator s log hmake hR hcapacity h
    obtain ⟨C, -, hC, hpos, hmax, rfl⟩ := One2Each.make_eq_some hmake
    have hlen := consumersFrom_length (T := T) C 0 R
    rw [producerAfter_capacity hC] at hcapacity h
    exact slabProtocol_of_reaches (One2Each.isObjectQueue hC (by rw [hlen]; exact hR)
      (by rw [hlen]; omega)) (by omega) rfl (One2Each.objectRel_start hC hmax contentAllocator) rfl h

/-- Two log calls, of which the first event is read, up to the end of the ring. -/
theorem logger_slabProtocol_uint8 : ∃ (producer : QueueImpl .uint8) (reader : StreamReader .uint8),
    One2One.make .uint8 4 1 = some ⟨producer, [reader]⟩ ∧ ∃ s log,
    (clientMachine ℕ (One2One.objectMachine .uint8 1 Box)).Reaches
      (.start (.start Box ⟨producer, [reader]⟩ true) (new producer.capacity 1)) s log ∧
      SlabProtocol s log ∧ ended log = [⟨0, 7⟩, ⟨1, 8⟩] := by
  have hmake : One2One.make .uint8 4 1 = some ⟨producerAfter .uint8 4 1, [.new 3 0]⟩ := by decide
  have hrun := Machine.Reaches.of_run (show
    (clientMachine ℕ (One2One.objectMachine .uint8 1 Box)).run
    (.start (.start Box ⟨producerAfter .uint8 4 1, [.new 3 0]⟩ true) (new 4 1))
    [.construct 7, .tryWrite, .queue .writer, .queue .writer, .seek, .construct 8, .tryWrite,
      .queue .writer, .queue .writer, .seek, .queue (.tryRead 0), .queue .dropProducer,
      .queue (.destroyGuard 0 0), .queue (.guard 0 0), .queue (.dropReader 0)] = some (_, _) from rfl)
  have hprotocol := (logger_slabProtocol .uint8 ℕ 4 1 le_rfl).1 _ _ true _ _ hmake (by decide) hrun
  exact ⟨_, _, hmake, _, _, hrun, hprotocol, rfl⟩

end Ihft.Logger
