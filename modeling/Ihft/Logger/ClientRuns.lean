import Ihft.Logger.Slabs
import Ihft.Lib.Endings

/-!
# The runs of a client

`ClientOk` is the account of all the events of a client.  With it the client is again a broadcast
of objects, of the events themselves: every step of its queue, which knows boxes only, is a step of
that broadcast seen through the slabs (`client_reaches`).
-/

namespace Ihft.Logger

open Observe GuardedBroadcast Channel Memory StreamFixedPoolAllocator

variable {R : ℕ} {σ ε : Type*}

/-! ## The account of a client -/

/-- The broadcast of events that a log leads to. -/
def broadcastOf (C : ℕ) (log : List (ClientObs R ε)) : State (Fin R) (LoggerEvent ε) :=
  (spec (Fin R) (LoggerEvent ε) C).after GuardedBroadcast.start (toLog log)

theorem broadcastOf_append (C : ℕ) (l l' : List (ClientObs R ε)) : broadcastOf C (l ++ l') =
    (spec (Fin R) (LoggerEvent ε) C).after (broadcastOf C l) (toLog l') := by
  simp [broadcastOf]

/-- The event of a log call that has not yet found its place. -/
def inHand (slab : ℕ) (slabs : ℕ → Option (LoggerEvent ε)) (pc : ClientPc) :
    List (LoggerEvent ε) :=
  if pc.InHand then (slabs slab).toList else []

/-- What a client has done: every event went into an empty slab and from there to the queue or to
its end with the temporary box, unless it is still in hand. -/
structure ClientOk (C size : ℕ) (s : ClientState σ ε) (log : List (ClientObs R ε)) : Prop where
  legal : (spec (Fin R) (LoggerEvent ε) C).Legal GuardedBroadcast.start (toLog log)
  slabs : SlabsOk C size s.allocator s.slabs s.pc (broadcastOf C log)
  fresh : ∀ slab before x, .constructed slab before x ∈ log → before = none
  discarded : .discarded none ∉ log
  lost : discards log = refusals (toLog log)
  serials : (constructs log).map LoggerEvent.serial = List.range s.count
  split : (discards log ++ writes (toLog log) ++
    inHand (slabOf size (broadcastOf C log).written.length) s.slabs s.pc).Perm (constructs log)

section ClientOk

variable {C size : ℕ} {s s' : ClientState σ ε} {log : List (ClientObs R ε)}

theorem clientOk_start (queue : σ) (allocator : StreamFixedPoolAllocator)
    (hnext : allocator.position = 0) :
    ClientOk (R := R) (ε := ε) C allocator.capacity (.start queue allocator) [] where
  legal := trivial
  slabs := {
    coherent := coherent_start C
    capacity := rfl
    active := ⟨0, by rw [slabOf_zero]; exact hnext, rfl⟩
    live := fun k hk => absurd hk (Nat.not_lt_zero k)
    used := fun p hp => absurd rfl hp
    hand := fun h => absurd h (by simp [ClientState.start, ClientPc.InHand])
    offer := rfl }
  fresh := by simp
  discarded := by simp
  lost := rfl
  serials := rfl
  split := by simp [ClientState.start, inHand, ClientPc.InHand, discards, constructs, toLog, writes]

/-- One more observation of the queue, which hands over no event. -/
theorem ClientOk.push (h : ClientOk C size s log) {o : Obs (Fin R) (LoggerEvent ε)}
    (ho : (spec (Fin R) (LoggerEvent ε) C).allowed (broadcastOf C log) o)
    (hslabs : SlabsOk C size s'.allocator s'.slabs s'.pc
      ((spec (Fin R) (LoggerEvent ε) C).next (broadcastOf C log) o))
    (hcount : s'.count = s.count) (hw : writes [o] = []) (hr : refusals [o] = [])
    (hhand : inHand (slabOf size (broadcastOf C log).written.length) s'.slabs s'.pc =
      inHand (slabOf size (broadcastOf C log).written.length) s.slabs s.pc) :
    ClientOk C size s' (log ++ [.queue o]) := by
  have hlog : toLog (log ++ [.queue o]) = toLog log ++ [o] := by simp [toLog]
  have hafter : broadcastOf C (log ++ [.queue o]) =
      (spec (Fin R) (LoggerEvent ε) C).next (broadcastOf C log) o := broadcastOf_append ..
  have hwrites : writes (toLog log ++ [o]) = writes (toLog log) := by
    rw [writes, List.filterMap_append]
    exact (congrArg _ hw).trans (List.append_nil _)
  have hlegal : (spec (Fin R) (LoggerEvent ε) C).Legal GuardedBroadcast.start (toLog log ++ [o]) :=
    (Spec.legal_append ..).2 ⟨h.legal, ho, trivial⟩
  have hlength : ((spec (Fin R) (LoggerEvent ε) C).next (broadcastOf C log) o).written =
      (broadcastOf C log).written := by
    cases o with
    | wrote e => cases hw
    | _ => rfl
  exact {
    legal := by rw [hlog]; exact hlegal
    slabs := by rw [hafter]; exact hslabs
    fresh := by simpa using h.fresh
    discarded := by simpa using h.discarded
    lost := by
      rw [hlog, refusals_append, hr, List.append_nil, ← h.lost]
      simp [discards]
    serials := by rw [hcount]; simpa [constructs] using h.serials
    split := by
      rw [hlog, hwrites, hafter, hlength, hhand]
      simpa [discards, constructs] using h.split }

/-- An observation that concerns no event of the writer passes through. -/
theorem ClientOk.pass (h : ClientOk C size s log) {o : Obs (Fin R) (LoggerEvent ε)}
    (ho : (spec (Fin R) (LoggerEvent ε) C).allowed (broadcastOf C log) o)
    (hw : ((spec (Fin R) (LoggerEvent ε) C).next (broadcastOf C log) o).written =
      (broadcastOf C log).written)
    (hd : ((spec (Fin R) (LoggerEvent ε) C).next (broadcastOf C log) o).dead =
      (broadcastOf C log).dead)
    (hoffer : ((spec (Fin R) (LoggerEvent ε) C).next (broadcastOf C log) o).offer =
      (broadcastOf C log).offer) (hwrites : writes [o] = [])
    (hrefused : refusals [o] = []) : ClientOk C size s (log ++ [.queue o]) :=
  h.push ho (h.slabs.of_eq (h.slabs.coherent.next ho) hw hd hoffer) rfl hwrites hrefused rfl

theorem ClientOk.wrote (h : ClientOk C size s log) {box : Box}
    (ho : (spec (Fin R) Box C).allowed (boxed size (broadcastOf C log)) (.wrote box)) :
    ClientOk C size (s.observe (R := R) (.wrote box)).1 (log ++ (s.observe (.wrote box)).2) ∧
      boxed size (broadcastOf C (log ++ (s.observe (.wrote box)).2)) =
        (spec (Fin R) Box C).next (boxed size (broadcastOf C log)) (.wrote box) := by
  obtain ⟨x, hx, hallowed, hslabs', hboxed⟩ := h.slabs.wrote ho
  obtain ⟨x', -, rfl, hpc, hx'⟩ := h.slabs.pending ho.2.1
  obtain rfl : x = x' := Option.some.inj (hx.symm.trans hx')
  simp only [ClientState.observe, hx, Option.toList_some, List.map_cons, List.map_nil]
  have hlog : toLog (log ++ [.queue (.wrote x)]) = toLog log ++ [.wrote x] := by simp [toLog]
  have hafter : broadcastOf C (log ++ [.queue (.wrote x)]) =
      (spec (Fin R) (LoggerEvent ε) C).next (broadcastOf C log) (.wrote x) := broadcastOf_append ..
  have hwrites : writes (toLog log ++ [.wrote x]) = writes (toLog log) ++ [x] := by simp [writes]
  refine ⟨?_, by rw [hafter, hboxed]⟩
  exact {
    legal := by
      rw [hlog]
      exact (Spec.legal_append ..).2 ⟨h.legal, hallowed, trivial⟩
    slabs := by rw [hafter]; exact hslabs'
    fresh := by simpa using h.fresh
    discarded := by simpa using h.discarded
    lost := by
      rw [hlog, refusals_append, discards_append, h.lost]
      rfl
    serials := by simpa [constructs] using h.serials
    split := by
      have hsplit := h.split
      simp only at hx
      simp only [inHand, hpc, ClientPc.InHand, or_true, if_true, hx, Option.toList_some] at hsplit
      rw [hlog, hwrites]
      simpa [discards, constructs, inHand, ClientPc.InHand] using hsplit }

theorem ClientOk.refused (h : ClientOk C size s log) (hsize : C < size) {box : Box}
    (ho : (spec (Fin R) Box C).allowed (boxed size (broadcastOf C log)) (.refused box)) :
    ClientOk C size (s.observe (R := R) (.refused box)).1 (log ++ (s.observe (.refused box)).2) ∧
      boxed size (broadcastOf C (log ++ (s.observe (.refused box)).2)) =
        (spec (Fin R) Box C).next (boxed size (broadcastOf C log)) (.refused box) := by
  obtain ⟨x, hx, hallowed, hslabs'⟩ := h.slabs.refused hsize ho
  obtain ⟨x', -, rfl, hpc, hx'⟩ := h.slabs.pending ho.2.1
  obtain rfl : x = x' := Option.some.inj (hx.symm.trans hx')
  simp only [ClientState.observe, hx, Option.toList_some, List.map_cons, List.map_nil,
    List.cons_append, List.nil_append]
  have hlog : toLog (log ++ [.queue (.refused x), .discarded (some x)]) =
      toLog log ++ [.refused x] := by simp [toLog]
  have hafter : broadcastOf C (log ++ [.queue (.refused x), .discarded (some x)]) =
      (spec (Fin R) (LoggerEvent ε) C).next (broadcastOf C log) (.refused x) :=
    broadcastOf_append ..
  have hwrites : writes (toLog log ++ [.refused x]) = writes (toLog log) := by simp [writes]
  refine ⟨?_, by rw [hafter]; rfl⟩
  exact {
    legal := by
      rw [hlog]
      exact (Spec.legal_append ..).2 ⟨h.legal, hallowed, trivial⟩
    slabs := by rw [hafter]; exact hslabs'
    fresh := by simpa using h.fresh
    discarded := by simpa using h.discarded
    lost := by
      rw [hlog, refusals_append, discards_append, h.lost]
      rfl
    serials := by simpa [constructs] using h.serials
    split := by
      have hsplit := h.split
      simp only at hx
      simp only [inHand, hpc, ClientPc.InHand, or_true, if_true, hx, Option.toList_some] at hsplit
      rw [hlog, hwrites]
      -- the event leaves the hand for the discarded ones
      have hcomm : ([x] ++ writes (toLog log)).Perm (writes (toLog log) ++ [x]) :=
        List.perm_append_comm
      refine List.Perm.trans ?_ (by simpa [constructs] using hsplit)
      simpa [discards, inHand, ClientPc.InHand] using hcomm.append_left (discards log) }

theorem ClientOk.destroyed (h : ClientOk C size s log) (hsize : C < size) {who : Option (Fin R)}
    {x : Option (Stored Box)}
    (ho : (spec (Fin R) Box C).allowed (boxed size (broadcastOf C log)) (.destroyed who x)) :
    ClientOk C size (s.observe (.destroyed who x)).1 (log ++ (s.observe (.destroyed who x)).2) ∧
      boxed size (broadcastOf C (log ++ (s.observe (.destroyed who x)).2)) =
        (spec (Fin R) Box C).next (boxed size (broadcastOf C log)) (.destroyed who x) := by
  obtain ⟨k, hk, rfl, hdead, hallowed⟩ : ∃ k < (broadcastOf C log).written.length,
      x = (boxed size (broadcastOf C log)).item k ∧ k ∉ (broadcastOf C log).dead ∧
        (spec (Fin R) (LoggerEvent ε) C).allowed (broadcastOf C log)
          (.destroyed who ((broadcastOf C log).item k)) := by
    cases who with
    | none =>
      obtain ⟨hs, hoffer, hquiet, k, hk, rfl, hdead, hrel⟩ := ho
      rw [boxed_length] at hk
      exact ⟨k, hk, rfl, hdead, hs, Option.map_eq_none_iff.1 hoffer, hquiet, k, hk, rfl, hdead,
        hrel⟩
    | some r =>
      obtain ⟨hrun, k, hk, rfl, hdead, hrel, hlast⟩ := ho
      rw [boxed_length] at hk
      exact ⟨k, hk, rfl, hdead, hrun, k, hk, rfl, hdead, hrel, hlast⟩
  have hslabs := h.slabs.destroyed hsize hk hdead hallowed
  have hne : slabOf size (broadcastOf C log).written.length ≠ slabOf size k :=
    (slabOf_ne_of_alive h.slabs.coherent hsize hdead hk le_rfl).symm
  simp only [ClientState.observe, h.slabs.unbox_item hk hdead]
  rw [boxed_item size hk]
  refine ⟨h.push hallowed hslabs rfl rfl rfl ?_, ?_⟩
  · simp only [inHand, Option.elim_some, destroyAt, Function.update_of_ne hne]
  · obtain ⟨e, he⟩ := State.exists_item hk
    rw [broadcastOf_append, he]
    rfl

/-- One observation of the queue, seen through the boxes. -/
theorem ClientOk.observe (h : ClientOk C size s log) (hsize : C < size) {o : Obs (Fin R) Box}
    (ho : (spec (Fin R) Box C).allowed (boxed size (broadcastOf C log)) o)
    (hoffers : ∀ box, o = .offered box → s.pc = .constructed ∧ box = ⟨s.allocator.activeSlab⟩) :
    ClientOk C size (s.observe o).1 (log ++ (s.observe o).2) ∧
      boxed size (broadcastOf C (log ++ (s.observe o).2)) =
        (spec (Fin R) Box C).next (boxed size (broadcastOf C log)) o := by
  cases o with
  | offered box =>
    obtain ⟨hpc, rfl⟩ := hoffers box rfl
    have hslabs := h.slabs
    rw [hpc] at hslabs
    obtain ⟨x, hx, hallowed, hslabs'⟩ := hslabs.offered ho
    obtain ⟨j, hj, hlen⟩ := hslabs.active
    obtain rfl : j = (broadcastOf C log).written.length := hlen
    simp only [ClientState.observe, hx, Option.toList_some, List.map_cons, List.map_nil]
    refine ⟨h.push hallowed hslabs' rfl rfl rfl ?_, ?_⟩
    · simp only [inHand, hpc, ClientPc.InHand, or_true, true_or, if_true]
    · rw [broadcastOf_append, hj]
      rfl
  | wrote box => exact h.wrote ho
  | refused box => exact h.refused hsize ho
  | read r x =>
    obtain ⟨hrun, hlt, rfl⟩ := ho
    rw [boxed_length] at hlt
    have hco := h.slabs.coherent
    have hdead : (broadcastOf C log).cursor r ∉ (broadcastOf C log).dead := fun hd =>
      hco.cursor_not_dropped r (hco.released_of_dead hrun _ hd r)
    have hitem := h.slabs.unbox_item hlt hdead
    exact ⟨h.pass ⟨hrun, hlt, hitem⟩ rfl rfl rfl rfl rfl, by rw [broadcastOf_append]; rfl⟩
  | empty r =>
    have ho : (spec (Fin R) (LoggerEvent ε) C).allowed (broadcastOf C log) (.empty r) :=
      ⟨ho.1, ho.2.trans (boxed_length ..)⟩
    exact ⟨h.pass ho rfl rfl rfl rfl rfl, by rw [broadcastOf_append]; rfl⟩
  | closed =>
    obtain ⟨hs, hoffer, hquiet, hdead⟩ := ho
    rw [boxed_length] at hdead
    exact ⟨h.pass ⟨hs, Option.map_eq_none_iff.1 hoffer, hquiet, hdead⟩ rfl rfl rfl rfl rfl,
      by rw [broadcastOf_append]; rfl⟩
  | dropped r k => exact ⟨h.pass ho rfl rfl rfl rfl rfl, by rw [broadcastOf_append]; rfl⟩
  | destroyed who x => exact h.destroyed hsize ho
  | freed k => exact ⟨h.pass ho rfl rfl rfl rfl rfl, by rw [broadcastOf_append]; rfl⟩
  | disposed => exact ⟨h.pass ho rfl rfl rfl rfl rfl, by rw [broadcastOf_append]; rfl⟩

theorem ClientOk.setQueue (h : ClientOk C size s log) (queue : σ) :
    ClientOk C size { s with queue := queue } log :=
  ⟨h.legal, h.slabs, h.fresh, h.discarded, h.lost, h.serials, h.split⟩

theorem observe_queue (s : ClientState σ ε) (o : Obs (Fin R) Box) :
    (s.observe o).1.queue = s.queue := by
  cases o <;> rfl

theorem observeAll_queue (s : ClientState σ ε) (os : List (Obs (Fin R) Box)) :
    (s.observeAll os).1.queue = s.queue := by
  induction os generalizing s with
  | nil => rfl
  | cons o os ih => exact (ih _).trans (observe_queue s o)

/-- Once the client is gone nothing brings it back. -/
theorem ClientOk.observe_gone (h : ClientOk C size s log) {o : Obs (Fin R) Box}
    (ho : (spec (Fin R) Box C).allowed (boxed size (broadcastOf C log)) o)
    (hno : ∀ box, .offered box ≠ o) (hpc : s.pc = .gone) : (s.observe o).1.pc = .gone := by
  have hidle : (boxed size (broadcastOf C log)).offer = none := by
    rw [boxed, h.slabs.offer, hpc]
    rfl
  cases o with
  | offered box => exact absurd rfl (hno box)
  | wrote box | refused box => exact absurd (hidle.symm.trans ho.2.1) (by simp)
  | _ => exact hpc

/-- The ring is closed by the queue. -/
theorem closed_of_observe {o : Obs (Fin R) Box} (h : .closed ∈ toLog (s.observe o).2) :
    o = .closed := by
  cases o with
  | closed => rfl
  | offered box | wrote box | refused box =>
    cases hx : s.slabs box.slab <;> simp [ClientState.observe, toLog, hx] at h
  | _ => simp [ClientState.observe, toLog] at h

theorem closed_of_observeAll {os : List (Obs (Fin R) Box)}
    (h : .closed ∈ toLog (s.observeAll os).2) : .closed ∈ os := by
  induction os generalizing s with
  | nil => simp [ClientState.observeAll, toLog] at h
  | cons o os ih =>
    simp only [ClientState.observeAll, toLog_append, List.mem_append] at h
    rcases h with h | h
    · rw [closed_of_observe h]
      exact List.mem_cons_self
    · exact List.mem_cons_of_mem o (ih h)

/-- A step of the queue that offers nothing. -/
theorem ClientOk.observeAll (h : ClientOk C size s log) (hsize : C < size)
    {os : List (Obs (Fin R) Box)}
    (hlegal : (spec (Fin R) Box C).Legal (boxed size (broadcastOf C log)) os)
    (hno : ∀ box, .offered box ∉ os) :
    ClientOk C size (s.observeAll os).1 (log ++ (s.observeAll os).2) ∧
      boxed size (broadcastOf C (log ++ (s.observeAll os).2)) =
        (spec (Fin R) Box C).after (boxed size (broadcastOf C log)) os ∧
      (s.pc = .gone → (s.observeAll os).1.pc = .gone) := by
  induction os generalizing s log with
  | nil =>
    simp only [ClientState.observeAll, List.append_nil]
    exact ⟨h, rfl, id⟩
  | cons o os ih =>
    obtain ⟨ho, hos⟩ := hlegal
    obtain ⟨hok, hboxed⟩ := h.observe hsize ho fun box heq =>
      absurd (heq ▸ List.mem_cons_self) (hno box)
    rw [← hboxed] at hos
    obtain ⟨hok', hboxed', hgone⟩ :=
      ih hok hos fun box hmem => hno box (List.mem_cons_of_mem o hmem)
    simp only [ClientState.observeAll, ← List.append_assoc]
    refine ⟨hok', hboxed'.trans (by rw [hboxed]; rfl), fun hpc => hgone ?_⟩
    exact h.observe_gone ho (fun box heq => hno box (heq ▸ List.mem_cons_self)) hpc

/-- The box of the constructed event is offered, and perhaps refused. -/
theorem ClientOk.observeAll_offer (h : ClientOk C size s log) (hsize : C < size)
    (hpc : s.pc = .constructed) {os : List (Obs (Fin R) Box)}
    (hos : os = [.offered ⟨s.allocator.activeSlab⟩] ∨
      os = [.offered ⟨s.allocator.activeSlab⟩, .refused ⟨s.allocator.activeSlab⟩])
    (hlegal : (spec (Fin R) Box C).Legal (boxed size (broadcastOf C log)) os) :
    ClientOk C size (s.observeAll os).1 (log ++ (s.observeAll os).2) ∧
      boxed size (broadcastOf C (log ++ (s.observeAll os).2)) =
        (spec (Fin R) Box C).after (boxed size (broadcastOf C log)) os := by
  have hoffer : ∀ os', (spec (Fin R) Box C).Legal (boxed size (broadcastOf C log))
      (.offered ⟨s.allocator.activeSlab⟩ :: os') → (∀ box, .offered box ∉ os') →
      ClientOk C size (s.observeAll (.offered ⟨s.allocator.activeSlab⟩ :: os')).1
        (log ++ (s.observeAll (.offered ⟨s.allocator.activeSlab⟩ :: os')).2) ∧
      boxed size (broadcastOf C
          (log ++ (s.observeAll (.offered ⟨s.allocator.activeSlab⟩ :: os')).2)) =
        (spec (Fin R) Box C).after (boxed size (broadcastOf C log))
          (.offered ⟨s.allocator.activeSlab⟩ :: os') := by
    rintro os' ⟨ho, hos'⟩ hno
    obtain ⟨hok, hboxed⟩ := h.observe hsize ho fun box heq => ⟨hpc, by cases heq; rfl⟩
    rw [← hboxed] at hos'
    obtain ⟨hok', hboxed', -⟩ := hok.observeAll hsize hos' hno
    simp only [ClientState.observeAll, ← List.append_assoc]
    exact ⟨hok', hboxed'.trans (by rw [hboxed]; rfl)⟩
  rcases hos with rfl | rfl
  · exact hoffer [] hlegal (by simp)
  · exact hoffer _ hlegal (by simp)

end ClientOk

/-! ## Runs of a client -/

section Runs

variable {C size : ℕ} {M : Machine σ (ObjectInput R Box) (Obs (Fin R) Box)}
  {Rel : σ → State (Fin R) Box → Prop} {produces ready : σ → Prop}
  {s s' : ClientState σ ε} {log os : List (ClientObs R ε)}

/-- The client with its queue. -/
structure ClientRel (C size : ℕ) (Rel : σ → State (Fin R) Box → Prop) (produces : σ → Prop)
    (s : ClientState σ ε) (log : List (ClientObs R ε)) : Prop where
  queue : Rel s.queue (boxed size (broadcastOf C log))
  ok : ClientOk C size s log
  producer : s.pc ≠ .gone → produces s.queue
  closed : .closed ∈ toLog log → s.pc = .gone

theorem ClientRel.stepQueue (h : ClientRel C size Rel produces s log) (hsize : C < size)
    (hM : IsObjectQueue C M Rel produces ready) {i : ObjectInput R Box}
    (hi : ∀ box, i = .tryWrite box → s.pc = .constructed ∧ box = ⟨s.allocator.activeSlab⟩)
    (hdrop : i = .dropProducer → s.pc = .gone)
    (hs : s.stepQueue M i = some (s', os)) : ClientRel C size Rel produces s' (log ++ os) := by
  unfold ClientState.stepQueue at hs
  split at hs
  · cases hs
  · rename_i queue qs hstep
    simp only [Option.some.injEq] at hs
    obtain ⟨hlegal, hrel⟩ := hM.simulates.step h.queue hstep
    have hok := h.ok.setQueue queue
    have hboth : ClientOk C size ({ s with queue := queue }.observeAll qs).1
        (log ++ ({ s with queue := queue }.observeAll qs).2) ∧
        boxed size (broadcastOf C (log ++ ({ s with queue := queue }.observeAll qs).2)) =
          (spec (Fin R) Box C).after (boxed size (broadcastOf C log)) qs ∧
        (s.pc = .gone → ({ s with queue := queue }.observeAll qs).1.pc = .gone) := by
      by_cases hw : ∃ box, i = .tryWrite box
      · obtain ⟨box, rfl⟩ := hw
        obtain ⟨hpc, rfl⟩ := hi box rfl
        obtain ⟨hok', hboxed⟩ := hok.observeAll_offer hsize hpc (hM.tryWrite hstep) hlegal
        exact ⟨hok', hboxed, fun hgone => absurd (hpc.symm.trans hgone) (by simp)⟩
      · exact hok.observeAll hsize hlegal fun box hmem => hw ⟨box, hM.offers hstep hmem⟩
    have hqueue := observeAll_queue { s with queue := queue } qs
    have hclosed : .closed ∈ toLog (ClientState.observeAll { s with queue := queue } qs).2 →
        .closed ∈ qs := closed_of_observeAll
    rw [hs] at hboth hqueue hclosed
    obtain ⟨hok', hboxed, hgone⟩ := hboth
    have hproducer : s'.pc ≠ .gone → produces s'.queue := by
      intro hpc
      rw [hqueue]
      apply hM.keeps hstep (fun heq => hpc (hgone (hdrop heq)))
      exact h.producer fun hpc' => hpc (hgone hpc')
    refine ⟨by rw [hqueue, hboxed]; exact hrel, hok', hproducer, fun hmem => ?_⟩
    rw [toLog_append, List.mem_append] at hmem
    rcases hmem with hmem | hmem
    · exact hgone (h.closed hmem)
    · by_contra hpc
      apply hM.closes hstep (hclosed hmem)
      have hp := hproducer hpc
      rwa [hqueue] at hp

theorem ClientRel.construct (h : ClientRel C size Rel produces s log) (hsize : C < size)
    {content : ε} (hs : s.construct content = some (s', os)) :
    ClientRel C size Rel produces s' (log ++ os) := by
  unfold ClientState.construct at hs
  split at hs
  · rename_i hpc
    simp only [Option.some.injEq, Prod.mk.injEq] at hs
    obtain ⟨rfl, rfl⟩ := hs
    have hslabs := h.ok.slabs
    rw [hpc] at hslabs
    obtain ⟨hempty, hslabs'⟩ := hslabs.construct (x := ⟨s.count, content⟩) hsize
    obtain ⟨j, hj, hlen⟩ := hslabs.active
    obtain rfl : j = (broadcastOf C log).written.length := hlen
    have hafter : broadcastOf C (log ++ [.constructed s.allocator.activeSlab
        (s.slabs s.allocator.activeSlab) ⟨s.count, content⟩]) = broadcastOf C log :=
      broadcastOf_append ..
    have hhand : inHand (slabOf size (broadcastOf C log).written.length)
        (Function.update s.slabs s.allocator.activeSlab (some ⟨s.count, content⟩)) .constructed =
        [⟨s.count, content⟩] := by
      rw [hj]
      simp [inHand, ClientPc.InHand]
    refine ⟨by rw [hafter]; exact h.queue, ?_, fun _ => h.producer (by simp [hpc]), fun hmem => ?_⟩
    swap
    · exact absurd (hpc.symm.trans (h.closed (by simpa [toLog] using hmem))) (by simp)
    exact {
      legal := by simpa [toLog] using h.ok.legal
      slabs := by rw [hafter]; exact hslabs'
      fresh := by
        intro slab before x hmem
        rcases List.mem_append.1 hmem with hmem | hmem
        · exact h.ok.fresh slab before x hmem
        · simp only [List.mem_singleton, ClientObs.constructed.injEq] at hmem
          rw [hmem.2.1, hempty]
      discarded := by simpa using h.ok.discarded
      lost := by simpa [discards, toLog] using h.ok.lost
      serials := by
        rw [constructs_append, List.map_append, h.ok.serials, List.range_succ]
        rfl
      split := by
        have hsplit := h.ok.split
        simp only [inHand, hpc, ClientPc.InHand, reduceCtorEq, or_self, if_false,
          List.append_nil] at hsplit
        rw [hafter, hhand]
        simpa [discards, constructs, toLog] using hsplit.append_right [⟨s.count, content⟩] }
  · cases hs

theorem ClientRel.seek (h : ClientRel C size Rel produces s log)
    (hs : s.seek = some (s', os)) : ClientRel C size Rel produces s' (log ++ os) := by
  unfold ClientState.seek at hs
  split at hs
  · rename_i hpc
    simp only [Option.some.injEq, Prod.mk.injEq] at hs
    obtain ⟨rfl, rfl⟩ := hs
    have hslabs := h.ok.slabs
    rw [hpc] at hslabs
    rw [List.append_nil]
    have hsplit := h.ok.split
    simp only [inHand, hpc, ClientPc.InHand, reduceCtorEq, or_self, if_false] at hsplit
    refine ⟨h.queue, ?_, fun _ => h.producer (by simp [hpc]), fun hmem => ?_⟩
    · exact ⟨h.ok.legal, hslabs.seek, h.ok.fresh, h.ok.discarded, h.ok.lost, h.ok.serials,
        hsplit⟩
    · exact absurd (hpc.symm.trans (h.closed hmem)) (by simp)
  · cases hs

/-- The destructor of the client begins. -/
theorem ClientRel.gone (h : ClientRel C size Rel produces s log) (hpc : s.pc = .idle) :
    ClientRel C size Rel produces { s with pc := .gone } log := by
  have hslabs := h.ok.slabs
  have hsplit := h.ok.split
  rw [hpc] at hslabs hsplit
  exact ⟨h.queue, ⟨h.ok.legal, hslabs.gone, h.ok.fresh, h.ok.discarded, h.ok.lost, h.ok.serials,
    hsplit⟩, fun hne => absurd rfl hne, fun _ => rfl⟩

/-- Every step of a client keeps its account. -/
theorem ClientRel.step (h : ClientRel C size Rel produces s log) (hsize : C < size)
    (hM : IsObjectQueue C M Rel produces ready) {i : ClientInput R ε}
    (hs : (clientMachine ε M).step s i = some (s', os)) :
    ClientRel C size Rel produces s' (log ++ os) := by
  simp only [clientMachine] at hs
  cases i with
  | construct content => exact h.construct hsize hs
  | seek => exact h.seek hs
  | tryWrite =>
    simp only [ClientState.tryWrite] at hs
    split at hs
    · rename_i hpc
      exact h.stepQueue hsize hM (fun box heq => ⟨hpc, by cases heq; rfl⟩) (fun heq => by cases heq)
        hs
    · cases hs
  | queue i =>
    cases i with
    | tryWrite box => cases hs
    | dropProducer =>
      simp only [ClientState.drop] at hs
      split at hs
      · rename_i hpc
        exact (h.gone hpc).stepQueue hsize hM (fun box heq => by cases heq) (fun _ => rfl) hs
      · cases hs
    | writer | tryRead r | moveGuard r j | destroyGuard r j | guard r j | dropReader r =>
      exact h.stepQueue hsize hM (fun box heq => by cases heq) (fun heq => by cases heq) hs

theorem ClientRel.of_reaches (h : ClientRel C size Rel produces s log) (hsize : C < size)
    (hM : IsObjectQueue C M Rel produces ready) (hr : (clientMachine ε M).Reaches s s' os) :
    ClientRel C size Rel produces s' (log ++ os) := by
  induction hr with
  | start => simpa using h
  | step i _ hs ih =>
    rw [← List.append_assoc]
    exact ih.step hsize hM hs

theorem clientRel_start (queue : σ) (allocator : StreamFixedPoolAllocator)
    (hnext : allocator.position = 0) (hqueue : Rel queue GuardedBroadcast.start)
    (hproduces : produces queue) :
    ClientRel (ε := ε) C allocator.capacity Rel produces (.start queue allocator) [] :=
  ⟨hqueue, clientOk_start queue allocator hnext, fun _ => hproduces, fun h => by cases h⟩

/-- Every run of a client with more slabs than places is a broadcast of its events. -/
theorem client_reaches (hM : IsObjectQueue C M Rel produces ready) {queue : σ}
    {allocator : StreamFixedPoolAllocator} (hsize : C < allocator.capacity)
    (hnext : allocator.position = 0) (hqueue : Rel queue GuardedBroadcast.start)
    (hproduces : produces queue)
    (h : (clientMachine ε M).Reaches (.start queue allocator) s log) :
    ClientRel C allocator.capacity Rel produces s log :=
  (clientRel_start queue allocator hnext hqueue hproduces).of_reaches hsize hM h

end Runs

end Ihft.Logger
