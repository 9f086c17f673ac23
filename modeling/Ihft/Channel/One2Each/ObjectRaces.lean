import Ihft.Lib.Silence
import Ihft.Channel.One2Each.ObjectMemory

/-!
# What the relaxed orders of the one-to-each guards mean

The destructor of a guard never releases anything: neither its `fetch_sub` nor its store of the empty
mark tells another thread of the plain accesses before it.  So the writer that finds a bucket empty
does not know of the destruction of the event in it, and the guard that destroys an event does not
know of the accesses through the other guards.  A run without data races never comes to the second
round of the ring, and whoever looks at an event is the one that destroys it
(`objectMemory_races`).
-/

namespace Ihft.Channel.One2Each

open Observe GuardedBroadcast ReleaseAcquire

variable {T : SeqnumCounter} {R : ℕ} {α : Type*}

/-- How many events were constructed. -/
def ObjectMemoryState.constructed (s : ObjectMemoryState T R α) : ℕ :=
  match s.writer.pc with
  | .storeCounter _ _ | .publish _ _ => s.written + 1
  | _ => s.written

/-! ## The plain accesses of a step -/

/-- What a step does to the events: nothing, or one plain access. -/
inductive Access (s : ObjectMemoryState T R α) :
    ObjectMemoryState T R α → List (Event ℕ (GuardObs R α)) → Prop
  | atomic {s' : ObjectMemoryState T R α} {os : List (Event ℕ (GuardObs R α))}
    (keeps : s.memory.Keeps s'.memory)
    (silent : ∀ r, Silent s.memory (.reader r) → Silent s'.memory (.reader r))
    (queue : ∀ x ∈ os, ∃ o, x = .shows (.queue o) ∧ ∀ who y, o ≠ .destroyed who y)
    (constructed : s'.constructed = s.constructed) : Access s s' os
  | construct {s' : ObjectMemoryState T R α} (x : Stored α) (c : T.Val)
    (pc : s.writer.pc = .construct x c)
    (memory : s'.memory = s.memory.writeCell .writer s.writer.impl.nextBucket (some x))
    (constructed : s'.constructed = s.written + 1) :
    Access s s' (raceIf (s.memory.WriteRaces .writer s.writer.impl.nextBucket)
      s.writer.impl.nextBucket)
  | look {s' : ObjectMemoryState T R α} (r : Fin R) (g : Guard T) (mem : g ∈ (s.readers r).guards)
    (owner : g.owner ≠ dummyReaderId T)
    (memory : s'.memory = s.memory.readCell (.reader r) g.bucket)
    (constructed : s'.constructed = s.constructed) :
    Access s s' (raceIf (s.memory.ReadRaces (.reader r) g.bucket) g.bucket ++
      [.shows (.event r g.number (s.memory.cells g.bucket))])
  | destroy {s' : ObjectMemoryState T R α} (r : Fin R) (g : Guard T)
    (mem : g ∈ (s.readers r).guards) (pc : g.pc = .destroy)
    (memory : s'.memory = s.memory.writeCell (.reader r) g.bucket none)
    (constructed : s'.constructed = s.constructed) :
    Access s s' (raceIf (s.memory.WriteRaces (.reader r) g.bucket) g.bucket ++
      [.shows (.queue (.destroyed (some r) (s.memory.cells g.bucket)))])

section Access

variable {s s' : ObjectMemoryState T R α} {os : List (Event ℕ (GuardObs R α))} {e : α} {r : Fin R}
  {j t : ℕ}

theorem access_tryWrite (hs : s.tryWrite e t = some (s', os)) : Access s s' os := by
  unfold ObjectMemoryState.tryWrite Writer.tryWriteAt at hs
  split_ifs at hs
  cases hpc : s.writer.pc with
  | construct x c => simp [hpc] at hs
  | storeCounter x c => simp [hpc] at hs
  | publish x c => simp [hpc] at hs
  | idle =>
    cases hl : s.memory.load .acquire .writer (.counter s.writer.impl.nextBucket) t with
    | none => simp [hpc, hl] at hs
    | some x =>
      obtain ⟨v, memory⟩ := x
      simp only [hpc, hl] at hs
      split_ifs at hs with hv
      · simp only [Option.some.injEq, Prod.mk.injEq] at hs
        obtain ⟨rfl, rfl⟩ := hs
        refine .atomic (Memory.load_keeps hl) (fun r h => h.load hl) ?_ ?_
        · simp [Event.bind, WriterEvent.guardObs, WriterEvent.objectObs]
        · simp [ObjectMemoryState.constructed, hpc]
      · simp only [Option.some.injEq, Prod.mk.injEq] at hs
        obtain ⟨rfl, rfl⟩ := hs
        refine .atomic (Memory.load_keeps hl) (fun r h => h.load hl) ?_ rfl
        simp [Event.bind, WriterEvent.guardObs, WriterEvent.objectObs]

theorem access_resumeWriter (hs : s.resumeWriter t = some (s', os)) : Access s s' os := by
  unfold ObjectMemoryState.resumeWriter Writer.resumeAt at hs
  cases hpc : s.writer.pc with
  | idle => simp [hpc] at hs
  | construct x c =>
    simp only [hpc, Option.some.injEq, Prod.mk.injEq] at hs
    obtain ⟨rfl, rfl⟩ := hs
    rw [raceIf_bind]
    refine .construct x c hpc rfl ?_
    simp [ObjectMemoryState.constructed]
  | storeCounter x c =>
    simp only [hpc] at hs
    cases hst : s.memory.store .relaxed .writer (.counter s.writer.impl.nextBucket) c t with
    | none => simp [hst] at hs
    | some memory =>
      simp only [hst, Option.map_some, Option.some.injEq, Prod.mk.injEq] at hs
      obtain ⟨rfl, rfl⟩ := hs
      refine .atomic (Memory.store_keeps hst) (fun r h => h.store (by simp) hst) (by simp) ?_
      simp [ObjectMemoryState.constructed, hpc]
  | publish x c =>
    simp only [hpc] at hs
    cases hst : s.memory.store .release .writer (.seqn s.writer.impl.nextBucket)
        s.writer.impl.seqn t with
    | none => simp [hst] at hs
    | some memory =>
      simp only [hst, Option.map_some, Option.some.injEq, Prod.mk.injEq] at hs
      obtain ⟨rfl, rfl⟩ := hs
      refine .atomic (Memory.store_keeps hst) (fun r h => h.store (by simp) hst) ?_ ?_
      · simp [Event.bind, WriterEvent.guardObs, WriterEvent.objectObs]
      · simp [ObjectMemoryState.constructed, hpc, shown]

theorem access_tryRead (hs : s.tryRead r t = some (s', os)) : Access s s' os := by
  unfold ObjectMemoryState.tryRead at hs
  simp only at hs
  split_ifs at hs
  split at hs
  · cases hs
  · rename_i v memory hl
    split_ifs at hs
    · simp only [Option.some.injEq, Prod.mk.injEq] at hs
      obtain ⟨rfl, rfl⟩ := hs
      exact .atomic (Memory.load_keeps hl) (fun r h => h.load hl) (by simp) rfl
    · simp only [Option.some.injEq, Prod.mk.injEq] at hs
      obtain ⟨rfl, rfl⟩ := hs
      exact .atomic (Memory.load_keeps hl) (fun r h => h.load hl) (by simp) rfl

/-- Nothing happens to the memory. -/
theorem access_none (hm : s'.memory = s.memory) (hn : s'.constructed = s.constructed) :
    Access s s' [] := by
  refine .atomic ?_ (fun r h => by rwa [hm]) (by simp) hn
  rw [hm]
  exact ⟨fun _ => le_rfl, rfl, rfl, rfl⟩

theorem access_look (hs : s.look r j = some (s', os)) : Access s s' os := by
  unfold ObjectMemoryState.look at hs
  split at hs
  · rename_i bucket owner k hj
    split_ifs at hs with howner
    simp only [Option.some.injEq, Prod.mk.injEq] at hs
    obtain ⟨rfl, rfl⟩ := hs
    exact .look r ⟨bucket, owner, k, .alive⟩ (List.mem_of_getElem? hj) howner rfl rfl
  · cases hs

theorem access_moveGuard (hs : s.moveGuard r j = some (s', os)) : Access s s' os := by
  unfold ObjectMemoryState.moveGuard at hs
  obtain ⟨core, hmove, heq⟩ := Option.map_eq_some_iff.1 hs
  simp only [Prod.mk.injEq] at heq
  obtain ⟨rfl, rfl⟩ := heq
  obtain ⟨g, -, -, rfl⟩ := ObjectCore.moveGuard_eq_some hmove
  exact access_none rfl rfl

/-- The `fetch_sub` of a guard is relaxed. -/
theorem access_destroyGuard (hs : s.destroyGuard r j t = some (s', os)) : Access s s' os := by
  simp only [ObjectMemoryState.destroyGuard] at hs
  split at hs
  · split_ifs at hs
    · split at hs
      · cases hs
      · rename_i v memory hst
        simp only [Option.some.injEq, Prod.mk.injEq] at hs
        obtain ⟨rfl, rfl⟩ := hs
        exact .atomic (Memory.fetchModify_keeps hst) (fun r h => h.fetchModify (fun _ => rfl) hst)
          (by simp) rfl
    · simp only [Option.some.injEq, Prod.mk.injEq] at hs
      obtain ⟨rfl, rfl⟩ := hs
      exact access_none rfl rfl
  · cases hs

/-- So is the store that gives the bucket back. -/
theorem access_resumeGuard (hs : s.resumeGuard r j t = some (s', os)) : Access s s' os := by
  simp only [ObjectMemoryState.resumeGuard] at hs
  split at hs
  · rename_i bucket owner k hj
    simp only [Option.some.injEq, Prod.mk.injEq] at hs
    obtain ⟨rfl, rfl⟩ := hs
    exact .destroy r ⟨bucket, owner, k, .destroy⟩ (List.mem_of_getElem? hj) rfl rfl rfl
  · simp only [Option.map_eq_some_iff, Prod.mk.injEq] at hs
    obtain ⟨memory, hst, rfl, rfl⟩ := hs
    exact .atomic (Memory.store_keeps hst) (fun r h => h.store (fun _ => rfl) hst) (by simp) rfl
  · cases hs

theorem access_step {i : ObjectMove R α × ℕ}
    (hs : (objectMemoryMachine T R α).step s i = some (s', os)) : Access s s' os := by
  obtain ⟨i, t⟩ := i
  cases i with
  | tryWrite e => exact access_tryWrite hs
  | writer => exact access_resumeWriter hs
  | tryRead r => exact access_tryRead hs
  | look r j => exact access_look hs
  | moveGuard r j => exact access_moveGuard hs
  | destroyGuard r j => exact access_destroyGuard hs
  | guard r j => exact access_resumeGuard hs

end Access

/-! ## Nobody knows of the accesses through a guard -/

/-- The readers are silent, and the memory remembers what they did to the events in the log. -/
structure Accesses (C : ℕ) (s : ObjectMemoryState T R α) (log : List (Event ℕ (GuardObs R α))) :
    Prop where
  silent : ∀ r, Silent s.memory (.reader r)
  looked : ∀ r k x, .shows (.event r k x) ∈ log → 0 < s.memory.read (k % C) (.reader r)
  destroyed : ∀ who x, .shows (.queue (.destroyed who x)) ∈ log → ∃ r k e, who = some r ∧
    x = some ⟨k, e⟩ ∧ 0 < s.memory.written (k % C) (.reader r)

variable {C : ℕ} {phase : Fin R → ℕ → Option GuardPc} {s s' : ObjectMemoryState T R α}
  {sc : ObjectState T R α} {a : State (Fin R) α} {log os : List (Event ℕ (GuardObs R α))}

/-- The guard that is about to destroy an event finds it in its bucket. -/
theorem OpenRel.dying_storage (h : OpenRel C phase sc a) {r : Fin R} {g : Guard T}
    (hg : g ∈ (sc.readers r).guards) (hpc : g.pc = .destroy) :
    g.bucket = g.number % C ∧ ∃ e, (sc.ring g.bucket).storage = some ⟨g.number, e⟩ := by
  obtain ⟨j, hj⟩ := List.getElem?_of_mem hg
  have howner : g.owner ≠ dummyReaderId T := fun heq => by
    have := (h.core.guards r).moved g hg heq
    rw [hpc] at this
    cases this
  obtain ⟨hphase, hbucket⟩ := (h.core.guards r).live hj howner
  rw [hpc] at hphase
  obtain ⟨hlt, hdead, -⟩ := h.core.destroy r _ hphase
  obtain ⟨hw, hw', hmod⟩ := h.window hlt fun hf => hdead (h.core.coherent.dead_of_freed _ hf)
  have hst := h.ring.storage _ hw hw' ⟨Nat.le_add_left C _, by rwa [Nat.add_sub_cancel]⟩
  rw [hmod, Nat.add_sub_cancel, ← hbucket] at hst
  rw [hst]
  exact ⟨hbucket, State.exists_item hlt⟩

/-- The memory only adds to what it remembers. -/
theorem Accesses.grow (h : Accesses C s log) (silent : ∀ r, Silent s'.memory (.reader r))
    (read : ∀ x r, 0 < s.memory.read x (.reader r) → 0 < s'.memory.read x (.reader r))
    (written : ∀ x r, 0 < s.memory.written x (.reader r) → 0 < s'.memory.written x (.reader r))
    (looked : ∀ r k x, .shows (.event r k x) ∈ os → 0 < s'.memory.read (k % C) (.reader r))
    (destroyed : ∀ who x, .shows (.queue (.destroyed who x)) ∈ os → ∃ r k e, who = some r ∧
      x = some ⟨k, e⟩ ∧ 0 < s'.memory.written (k % C) (.reader r)) :
    Accesses C s' (log ++ os) where
  silent := silent
  looked r k x hx := by
    rcases List.mem_append.1 hx with hx | hx
    · exact read _ r (h.looked r k x hx)
    · exact looked r k x hx
  destroyed who x hx := by
    rcases List.mem_append.1 hx with hx | hx
    · obtain ⟨r, k, e, hwho, hk, hpos⟩ := h.destroyed who x hx
      exact ⟨r, k, e, hwho, hk, written _ r hpos⟩
    · exact destroyed who x hx

theorem mem_raceIf {x : Event ℕ (GuardObs R α)} {p : Prop} [Decidable p] {b : ℕ}
    (hx : x ∈ raceIf p b) : x = .race b := by
  unfold raceIf at hx
  split_ifs at hx
  · exact List.mem_singleton.1 hx
  · cases hx

theorem Accesses.step (h : Accesses C s log) (hrel : ObjectMemoryRel C s sc a)
    (ha : Access s s' os) : Accesses C s' (log ++ os) := by
  obtain ⟨⟨phase, hrel⟩, hcore, -, ⟨round, hok, -⟩, -⟩ := hrel
  cases ha with
  | atomic keeps silent queue =>
    refine h.grow (fun r => silent r (h.silent r)) (fun x r hx => by rwa [keeps.read])
      (fun x r hx => by rwa [keeps.written]) (fun r k x hx => ?_) fun who x hx => ?_
    · obtain ⟨o, heq, -⟩ := queue _ hx
      cases heq
    · obtain ⟨o, heq, hne⟩ := queue _ hx
      cases heq
      exact absurd rfl (hne who x)
  | construct x c pc memory =>
    refine h.grow (fun r => ?_) (fun y r hy => ?_) (fun y r hy => ?_)
      (fun r k x hx => by cases mem_raceIf hx) fun who x hx => by cases mem_raceIf hx
    · rw [memory]
      exact (h.silent r).writeCell
    · rwa [memory, Memory.writeCell_read]
    · rw [memory]
      exact Memory.written_pos_writeCell hy
  | look r g mem owner memory =>
    rw [hcore] at mem
    obtain ⟨j, hj⟩ := List.getElem?_of_mem mem
    have hbucket := ((hrel.core.guards r).live hj owner).2
    refine h.grow (fun r => ?_) (fun y r hy => ?_) (fun y r hy => ?_) (fun r' k x hx => ?_)
      fun who x hx => ?_
    · rw [memory]
      exact (h.silent r).readCell
    · rw [memory]
      exact Memory.read_pos_readCell hy
    · rwa [memory, Memory.readCell_written]
    · rcases List.mem_append.1 hx with hx | hx
      · cases mem_raceIf hx
      · simp only [List.mem_singleton, Event.shows.injEq, GuardObs.event.injEq] at hx
        obtain ⟨rfl, rfl, -⟩ := hx
        rw [memory, ← hbucket]
        exact Memory.readCell_read_pos
    · rcases List.mem_append.1 hx with hx | hx
      · cases mem_raceIf hx
      · simp at hx
  | destroy r g mem pc memory =>
    rw [hcore] at mem
    obtain ⟨hbucket, e, hst⟩ := hrel.dying_storage mem pc
    refine h.grow (fun r => ?_) (fun y r hy => ?_) (fun y r hy => ?_) (fun r' k x hx => ?_)
      fun who x hx => ?_
    · rw [memory]
      exact (h.silent r).writeCell
    · rwa [memory, Memory.writeCell_read]
    · rw [memory]
      exact Memory.written_pos_writeCell hy
    · rcases List.mem_append.1 hx with hx | hx
      · cases mem_raceIf hx
      · simp at hx
    · rcases List.mem_append.1 hx with hx | hx
      · cases mem_raceIf hx
      · simp only [List.mem_singleton, Event.shows.injEq, GuardObs.queue.injEq,
          Obs.destroyed.injEq] at hx
        obtain ⟨rfl, rfl⟩ := hx
        refine ⟨r, g.number, e, rfl, by rw [hok.cells, hst], ?_⟩
        rw [memory, ← hbucket]
        exact Memory.writeCell_written_pos

/-! ## Runs without races -/

/-- The writer has not come round the ring, and an event that a reader has looked at was destroyed
by this reader or not at all. -/
structure Confined (C : ℕ) (s : ObjectMemoryState T R α) (log : List (Event ℕ (GuardObs R α))) :
    Prop where
  constructed : s.constructed ≤ C
  alone : ∀ r r' k x e, .shows (.event r k x) ∈ log →
    .shows (.queue (.destroyed (some r') (some ⟨k, e⟩))) ∈ log → r = r'

/-- An observation of the queue that changes something was shown. -/
theorem mem_of_changes {o : Obs (Fin R) α} (h : o ∈ changes (shown log)) :
    .shows (.queue o) ∈ log := by
  have hq := (List.mem_filter.1 h).1
  obtain ⟨g, hg, heq⟩ := List.mem_filterMap.1 hq
  obtain ⟨x, hx, hxg⟩ := List.mem_filterMap.1 hg
  cases x with
  | race x => cases hxg
  | shows y =>
    cases hxg
    cases g with
    | event r k x => cases heq
    | queue o' =>
      cases heq
      exact hx

/-- In the second round of the ring the writer constructs an event where another was destroyed by a
thread of which it knows nothing. -/
theorem Accesses.construct_races (hR : R + 1 < 2 ^ T.digits) (h : Accesses C s log)
    {log' : List (Obs (Fin R) α)} (hlog : completed log' = changes (shown log))
    (htracks : Tracks a log') (hrel : ObjectMemoryRel C s sc a) {x : Stored α} {c : T.Val}
    (hpc : s.writer.pc = .construct x c) (hC : C ≤ s.written) :
    s.memory.WriteRaces .writer s.writer.impl.nextBucket := by
  obtain ⟨⟨phase, hrel⟩, hcore, hw, -, -⟩ := hrel
  have hlen : s.written = a.written.length := by rw [hcore, hrel.core.written]
  have hfreed : s.written - C ∈ a.freed :=
    hrel.freed_of_writing hR (by rw [← hw, hpc]; simp) (by omega)
  have hdead := (htracks.dead _).1 (hrel.core.coherent.dead_of_freed _ hfreed)
  obtain ⟨o, ho, hkills⟩ := List.countP_pos_iff.1 hdead
  cases o with
  | destroyed who x =>
    cases x with
    | none => cases hkills
    | some y =>
      have hmem : Obs.destroyed who (some y) ∈ changes (shown log) := by
        rw [← hlog]
        exact List.mem_filter.2 ⟨ho, rfl⟩
      obtain ⟨r, k, e, -, hy, hpos⟩ := h.destroyed who _ (mem_of_changes hmem)
      obtain rfl := Option.some.inj hy
      simp only [Obs.destroys, decide_eq_true_eq] at hkills
      have hbucket : k % C = s.writer.impl.nextBucket := by
        rw [hw, hrel.ring.index.nextBucket, hkills, ← hlen]
        conv_rhs => rw [← Nat.sub_add_cancel hC, Nat.add_mod_right]
      rw [← hbucket]
      exact (h.silent r).writeRaces (by simp) (.inl hpos)
  | _ => cases hkills

theorem Confined.step (hR : R + 1 < 2 ^ T.digits) (h : Confined C s log) (hacc : Accesses C s log)
    {log' : List (Obs (Fin R) α)} (hlog : completed log' = changes (shown log))
    (htracks : Tracks a log') (hrel : ObjectMemoryRel C s sc a) (ha : Access s s' os)
    (hfree : RaceFree (log ++ os)) : Confined C s' (log ++ os) := by
  have hn := h.constructed
  cases ha with
  | atomic keeps silent queue constructed =>
    refine ⟨by rwa [constructed], fun r r' k x e hx hy => ?_⟩
    rcases List.mem_append.1 hx with hx | hx
    · rcases List.mem_append.1 hy with hy | hy
      · exact h.alone r r' k x e hx hy
      · obtain ⟨o, heq, hne⟩ := queue _ hy
        cases heq
        exact absurd rfl (hne _ _)
    · obtain ⟨o, heq, -⟩ := queue _ hx
      cases heq
  | construct x c pc memory constructed =>
    have hlt : s.written < C := by
      by_contra hge
      have hraces := hacc.construct_races hR hlog htracks hrel pc (not_lt.1 hge)
      rw [← List.append_nil (raceIf _ _)] at hfree
      exact hfree.not_raceIf hraces
    refine ⟨by rw [constructed]; exact hlt, fun r r' k x e hx hy => ?_⟩
    refine h.alone r r' k x e ((List.mem_append.1 hx).resolve_right fun hx => ?_)
      ((List.mem_append.1 hy).resolve_right fun hy => ?_)
    · cases mem_raceIf hx
    · cases mem_raceIf hy
  | look r g mem owner memory constructed =>
    obtain ⟨⟨phase, hrel⟩, hcore, -⟩ := hrel
    rw [hcore] at mem
    obtain ⟨j, hj⟩ := List.getElem?_of_mem mem
    have hbucket := ((hrel.core.guards r).live hj owner).2
    refine ⟨by rwa [constructed], fun r₁ r' k x e hx hy => ?_⟩
    replace hy : .shows (.queue (.destroyed (some r') (some ⟨k, e⟩))) ∈ log := by
      refine (List.mem_append.1 hy).resolve_right fun hy => ?_
      rcases List.mem_append.1 hy with hy | hy
      · cases mem_raceIf hy
      · simp at hy
    rcases List.mem_append.1 hx with hx | hx
    · exact h.alone r₁ r' k x e hx hy
    · rcases List.mem_append.1 hx with hx | hx
      · cases mem_raceIf hx
      · simp only [List.mem_singleton, Event.shows.injEq, GuardObs.event.injEq] at hx
        obtain ⟨rfl, rfl, -⟩ := hx
        obtain ⟨r'', k', e', hwho, hk, hpos⟩ := hacc.destroyed _ _ hy
        cases hwho
        cases hk
        by_contra hne
        rw [← hbucket] at hpos
        exact hfree.not_raceIf ((hacc.silent r').readRaces (by simpa using hne) hpos)
  | destroy r g mem pc memory constructed =>
    have hcells := hrel.memory
    obtain ⟨⟨phase, hrel⟩, hcore, -⟩ := hrel
    obtain ⟨round, hok, -⟩ := hcells
    rw [hcore] at mem
    obtain ⟨hbucket, e', hst⟩ := hrel.dying_storage mem pc
    refine ⟨by rwa [constructed], fun r₁ r' k x e hx hy => ?_⟩
    replace hx : .shows (.event r₁ k x) ∈ log := by
      refine (List.mem_append.1 hx).resolve_right fun hx => ?_
      rcases List.mem_append.1 hx with hx | hx
      · cases mem_raceIf hx
      · simp at hx
    rcases List.mem_append.1 hy with hy | hy
    · exact h.alone r₁ r' k x e hx hy
    · rcases List.mem_append.1 hy with hy | hy
      · cases mem_raceIf hy
      · simp only [List.mem_singleton, Event.shows.injEq, GuardObs.queue.injEq,
          Obs.destroyed.injEq, Option.some.injEq, hok.cells, hst, Stored.mk.injEq] at hy
        obtain ⟨rfl, rfl, rfl⟩ := hy
        have hpos := hacc.looked r₁ g.number x hx
        by_contra hne
        rw [← hbucket] at hpos
        exact hfree.not_raceIf ((hacc.silent r₁).writeRaces (by simpa using Ne.symm hne) (.inr hpos))

section Runs

variable (hC : IsCapacity T C) (hR : R ≤ 255)
  (hlen : (consumersFrom T C 0 R).length + 1 < 2 ^ T.digits)
  (hpos : 0 < (consumersFrom T C 0 R).length) {contentAllocator : Bool}
  {s : ObjectMemoryState T (consumersFrom T C 0 R).length α}
  {log : List (Event ℕ (GuardObs (consumersFrom T C 0 R).length α))}

include hC hR hlen hpos

theorem objectMemory_accesses (h : (objectMemoryMachine T _ α).Reaches
    (.start α ⟨producerAfter T C R, consumersFrom T C 0 R⟩ contentAllocator) s log) :
    Accesses C s log := by
  induction h with
  | start => exact ⟨fun r => Silent.initial _, by simp, by simp⟩
  | step i before hs ih =>
    obtain ⟨sc, log', -, -, hrel⟩ := objectMemory_follows hC hR hlen hpos before
    exact ih.step hrel (access_step hs)

theorem objectMemory_confined (h : (objectMemoryMachine T _ α).Reaches
    (.start α ⟨producerAfter T C R, consumersFrom T C 0 R⟩ contentAllocator) s log)
    (hfree : RaceFree log) : Confined C s log := by
  induction h with
  | start => exact ⟨Nat.zero_le C, by simp⟩
  | step i before hs ih =>
    obtain ⟨sc, log', hreaches, hlog, hrel⟩ := objectMemory_follows hC hR hlen hpos before
    have hlegal := ((object_simulates hC hlen hpos).reaches
      (objectRel_start (α := α) hC hR contentAllocator) hreaches).1
    exact (ih hfree.left).step hlen (objectMemory_accesses hC hR hlen hpos before) hlog
      (tracks_of_legal hlegal) hrel (access_step hs) hfree

end Runs

/-- With the relaxed orders of the guards the counters still count: what goes through is what goes
through in a run in which every load returns the latest store.  But the accesses to the events are
not ordered: in a run without data races the writer never comes to the second round of the ring, and
an event that a reader has looked at is not destroyed by another one. -/
theorem objectMemory_races {n R : ℕ} {ch : ProducerAndConsumers T} {contentAllocator : Bool}
    {s : ObjectMemoryState T ch.consumers.length α}
    {log : List (Event ℕ (GuardObs ch.consumers.length α))} (hmake : make T n R = some ch)
    (hR : R + 1 < 2 ^ T.digits)
    (h : (objectMemoryMachine T _ α).Reaches (.start α ch contentAllocator) s log) :
    (∃ sc log', (objectMachine T _ α).Reaches (.start α ch contentAllocator) sc log' ∧
      completed log' = completed (queueObs (shown log))) ∧
    (RaceFree log → (writes (queueObs (shown log))).length ≤ ch.producer.capacity ∧
      ∀ r r' k x e, .shows (.event r k x) ∈ log →
        .shows (.queue (.destroyed (some r') (some ⟨k, e⟩))) ∈ log → r = r') := by
  obtain ⟨C, -, hC, hpos, hmax, rfl⟩ := make_eq_some hmake
  have hlength : (consumersFrom T C 0 R).length = R := consumersFrom_length C 0 R
  have hlen : (consumersFrom T C 0 R).length + 1 < 2 ^ T.digits := by rwa [hlength]
  have hpos : 0 < (consumersFrom T C 0 R).length := by omega
  obtain ⟨sc, log', hreaches, hlog, hrel⟩ := objectMemory_follows hC hmax hlen hpos h
  refine ⟨⟨sc, log', hreaches, hlog⟩, fun hfree => ?_⟩
  obtain ⟨hconstructed, halone⟩ := objectMemory_confined hC hmax hlen hpos h hfree
  refine ⟨?_, halone⟩
  obtain ⟨phase, hopen⟩ := hrel.rel
  have hlegal := ((object_simulates hC hlen hpos).reaches
    (objectRel_start (α := α) hC hmax contentAllocator) hreaches).1
  have hwritten : (writes (queueObs (shown log))).length = s.written := by
    rw [← writes_completed, ← changes, ← hlog, writes_completed,
      ← (tracks_of_legal hlegal).written, hrel.core, hopen.core.written]
  have hle : s.written ≤ s.constructed := by
    unfold ObjectMemoryState.constructed
    split <;> omega
  rw [hwritten, producerAfter_capacity hC]
  exact hle.trans hconstructed

/-- One reader looks at an event that the other one destroys. -/
theorem objectMemory_races_two : ∃ (ch : ProducerAndConsumers .uint8)
    (s : ObjectMemoryState .uint8 ch.consumers.length ℕ)
    (log : List (Event ℕ (GuardObs ch.consumers.length ℕ))), make .uint8 4 2 = some ch ∧
      (objectMemoryMachine .uint8 _ ℕ).Reaches (.start ℕ ch false) s log ∧
      writes (queueObs (shown log)) = [7] ∧ ¬ RaceFree log := by
  have hmake : make .uint8 4 2 = some ⟨producerAfter .uint8 4 2, consumersFrom .uint8 4 0 2⟩ := by
    decide
  have hrun : (objectMemoryMachine .uint8 2 ℕ).Reaches
      (.start ℕ ⟨producerAfter .uint8 4 2, consumersFrom .uint8 4 0 2⟩ false) _
      [.shows (.queue (.offered 7)), .shows (.queue (.wrote 7)),
        .shows (.queue (.read 0 (some ⟨0, 7⟩))), .shows (.queue (.read 1 (some ⟨0, 7⟩))),
        .shows (.event 0 0 (some ⟨0, 7⟩)), .shows (.queue (.dropped 0 0)),
        .shows (.queue (.dropped 1 0)), .race 0,
        .shows (.queue (.destroyed (some 1) (some ⟨0, 7⟩)))] := Machine.Reaches.of_run (show
    (objectMemoryMachine .uint8 2 ℕ).run
    (.start ℕ ⟨producerAfter .uint8 4 2, consumersFrom .uint8 4 0 2⟩ false)
    [(.tryWrite 7, 0), (.writer, 0), (.writer, 1), (.writer, 1), (.tryRead 0, 1), (.tryRead 1, 1),
      (.look 0 0, 0), (.destroyGuard 0 0, 1), (.destroyGuard 1 0, 2), (.guard 1 0, 0)] =
        some (_, _) from rfl)
  refine ⟨_, _, _, hmake, hrun, rfl, fun hfree => ?_⟩
  have halone := ((objectMemory_races hmake (by decide) hrun).2 hfree).2
  have hsame : (0 : Fin 2) = 1 := halone _ _ 0 (some ⟨0, 7⟩) 7 (List.mem_of_getElem? (i := 4) rfl)
    (List.mem_of_getElem? (i := 8) rfl)
  cases hsame

end Ihft.Channel.One2Each
