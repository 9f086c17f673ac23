import Ihft.Lib.GuardedBroadcast

/-!
# The objects that were destroyed

The destructions of a legal log, read as a list of objects: none is in it twice, and together with
the objects that are left they are the objects that were written.
-/

namespace GuardedBroadcast

open Observe

variable {ρ α : Type*}

/-- The objects that were destroyed, in this order. -/
def destroyedObjects (log : List (Obs ρ α)) : List (Stored α) :=
  log.filterMap fun
    | .destroyed _ x => x
    | _ => none

/-- The values of the refused writes. -/
def refusals (log : List (Obs ρ α)) : List α :=
  log.filterMap fun
    | .refused e => some e
    | _ => none

/-- The objects that were written and not destroyed. -/
def survivors (log : List (Obs ρ α)) : List (Stored α) :=
  (numbered (writes log)).filter fun x => destructions x.number log = 0

section Append

variable (l l' : List (Obs ρ α))

@[simp] theorem writes_append : writes (l ++ l') = writes l ++ writes l' := List.filterMap_append

@[simp] theorem refusals_append : refusals (l ++ l') = refusals l ++ refusals l' :=
  List.filterMap_append

end Append

theorem mem_writes {x : α} {l : List (Obs ρ α)} : x ∈ writes l ↔ .wrote x ∈ l := by
  rw [writes, List.mem_filterMap]
  constructor
  · rintro ⟨o, ho, heq⟩
    split at heq
    · cases heq
      exact ho
    · cases heq
  · exact fun h => ⟨_, h, rfl⟩

theorem numbered_map_number (l : List α) : (numbered l).map Stored.number = List.range l.length := by
  refine List.ext_getElem (by simp) fun k hk hk' => ?_
  simp [numbered]

theorem numbered_map_value (l : List α) : (numbered l).map Stored.value = l := by
  refine List.ext_getElem (by simp) fun k hk hk' => ?_
  simp [numbered]

theorem getElem_of_numbered {l : List α} {k : ℕ} {x : Stored α} (h : (numbered l)[k]? = some x) :
    l[k]? = some x.value := by
  rw [← numbered_map_value l, List.getElem?_map, h]
  rfl

theorem numbered_nodup (l : List α) : (numbered l).Nodup := by
  apply List.Nodup.of_map Stored.number
  rw [numbered_map_number]
  exact List.nodup_range

/-- Objects are told apart by their numbers. -/
theorem numbered_inj {l : List α} {x y : Stored α} (hx : x ∈ numbered l) (hy : y ∈ numbered l)
    (h : x.number = y.number) : x = y := by
  apply List.inj_on_of_nodup_map _ hx hy h
  rw [numbered_map_number]
  exact List.nodup_range

theorem numbered_isPrefix {l l' : List α} (h : l <+: l') : numbered l <+: numbered l' := by
  obtain ⟨l', rfl⟩ := h
  rw [numbered, numbered, List.mapIdx_append]
  exact List.prefix_append _ _

theorem destructions_eq_count (k : ℕ) (log : List (Obs ρ α)) :
    destructions k log = ((destroyedObjects log).map Stored.number).count k := by
  induction log with
  | nil => rfl
  | cons o os ih =>
    rw [destructions, List.countP_cons]
    rw [destructions] at ih
    cases o with
    | destroyed who x =>
      cases x with
      | none => simpa [destroyedObjects, Obs.destroys] using ih
      | some x =>
        have hcons : destroyedObjects (.destroyed who (some x) :: os) =
          x :: destroyedObjects os := rfl
        rw [hcons, List.map_cons, List.count_cons, ih]
        simp [Obs.destroys]
    | _ => simpa [destroyedObjects, Obs.destroys] using ih

variable [DecidableEq ρ] {C : ℕ} {log : List (Obs ρ α)}

/-- Whatever is destroyed was written. -/
theorem destroyed_item (h : (spec ρ α C).Legal start log) {who : Option ρ}
    {x : Option (Stored α)} (hx : .destroyed who x ∈ log) :
    ∃ y ∈ numbered (writes log), x = some y := by
  obtain ⟨l, l', rfl⟩ := List.append_of_mem hx
  have htr := tracks_of_legal h.left
  obtain ⟨k, hk, hitem⟩ : ∃ k < ((spec ρ α C).after start l).written.length,
      x = ((spec ρ α C).after start l).item k := by
    have ho := h.allowed_of_append
    cases who with
    | none => obtain ⟨-, -, -, k, hk, hx, -⟩ := ho; exact ⟨k, hk, hx⟩
    | some r => obtain ⟨-, k, hk, hx, -⟩ := ho; exact ⟨k, hk, hx⟩
  rw [State.item_eq_numbered, htr.written] at hitem
  rw [htr.written, ← numbered_length (writes l)] at hk
  rw [List.getElem?_eq_getElem hk] at hitem
  refine ⟨_, ?_, hitem⟩
  have hprefix : numbered (writes l) <+: numbered (writes (l ++ .destroyed who x :: l')) := by
    apply numbered_isPrefix
    rw [writes_append]
    exact List.prefix_append _ _
  exact hprefix.subset (List.getElem_mem hk)

theorem mem_numbered_of_mem_destroyedObjects (h : (spec ρ α C).Legal start log) {x : Stored α}
    (hx : x ∈ destroyedObjects log) : x ∈ numbered (writes log) := by
  obtain ⟨o, ho, hox⟩ := List.mem_filterMap.1 hx
  cases o with
  | destroyed who y =>
    obtain ⟨y', hy', rfl⟩ := destroyed_item h ho
    obtain rfl : y' = x := Option.some.inj hox
    exact hy'
  | _ => cases hox

theorem destroyedObjects_nodup (h : (spec ρ α C).Legal start log) :
    (destroyedObjects log).Nodup := by
  apply List.Nodup.of_map Stored.number
  apply List.nodup_iff_count_le_one.2
  intro k
  rw [← destructions_eq_count]
  exact destructions_le_one h k

/-- What was destroyed and what is left are the objects that were written. -/
theorem destroyedObjects_append_survivors (h : (spec ρ α C).Legal start log) :
    (destroyedObjects log ++ survivors log).Perm (numbered (writes log)) := by
  have hdestroyed : (destroyedObjects log).Perm
      ((numbered (writes log)).filter fun x => ! decide (destructions x.number log = 0)) := by
    apply (List.perm_ext_iff_of_nodup (destroyedObjects_nodup h) ((numbered_nodup _).filter _)).2
    intro x
    rw [List.mem_filter, Bool.not_eq_true', decide_eq_false_iff_not, destructions_eq_count,
      List.count_eq_zero, not_not]
    constructor
    · intro hx
      exact ⟨mem_numbered_of_mem_destroyedObjects h hx, List.mem_map_of_mem hx⟩
    · rintro ⟨hx, hnumber⟩
      obtain ⟨y, hy, heq⟩ := List.mem_map.1 hnumber
      have hxy := numbered_inj (mem_numbered_of_mem_destroyedObjects h hy) hx heq
      exact hxy ▸ hy
  refine (hdestroyed.append_right _).trans (List.perm_append_comm.trans ?_)
  exact List.filter_append_perm _ _

/-- A reader that finds nothing has read everything. -/
theorem length_reads_of_empty {r : ρ} (h : (spec ρ α C).Legal start (log ++ [.empty r])) :
    (reads r log).length = (writes log).length := by
  have htr := tracks_of_legal h.left
  have ho := h.allowed_of_append
  rw [← htr.cursor, ← htr.written]
  exact ho.2

/-- When all is over nothing is left. -/
theorem survivors_eq_nil (h : (spec ρ α C).Legal start log) (hclosed : .closed ∈ log) :
    survivors log = [] := by
  apply List.filter_eq_nil_iff.2
  intro x hx
  have hlt : x.number < (writes log).length := by
    have hmem := List.mem_map_of_mem (f := Stored.number) hx
    rwa [numbered_map_number, List.mem_range] at hmem
  simp [destructions_eq_one h hclosed hlt]

end GuardedBroadcast
