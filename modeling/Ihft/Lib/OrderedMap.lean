import Mathlib.Data.List.Sort
import Mathlib.Tactic

/-!
# Ordered maps and multimaps

Entries in the order of their keys.  In a map every key occurs once, in a multimap entries with one
key are in the order in which they were put in.
-/

variable {κ α : Type*} [LinearOrder κ]

/-- A multimap. -/
structure Multimap (κ α : Type*) [LinearOrder κ] where
  entries : List (κ × α)
  sorted : entries.Pairwise fun a b => a.1 ≤ b.1

namespace Multimap

def empty : Multimap κ α := ⟨[], List.Pairwise.nil⟩

theorem sorted_orderedInsert (k : κ) (a : α) {l : List (κ × α)}
    (h : l.Pairwise fun a b => a.1 ≤ b.1) :
    (l.orderedInsert (fun a b => a.1 < b.1) (k, a)).Pairwise fun a b => a.1 ≤ b.1 := by
  induction l with
  | nil => simp
  | cons e l ih =>
    rw [List.orderedInsert_cons]
    split_ifs with hlt
    · refine List.pairwise_cons.2 ⟨fun b hb => ?_, h⟩
      rcases List.mem_cons.1 hb with rfl | hb
      · exact hlt.le
      · exact hlt.le.trans (List.rel_of_pairwise_cons h hb)
    · refine List.pairwise_cons.2 ⟨fun b hb => ?_, ih h.of_cons⟩
      rcases (List.mem_orderedInsert _).1 hb with rfl | hb
      · exact not_lt.1 hlt
      · exact List.rel_of_pairwise_cons h hb

/-- Put one more entry in, behind those with the same key. -/
def emplace (m : Multimap κ α) (k : κ) (a : α) : Multimap κ α :=
  ⟨m.entries.orderedInsert (fun a b => a.1 < b.1) (k, a), sorted_orderedInsert k a m.sorted⟩

/-- Remove all entries with a property. -/
def eraseIf (m : Multimap κ α) (p : κ × α → Bool) : Multimap κ α :=
  ⟨m.entries.filter fun e => !p e, m.sorted.filter _⟩

/-- The first entry with the key. -/
def find (m : Multimap κ α) (k : κ) : Option α := m.entries.lookup k

/-- The number of entries with the key. -/
def count (m : Multimap κ α) (k : κ) : ℕ := (m.entries.map Prod.fst).count k

variable (m : Multimap κ α) (k k' : κ) (a : α)

theorem mem_emplace {e : κ × α} : e ∈ (m.emplace k a).entries ↔ e = (k, a) ∨ e ∈ m.entries :=
  List.mem_orderedInsert _

theorem count_emplace : (m.emplace k a).count k' = m.count k' + if k = k' then 1 else 0 := by
  have hperm := (List.perm_orderedInsert (fun a b => a.1 < b.1) (k, a) m.entries).map Prod.fst
  rw [count, emplace, hperm.count_eq, List.map_cons, List.count_cons, count]
  simp only [beq_iff_eq]

theorem count_eraseIf_key :
    (m.eraseIf fun e => e.1 = k).count k' = if k' = k then 0 else m.count k' := by
  have hmap : (m.eraseIf fun e => e.1 = k).entries.map Prod.fst =
      (m.entries.map Prod.fst).filter fun x => !decide (x = k) := by
    rw [eraseIf, List.filter_map]
    rfl
  rw [count, hmap]
  split_ifs with h
  · rw [List.count_eq_zero, List.mem_filter]
    simp [h]
  · rw [List.count_filter (by simpa using h), count]

end Multimap

/-- A map. -/
@[ext]
structure OrderedMap (κ α : Type*) [LinearOrder κ] where
  entries : List (κ × α)
  sorted : entries.Pairwise fun a b => a.1 < b.1

namespace OrderedMap

def empty : OrderedMap κ α := ⟨[], List.Pairwise.nil⟩

def keys (m : OrderedMap κ α) : List κ := m.entries.map Prod.fst

def find (m : OrderedMap κ α) (k : κ) : Option α := m.entries.lookup k

/-- Give the key a value, whether it has one or not. -/
def assignEntry (k : κ) (a : α) : List (κ × α) → List (κ × α)
  | [] => [(k, a)]
  | e :: l =>
    if k < e.1 then (k, a) :: e :: l
    else if k = e.1 then (k, a) :: l
    else e :: assignEntry k a l

theorem mem_assignEntry {k : κ} {a : α} {e : κ × α} {l : List (κ × α)}
    (h : e ∈ assignEntry k a l) : e = (k, a) ∨ e ∈ l := by
  induction l with
  | nil => simpa [assignEntry] using h
  | cons e' l ih =>
    rw [assignEntry] at h
    split_ifs at h
    · exact List.mem_cons.1 h
    · exact (List.mem_cons.1 h).imp_right (List.mem_cons_of_mem e')
    · rcases List.mem_cons.1 h with rfl | h
      · exact .inr List.mem_cons_self
      · exact (ih h).imp_right (List.mem_cons_of_mem e')

theorem sorted_assignEntry (k : κ) (a : α) {l : List (κ × α)}
    (h : l.Pairwise fun a b => a.1 < b.1) :
    (assignEntry k a l).Pairwise fun a b => a.1 < b.1 := by
  induction l with
  | nil => simp [assignEntry]
  | cons e l ih =>
    rw [assignEntry]
    split_ifs with hlt heq
    · refine List.pairwise_cons.2 ⟨fun b hb => ?_, h⟩
      rcases List.mem_cons.1 hb with rfl | hb
      · exact hlt
      · exact hlt.trans (List.rel_of_pairwise_cons h hb)
    · refine List.pairwise_cons.2 ⟨fun b hb => ?_, h.of_cons⟩
      rw [heq]
      exact List.rel_of_pairwise_cons h hb
    · refine List.pairwise_cons.2 ⟨fun b hb => ?_, ih h.of_cons⟩
      rcases mem_assignEntry hb with rfl | hb
      · exact lt_of_le_of_ne (not_lt.1 hlt) (Ne.symm heq)
      · exact List.rel_of_pairwise_cons h hb

def assign (m : OrderedMap κ α) (k : κ) (a : α) : OrderedMap κ α :=
  ⟨assignEntry k a m.entries, sorted_assignEntry k a m.sorted⟩

variable (m : OrderedMap κ α) {k : κ} {a : α}

theorem keys_nodup : m.keys.Nodup := by
  rw [keys, List.Nodup, List.pairwise_map]
  exact m.sorted.imp ne_of_lt

/-- A key above all others is put behind them. -/
theorem assign_entries_of_lt (h : ∀ e ∈ m.entries, e.1 < k) :
    (m.assign k a).entries = m.entries ++ [(k, a)] := by
  change assignEntry k a m.entries = _
  generalize m.entries = l at h
  induction l with
  | nil => rfl
  | cons e l ih =>
    have hlt := h e List.mem_cons_self
    rw [assignEntry, if_neg hlt.asymm, if_neg hlt.ne',
      ih fun e' he' => h e' (List.mem_cons_of_mem e he')]
    rfl

theorem mem_keys_assign {k' : κ} : k' ∈ (m.assign k a).keys ↔ k' = k ∨ k' ∈ m.keys := by
  change k' ∈ (assignEntry k a m.entries).map Prod.fst ↔ k' = k ∨ k' ∈ m.entries.map Prod.fst
  induction m.entries with
  | nil => simp [assignEntry]
  | cons e l ih =>
    rw [assignEntry]
    split_ifs with hlt heq
    · simp
    · simp [heq]
    · rw [List.map_cons, List.map_cons, List.mem_cons, List.mem_cons, ih, or_left_comm]

/-- Entries in the order of their keys, assigned one after the other. -/
theorem foldl_assign_entries {l : List (κ × α)} (h : l.Pairwise fun a b => a.1 < b.1) :
    (l.foldl (fun m e => m.assign e.1 e.2) empty).entries = l := by
  induction l using List.reverseRecOn with
  | nil => rfl
  | append_singleton l e ih =>
    obtain ⟨hl, -, hlt⟩ := List.pairwise_append.1 h
    rw [List.foldl_append, List.foldl_cons, List.foldl_nil, assign_entries_of_lt, ih hl]
    rw [ih hl]
    exact fun e' he' => hlt e' he' e (List.mem_singleton_self e)

/-- In a list whose keys are different, `lookup` finds the entries. -/
theorem lookup_eq_some {l : List (κ × α)} (h : (l.map Prod.fst).Nodup) :
    l.lookup k = some a ↔ (k, a) ∈ l := by
  induction l with
  | nil => simp
  | cons e l ih =>
    obtain ⟨k', a'⟩ := e
    rw [List.map_cons, List.nodup_cons] at h
    rw [List.lookup_cons, List.mem_cons, Prod.mk.injEq]
    by_cases heq : k = k'
    · subst heq
      simp only [beq_self_eq_true, Option.some.injEq, true_and]
      refine ⟨fun ha => .inl ha.symm, fun hmem => ?_⟩
      rcases hmem with rfl | hmem
      · rfl
      · exact absurd (List.mem_map_of_mem hmem) h.1
    · rw [show (k == k') = false from beq_false_of_ne heq]
      simpa [heq] using ih h.2

theorem lookup_eq_none {l : List (κ × α)} : l.lookup k = none ↔ k ∉ l.map Prod.fst := by
  rw [List.lookup_eq_none_iff, List.mem_map]
  simp only [bne_iff_ne, ne_eq, not_exists, not_and]
  exact ⟨fun h e he heq => h e he heq.symm, fun h e he heq => h e he heq.symm⟩

theorem find_eq_none : m.find k = none ↔ k ∉ m.keys := lookup_eq_none

theorem find_isSome : (m.find k).isSome ↔ k ∈ m.keys := by
  rw [← not_iff_not, Bool.not_eq_true, Option.isSome_eq_false_iff, Option.isNone_iff_eq_none,
    find_eq_none]

end OrderedMap
