import Ihft.Lib.Machine

/-!
# Bounded lossless broadcast

One writer sends a sequence of values to readers indexed by `ρ`; each reader takes them in order.
At most `C` values lie between the writer and the slowest reader: a write is refused exactly when
some reader has not yet taken the value written `C` writes earlier.  With one reader this is the
bounded FIFO queue (`legal_boundedQueue`).
-/

namespace Broadcast

open Observe

/-- What can be seen of a broadcast: the completed operations. -/
inductive Obs (ρ α : Type*)
  | wrote (e : α)
  | refused (e : α)
  | read (r : ρ) (e : Option α)
  | empty (r : ρ)
  deriving DecidableEq, Repr

/-- The values written so far, and how many of them each reader has taken. -/
structure State (ρ α : Type*) where
  written : List α
  taken : ρ → ℕ

variable {ρ α : Type*}

def start : State ρ α := ⟨[], fun _ => 0⟩

def State.write (a : State ρ α) (e : α) : State ρ α := { a with written := a.written ++ [e] }

@[simp] theorem State.write_written (a : State ρ α) (e : α) :
    (a.write e).written = a.written ++ [e] := rfl

@[simp] theorem State.write_taken (a : State ρ α) (e : α) : (a.write e).taken = a.taken := rfl

/-- No reader is ahead of the writer, and the writer is at most `C` values ahead of any reader. -/
structure Window (C : ℕ) (a : State ρ α) : Prop where
  taken_le : ∀ r, a.taken r ≤ a.written.length
  le_taken : ∀ r, a.written.length ≤ a.taken r + C

theorem window_start (C : ℕ) : Window C (start : State ρ α) :=
  ⟨fun _ => le_rfl, fun _ => Nat.zero_le _⟩

variable [DecidableEq ρ]

def State.take (a : State ρ α) (r : ρ) : State ρ α :=
  { a with taken := Function.update a.taken r (a.taken r + 1) }

@[simp] theorem State.take_written (a : State ρ α) (r : ρ) : (a.take r).written = a.written := rfl

@[simp] theorem State.take_taken (a : State ρ α) (r : ρ) :
    (a.take r).taken = Function.update a.taken r (a.taken r + 1) := rfl

/-- The broadcast with `C` places. -/
def spec (ρ α : Type*) [DecidableEq ρ] (C : ℕ) : Spec (State ρ α) (Obs ρ α) where
  allowed a
    | .wrote _ => ∀ r, a.written.length < a.taken r + C
    | .refused _ => ∃ r, a.taken r + C ≤ a.written.length
    | .read r e => a.taken r < a.written.length ∧ e = a.written[a.taken r]?
    | .empty r => a.taken r = a.written.length
  next a
    | .wrote e => a.write e
    | .refused _ => a
    | .read r _ => a.take r
    | .empty _ => a

/-! ## Projections of a log -/

/-- The values of the successful writes. -/
def writes (log : List (Obs ρ α)) : List α :=
  log.filterMap fun
    | .wrote e => some e
    | _ => none

/-- The values of the successful reads of `r`; `none` where a read yielded no value at all. -/
def reads (r : ρ) (log : List (Obs ρ α)) : List (Option α) :=
  log.filterMap fun
    | .read r' e => if r' = r then some e else none
    | _ => none

/-- The operations that went through. -/
def completed (log : List (Obs ρ α)) : List (Obs ρ α) :=
  log.filter fun
    | .wrote _ | .read _ _ => true
    | .refused _ | .empty _ => false

omit [DecidableEq ρ] in
@[simp] theorem completed_append (l l' : List (Obs ρ α)) :
    completed (l ++ l') = completed l ++ completed l' := List.filter_append ..

omit [DecidableEq ρ] in
theorem writes_completed (log : List (Obs ρ α)) : writes (completed log) = writes log := by
  rw [writes, completed, List.filterMap_filter]
  refine List.filterMap_congr fun o _ => ?_
  cases o <;> rfl

theorem reads_completed (r : ρ) (log : List (Obs ρ α)) :
    reads r (completed log) = reads r log := by
  rw [reads, completed, List.filterMap_filter]
  refine List.filterMap_congr fun o _ => ?_
  cases o <;> rfl

/-- The state after a log is read off the log. -/
theorem after_start (C : ℕ) (log : List (Obs ρ α)) :
    (spec ρ α C).after start log = ⟨writes log, fun r => (reads r log).length⟩ := by
  induction log using List.reverseRecOn with
  | nil => rfl
  | append_singleton os o ih =>
    rw [Spec.after_append, ih]
    cases o with
    | wrote e => simp [spec, writes, reads, State.write]
    | refused e => simp [spec, writes, reads]
    | empty r => simp [spec, writes, reads]
    | read r e =>
      simp only [spec, Spec.after_cons, Spec.after_nil, State.take, writes, reads,
        List.filterMap_append, List.filterMap_cons, List.filterMap_nil, List.append_nil,
        State.mk.injEq, true_and]
      funext r'
      by_cases h : r = r'
      · subst h; simp
      · simp [h, Function.update_of_ne (Ne.symm h)]

/-! ## The window -/

theorem Window.next {C : ℕ} {a : State ρ α} (h : Window C a) {o : Obs ρ α}
    (ho : (spec ρ α C).allowed a o) : Window C ((spec ρ α C).next a o) := by
  cases o with
  | wrote e =>
    refine ⟨fun r => ?_, fun r => ?_⟩ <;> simp only [spec, State.write, List.length_append,
      List.length_singleton]
    · exact (h.taken_le r).trans (Nat.le_succ _)
    · exact ho r
  | refused e => exact h
  | empty r => exact h
  | read r e =>
    refine ⟨fun r' => ?_, fun r' => ?_⟩ <;> simp only [spec, State.take] <;>
      rcases eq_or_ne r' r with rfl | hne
    · rw [Function.update_self]; exact ho.1
    · rw [Function.update_of_ne hne]; exact h.taken_le r'
    · rw [Function.update_self]; have := h.le_taken r'; omega
    · rw [Function.update_of_ne hne]; exact h.le_taken r'

theorem window_of_legal {C : ℕ} {log : List (Obs ρ α)} (h : (spec ρ α C).Legal start log) :
    Window C (⟨writes log, fun r => (reads r log).length⟩ : State ρ α) := by
  rw [← after_start C log]
  exact Spec.Legal.invariant (I := Window C) (fun _ _ hw ho => hw.next ho) h (window_start C)

/-! ## What a legal log says -/

/-- Every reader has read the first values written, in order. -/
theorem reads_eq_take {C : ℕ} {log : List (Obs ρ α)} (h : (spec ρ α C).Legal start log) (r : ρ) :
    reads r log = ((writes log).take (reads r log).length).map some := by
  induction log using List.reverseRecOn with
  | nil => rfl
  | append_singleton os o ih =>
    obtain ⟨h₁, h₂⟩ := (Spec.legal_append ..).1 h
    have hw := window_of_legal h₁
    rw [after_start] at h₂
    specialize ih h₁
    cases o with
    | wrote e =>
      have hr : reads r (os ++ [.wrote e]) = reads r os := by simp [reads]
      have hwr : writes (os ++ [.wrote e]) = writes os ++ [e] := by simp [writes]
      rw [hr, hwr, List.take_append_of_le_length (hw.taken_le r)]
      exact ih
    | refused e => simpa [reads, writes] using ih
    | empty r' => simpa [reads, writes] using ih
    | read r' e =>
      have hwr : writes (os ++ [.read r' e]) = writes os := by simp [writes]
      by_cases hrr : r' = r
      · subst hrr
        have hr : reads r' (os ++ [.read r' e]) = reads r' os ++ [e] := by simp [reads]
        obtain ⟨hlt, he⟩ : (reads r' os).length < (writes os).length ∧
            e = (writes os)[(reads r' os).length]? := h₂.1
        rw [hr, hwr, List.length_append, List.length_singleton, List.take_add_one,
          List.map_append, ← ih, he, List.getElem?_eq_getElem hlt]
        rfl
      · have hr : reads r (os ++ [.read r' e]) = reads r os := by simp [reads, hrr]
        rw [hr, hwr]
        exact ih

theorem reads_isPrefix {C : ℕ} {log : List (Obs ρ α)} (h : (spec ρ α C).Legal start log) (r : ρ) :
    reads r log <+: (writes log).map some := by
  rw [reads_eq_take h r]
  exact (List.take_prefix _ _).map some

/-! ## One reader: the bounded queue -/

/-- A FIFO queue with exactly `C` places. -/
def boundedQueue (ρ α : Type*) (C : ℕ) : Spec (List α) (Obs ρ α) where
  allowed q
    | .wrote _ => q.length < C
    | .refused _ => q.length = C
    | .read _ e => e.isSome ∧ q.head? = e
    | .empty _ => q = []
  next q
    | .wrote e => q ++ [e]
    | .refused _ => q
    | .read _ _ => q.tail
    | .empty _ => q

/-- With one reader a broadcast is a bounded queue of the values written and not yet taken. -/
theorem legal_boundedQueue [Unique ρ] {C : ℕ} {log : List (Obs ρ α)}
    (h : (spec ρ α C).Legal start log) : (boundedQueue ρ α C).Legal [] log := by
  refine h.map (f := fun a => a.written.drop (a.taken default)) (I := Window C)
    (fun _ _ hw ho => hw.next ho) (fun a o hw ho => ?_) (window_start C)
  have hle := hw.taken_le default
  have hC := hw.le_taken default
  cases o with
  | wrote e =>
    have := ho default
    simp only [boundedQueue, spec, State.write, List.length_drop]
    exact ⟨by omega, (List.drop_append_of_le_length hle).symm⟩
  | refused e =>
    obtain ⟨r, hr⟩ := ho
    rw [Unique.eq_default r] at hr
    simp only [boundedQueue, spec, List.length_drop]
    exact ⟨by omega, trivial⟩
  | read r e =>
    obtain ⟨hlt, he⟩ := ho
    rw [Unique.eq_default r] at hlt he
    simp only [boundedQueue, spec, State.take, Unique.eq_default r, Function.update_self]
    refine ⟨⟨?_, ?_⟩, ?_⟩
    · rw [he, List.getElem?_eq_getElem hlt]; rfl
    · rw [List.head?_drop, he]
    · rw [List.tail_drop]
  | empty r =>
    have hr : a.taken r = a.written.length := ho
    rw [Unique.eq_default r] at hr
    simp only [boundedQueue, spec]
    exact ⟨by rw [hr, List.drop_length], trivial⟩

end Broadcast
