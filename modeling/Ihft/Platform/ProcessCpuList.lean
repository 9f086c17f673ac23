import Mathlib.Data.List.Basic
import Mathlib.Tactic
import Ihft.Lib.Search
import Ihft.Lib.Exceptional

/-!
# Reading a cpu list

`process_cpu_list` goes through the items between the commas and calls a functor for every cpu: once
for an item that is a number, for all numbers from the first to the second for a range.  The numbers
are `unsigned`; the loop over a range tests `i <= to_result` and wraps behind the largest number.

A loop is given a number of tests of its condition, and has the result `none` when these are used
up.  The functor can throw.
-/

namespace Ihft.Platform

open Search

abbrev Unsigned := BitVec 32

/-! ## The loops of the source -/

/-- The result of `std::from_chars` for an `unsigned`, with the characters from `ptr` on. -/
inductive FromChars
  | invalidArgument
  | resultOutOfRange (rest : List Char)
  | ok (value : Unsigned) (rest : List Char)
  deriving DecidableEq, Repr

/-- `std::from_chars` in base ten; there is no sign, and all digits are consumed. -/
def fromChars (s : List Char) : FromChars :=
  let digits := s.takeWhile Char.isDigit
  let rest := s.dropWhile Char.isDigit
  let value := Nat.ofDigitChars 10 digits 0
  if digits = [] then .invalidArgument
  else if value < 2 ^ 32 then .ok (BitVec.ofNat 32 value) rest
  else .resultOutOfRange rest

/-- `substr(start, next - start)`, up to the end when `next` is `npos`. -/
def substr (s : List Char) (start : ℕ) (next : Option ℕ) : List Char :=
  match next with
  | none => s.drop start
  | some next => (s.drop start).take (next - start)

section Loops

variable {ε σ : Type} (functor : σ → Unsigned → ExceptT ε Option σ)

/-- `for(auto i = result; i <= to_result; i++) functor(i);` -/
def rangeLoop (toResult : Unsigned) : ℕ → Unsigned → σ → ExceptT ε Option σ
  | 0, _, _ => ExceptT.mk none
  | fuel + 1, i, s =>
    if i ≤ toResult then do
      let s ← functor s i
      rangeLoop toResult fuel (i + 1) s
    else
      pure s

/-- The loop over the items, from the position `start` on. -/
def itemLoop (cpus : List Char) : ℕ → ℕ → σ → ExceptT ε Option σ
  | 0, _, _ => ExceptT.mk none
  | fuel + 1, start, s =>
    let next := find [','] cpus start
    let cpu := substr cpus start next
    -- behind the last item `next + 1` wraps to 0, but the loop is left
    let nextItem (s : σ) :=
      match next with
      | none => pure s
      | some next => itemLoop cpus fuel (next + 1) s
    match fromChars cpu with
    | .ok result [] => do
      let s ← functor s result
      nextItem s
    | .ok result (c :: p) =>
      if '-' ≠ c then
        pure s
      else
        match fromChars p with
        | .ok toResult _ => do
          let s ← rangeLoop functor toResult fuel result s
          nextItem s
        | _ => nextItem s
    | _ => nextItem s

def processCpuList (fuel : ℕ) (cpus : List Char) (s : σ) : ExceptT ε Option σ :=
  itemLoop functor cpus fuel 0 s

end Loops

/-- The functor that keeps the numbers it is called with. -/
def record (calls : List Unsigned) (cpu : Unsigned) : ExceptT Empty Option (List Unsigned) :=
  pure (calls ++ [cpu])

/-- `process_cpu_list` comes to its end, and has called the functor on `calls`. -/
def Calls (cpus : List Char) (calls : List Unsigned) : Prop :=
  ∃ fuel, processCpuList record fuel cpus [] = pure calls

/-- `process_cpu_list` comes to its end. -/
def Terminates (cpus : List Char) : Prop := ∃ calls, Calls cpus calls

/-! ## Items -/

/-- What the loop does at an item. -/
inductive Reaction
  | skip
  | cpu (result : Unsigned)
  | range (result toResult : Unsigned)
  | stop
  deriving DecidableEq, Repr

def reaction (item : List Char) : Reaction :=
  match fromChars item with
  | .ok result [] => .cpu result
  | .ok result (c :: p) =>
    if '-' ≠ c then .stop
    else
      match fromChars p with
      | .ok toResult _ => .range result toResult
      | _ => .skip
  | _ => .skip

/-- The numbers from the first to the last. -/
def rangeCalls (result toResult : Unsigned) : List Unsigned :=
  (List.range' result.toNat (toResult.toNat + 1 - result.toNat)).map (BitVec.ofNat 32)

def Reaction.calls : Reaction → List Unsigned
  | .cpu result => [result]
  | .range result toResult => rangeCalls result toResult
  | _ => []

/-- The loop over the range of the item comes to its end. -/
def Reaction.Finite : Reaction → Prop
  | .range _ toResult => toResult ≠ BitVec.allOnes 32
  | _ => True

instance : DecidablePred Reaction.Finite := fun r => by
  unfold Reaction.Finite
  split <;> infer_instance

/-- The items that the loop comes to. -/
def reached (items : List (List Char)) : List (List Char) :=
  items.takeWhile fun item => reaction item ≠ .stop

/-- The calls for a list of items. -/
def callsOf (items : List (List Char)) : List Unsigned :=
  (reached items).flatMap fun item => (reaction item).calls

/-! ## More tests change nothing -/

/-- A sequence of two steps that came to its end. -/
theorem bind_eq_some {ε α β : Type} {x : ExceptT ε Option α} {f : α → ExceptT ε Option β}
    {r : Except ε β} (h : x >>= f = ExceptT.mk (some r)) :
    (∃ a, x = pure a ∧ f a = ExceptT.mk (some r)) ∨
      ∃ e, x = ExceptT.mk (some (.error e)) ∧ r = .error e := by
  cases x with
  | none => cases h
  | some x =>
    cases x with
    | ok a => exact .inl ⟨a, rfl, h⟩
    | error e => exact .inr ⟨e, rfl, (Option.some.inj h).symm⟩

/-- A step that came to its end goes on as before. -/
theorem bind_congr_some {ε α β : Type} {x y : ExceptT ε Option α} {f g : α → ExceptT ε Option β}
    {r : Except ε β} (h : x >>= f = ExceptT.mk (some r))
    (hx : ∀ q, x = ExceptT.mk (some q) → y = ExceptT.mk (some q))
    (hf : ∀ a, f a = ExceptT.mk (some r) → g a = ExceptT.mk (some r)) :
    y >>= g = ExceptT.mk (some r) := by
  rcases bind_eq_some h with ⟨a, hxa, hfa⟩ | ⟨e, hxe, rfl⟩
  · rw [hx (.ok a) hxa]
    exact hf a hfa
  · rw [hx (.error e) hxe]
    rfl

section Items

variable {ε σ : Type} (functor : σ → Unsigned → ExceptT ε Option σ)

theorem rangeLoop_mono {toResult : Unsigned} {fuel fuel' : ℕ} {i : Unsigned} {s : σ}
    {r : Except ε σ} (h : rangeLoop functor toResult fuel i s = ExceptT.mk (some r))
    (hle : fuel ≤ fuel') : rangeLoop functor toResult fuel' i s = ExceptT.mk (some r) := by
  induction fuel generalizing fuel' i s with
  | zero => cases h
  | succ fuel ih =>
    obtain ⟨fuel', rfl⟩ : ∃ n, fuel' = n + 1 := ⟨fuel' - 1, by omega⟩
    rw [rangeLoop] at h ⊢
    split_ifs at h ⊢ with hi
    · exact bind_congr_some h (fun _ => id) fun s hs => ih hs (by omega)
    · exact h

/-- The loop over the items, once the text is cut at its commas. -/
def cutLoop : ℕ → List (List Char) → σ → ExceptT ε Option σ
  | 0, _, _ => ExceptT.mk none
  | _ + 1, [], s => pure s
  | fuel + 1, item :: items, s =>
    let nextItem (s : σ) := if items = [] then pure s else cutLoop fuel items s
    match reaction item with
    | .skip => nextItem s
    | .cpu result => do
      let s ← functor s result
      nextItem s
    | .range result toResult => do
      let s ← rangeLoop functor toResult fuel result s
      nextItem s
    | .stop => pure s

/-- The text from a position on, cut at its first comma. -/
theorem splitOn_drop {cpus : List Char} {start : ℕ} (h : start ≤ cpus.length) :
    (cpus.drop start).splitOn ',' = substr cpus start (find [','] cpus start) ::
      match find [','] cpus start with
      | none => []
      | some next => (cpus.drop (next + 1)).splitOn ',' := by
  rw [find_of_le h]
  cases hi : occurrence [','] (cpus.drop start) with
  | none =>
    exact List.splitOn_eq_singleton (notMem_of_occurrence hi)
  | some i =>
    have hcut := eq_append_of_occurrence hi
    rw [List.append_assoc, List.singleton_append, List.length_singleton] at hcut
    simp only [Option.map_some, substr, Nat.add_sub_cancel_left]
    conv_lhs => rw [hcut]
    rw [List.splitOn_append_cons_self, List.splitOn_eq_singleton (notMem_take_of_occurrence hi),
      List.drop_drop, ← Nat.add_assoc, List.singleton_append]

theorem lt_length_of_find {cpus : List Char} {c : Char} {start next : ℕ}
    (h : find [c] cpus start = some next) : next < cpus.length := by
  unfold find at h
  split_ifs at h with hle
  obtain ⟨i, hi, rfl⟩ := Option.map_eq_some_iff.1 h
  have hlen := length_le_of_occurrence hi
  rw [List.length_drop, List.length_singleton] at hlen
  omega

/-- The loop over the positions is the loop over the items. -/
theorem itemLoop_eq (cpus : List Char) (fuel start : ℕ) (s : σ) (h : start ≤ cpus.length) :
    itemLoop functor cpus fuel start s =
      cutLoop functor fuel ((cpus.drop start).splitOn ',') s := by
  induction fuel generalizing start s with
  | zero => rfl
  | succ fuel ih =>
    have hnext : ∀ s, (match find [','] cpus start with
        | none => pure s
        | some next => itemLoop functor cpus fuel (next + 1) s) =
        if (match find [','] cpus start with
          | none => []
          | some next => (cpus.drop (next + 1)).splitOn ',') = [] then pure s
        else cutLoop functor fuel (match find [','] cpus start with
          | none => []
          | some next => (cpus.drop (next + 1)).splitOn ',') s := by
      intro s
      cases hfind : find [','] cpus start with
      | none => rfl
      | some next =>
        have hlt := lt_length_of_find hfind
        simp only [List.splitOn_ne_nil, if_false]
        exact ih (next + 1) s hlt
    rw [splitOn_drop h, itemLoop, cutLoop]
    simp only [hnext, reaction]
    cases fromChars (substr cpus start (find [','] cpus start)) with
    | invalidArgument | resultOutOfRange rest => rfl
    | ok result p =>
      cases p with
      | nil => rfl
      | cons c p =>
        by_cases hc : '-' ≠ c
        · simp only [if_pos hc]
        · simp only [if_neg hc]
          cases fromChars p <;> rfl

theorem processCpuList_eq (fuel : ℕ) (cpus : List Char) (s : σ) :
    processCpuList functor fuel cpus s = cutLoop functor fuel (cpus.splitOn ',') s :=
  itemLoop_eq functor cpus fuel 0 s (Nat.zero_le _)

/-! ## The loop over a range -/

theorem toNat_add_one (i : Unsigned) : (i + 1).toNat = (i.toNat + 1) % 2 ^ 32 :=
  BitVec.toNat_add i 1

theorem rangeCalls_of_le {i toResult : Unsigned} (h : i ≤ toResult)
    (hmax : toResult ≠ BitVec.allOnes 32) :
    rangeCalls i toResult = i :: rangeCalls (i + 1) toResult := by
  have hlt : toResult.toNat < 2 ^ 32 - 1 := by
    have hne : toResult.toNat ≠ 2 ^ 32 - 1 := fun heq =>
      hmax (BitVec.eq_of_toNat_eq (by rw [heq, BitVec.toNat_allOnes]))
    have hbound := toResult.isLt
    omega
  have hle : i.toNat ≤ toResult.toNat := h
  have hsucc : (i + 1).toNat = i.toNat + 1 := by
    rw [toNat_add_one]
    omega
  unfold rangeCalls
  rw [hsucc, show toResult.toNat + 1 - i.toNat = toResult.toNat + 1 - (i.toNat + 1) + 1 by omega,
    List.range'_succ, List.map_cons, BitVec.ofNat_toNat, BitVec.setWidth_eq]

theorem rangeCalls_of_not_le {i toResult : Unsigned} (h : ¬ i ≤ toResult) :
    rangeCalls i toResult = [] := by
  have hlt : toResult.toNat < i.toNat := Nat.lt_of_not_le h
  unfold rangeCalls
  rw [show toResult.toNat + 1 - i.toNat = 0 by omega]
  rfl

/-- A loop whose bound is not the largest number calls the functor for the range. -/
theorem rangeLoop_eq {toResult : Unsigned} (hmax : toResult ≠ BitVec.allOnes 32) (fuel : ℕ)
    (i : Unsigned) (s : σ) (hfuel : toResult.toNat + 1 - i.toNat < fuel) :
    rangeLoop functor toResult fuel i s = (rangeCalls i toResult).foldlM functor s := by
  induction fuel generalizing i s with
  | zero => omega
  | succ fuel ih =>
    rw [rangeLoop]
    split_ifs with hle
    · rw [rangeCalls_of_le hle hmax, List.foldlM_cons]
      congr 1
      funext s
      apply ih
      have hsucc := toNat_add_one i
      have hle' : i.toNat ≤ toResult.toNat := hle
      have hlt := toResult.isLt
      rcases Nat.lt_or_ge (i.toNat + 1) (2 ^ 32) with hi | hi
      · rw [hsucc, Nat.mod_eq_of_lt hi]
        omega
      · exact absurd (BitVec.eq_of_toNat_eq (by rw [BitVec.toNat_allOnes]; omega)) hmax
    · rw [rangeCalls_of_not_le hle]
      rfl

/-- The functor always returns. -/
def Total : Prop := ∀ s cpu, ∃ s', functor s cpu = pure s'

variable {functor}

/-- No number lies behind the largest one, so that the condition of the loop always holds. -/
theorem rangeLoop_allOnes (htotal : Total functor) (fuel : ℕ) (i : Unsigned) (s : σ) :
    rangeLoop functor (BitVec.allOnes 32) fuel i s = ExceptT.mk none := by
  induction fuel generalizing i s with
  | zero => rfl
  | succ fuel ih =>
    obtain ⟨s', hs'⟩ := htotal s i
    have hle : i ≤ BitVec.allOnes 32 := by
      rw [BitVec.le_def, BitVec.toNat_allOnes]
      have hlt := i.isLt
      omega
    rw [rangeLoop, if_pos hle, hs', pure_bind]
    exact ih (i + 1) s'

theorem rangeLoop_total (htotal : Total functor) (toResult : Unsigned) (fuel : ℕ) (i : Unsigned)
    (s : σ) : rangeLoop functor toResult fuel i s = ExceptT.mk none ∨
      ∃ s', rangeLoop functor toResult fuel i s = pure s' := by
  induction fuel generalizing i s with
  | zero => exact .inl rfl
  | succ fuel ih =>
    rw [rangeLoop]
    split_ifs with hle
    · obtain ⟨s', hs'⟩ := htotal s i
      rw [hs', pure_bind]
      exact ih (i + 1) s'
    · exact .inr ⟨s, rfl⟩

/-! ## The loop over the items -/

theorem reached_cons_stop {item : List Char} (h : reaction item = .stop)
    (items : List (List Char)) : reached (item :: items) = [] :=
  List.takeWhile_cons_of_neg (by simpa using h)

theorem reached_cons {item : List Char} (h : reaction item ≠ .stop) (items : List (List Char)) :
    reached (item :: items) = item :: reached items :=
  List.takeWhile_cons_of_pos (by simpa using h)

theorem callsOf_cons {item : List Char} (h : reaction item ≠ .stop) (items : List (List Char)) :
    callsOf (item :: items) = (reaction item).calls ++ callsOf items := by
  rw [callsOf, reached_cons h, List.flatMap_cons]
  rfl

variable (functor)

/-- The calls for a list of items, when all loops come to their ends. -/
theorem cutLoop_eq (items : List (List Char))
    (hfinite : ∀ item ∈ reached items, (reaction item).Finite) (fuel : ℕ)
    (hfuel : 2 ^ 32 + items.length < fuel) (s : σ) :
    cutLoop functor fuel items s = (callsOf items).foldlM functor s := by
  induction items generalizing fuel s with
  | nil =>
    obtain ⟨fuel, rfl⟩ : ∃ n, fuel = n + 1 := ⟨fuel - 1, by omega⟩
    rfl
  | cons item items ih =>
    obtain ⟨fuel, rfl⟩ : ∃ n, fuel = n + 1 := ⟨fuel - 1, by omega⟩
    rw [List.length_cons] at hfuel
    by_cases hstop : reaction item = .stop
    · rw [cutLoop, callsOf, reached_cons_stop hstop, hstop]
      rfl
    · rw [reached_cons hstop] at hfinite
      have hnext : ∀ s, (if items = [] then pure s else cutLoop functor fuel items s) =
          (callsOf items).foldlM functor s := by
        intro s
        split_ifs with hnil
        · rw [hnil]
          rfl
        · exact ih (fun item hitem => hfinite item (List.mem_cons_of_mem _ hitem)) fuel (by omega) s
      have hitem := hfinite item List.mem_cons_self
      rw [callsOf_cons hstop, List.foldlM_append, cutLoop]
      simp only [hnext]
      cases hreaction : reaction item with
      | skip => simp [Reaction.calls]
      | cpu result => simp [Reaction.calls]
      | stop => exact absurd hreaction hstop
      | range result toResult =>
        rw [hreaction] at hitem
        have hlt := toResult.isLt
        simp only [rangeLoop_eq functor hitem fuel result _ (show _ < fuel by omega)]
        rfl

variable {functor}

/-- A loop over a range up to the largest number is never left. -/
theorem cutLoop_eq_none (htotal : Total functor) {items : List (List Char)} {item : List Char}
    (hitem : item ∈ reached items) (hfinite : ¬ (reaction item).Finite) (fuel : ℕ) (s : σ) :
    cutLoop functor fuel items s = ExceptT.mk none := by
  induction fuel generalizing items s with
  | zero => rfl
  | succ fuel ih =>
    cases items with
    | nil => exact absurd hitem List.not_mem_nil
    | cons first items =>
      by_cases hstop : reaction first = .stop
      · rw [reached_cons_stop hstop] at hitem
        exact absurd hitem List.not_mem_nil
      · rw [reached_cons hstop] at hitem
        rcases List.mem_cons.1 hitem with rfl | hitem
        · -- the loop over this range is not left
          rw [cutLoop]
          cases hreaction : reaction item with
          | range result toResult =>
            rw [hreaction] at hfinite
            obtain rfl : toResult = BitVec.allOnes 32 := not_not.1 hfinite
            simp only [rangeLoop_allOnes htotal]
            rfl
          | skip | cpu result | stop =>
            rw [hreaction] at hfinite
            exact absurd trivial hfinite
        · -- a later one: the loop comes to it, or gets stuck before
          have hnext : ∀ s, (if items = [] then pure s else cutLoop functor fuel items s) =
              ExceptT.mk none := by
            intro s
            rw [if_neg]
            · exact ih hitem s
            · rintro rfl
              exact absurd hitem List.not_mem_nil
          rw [cutLoop]
          simp only [hnext]
          cases hreaction : reaction first with
          | skip => rfl
          | stop => exact absurd hreaction hstop
          | cpu result =>
            obtain ⟨s', hs'⟩ := htotal s result
            simp only [hs', pure_bind]
          | range result toResult =>
            rcases rangeLoop_total htotal toResult fuel result s with hloop | ⟨s', hloop⟩
            · simp only [hloop]
              rfl
            · simp only [hloop, pure_bind]

variable (functor) in
theorem cutLoop_mono {fuel fuel' : ℕ} {items : List (List Char)} {s : σ} {r : Except ε σ}
    (h : cutLoop functor fuel items s = ExceptT.mk (some r)) (hle : fuel ≤ fuel') :
    cutLoop functor fuel' items s = ExceptT.mk (some r) := by
  induction fuel generalizing fuel' items s with
  | zero => cases h
  | succ fuel ih =>
    obtain ⟨fuel', rfl⟩ : ∃ n, fuel' = n + 1 := ⟨fuel' - 1, by omega⟩
    cases items with
    | nil => exact h
    | cons item items =>
      have hnext : ∀ s, (if items = [] then pure s else cutLoop functor fuel items s) =
          ExceptT.mk (some r) → (if items = [] then pure s else cutLoop functor fuel' items s) =
          ExceptT.mk (some r) := by
        intro s hs
        split_ifs at hs ⊢
        · exact hs
        · exact ih hs (by omega)
      rw [cutLoop] at h ⊢
      cases hreaction : reaction item with
      | skip =>
        rw [hreaction] at h
        exact hnext s h
      | stop =>
        rw [hreaction] at h
        exact h
      | cpu result =>
        rw [hreaction] at h
        exact bind_congr_some h (fun _ => id) hnext
      | range result toResult =>
        rw [hreaction] at h
        exact bind_congr_some h (fun q hq => rangeLoop_mono functor hq (by omega)) hnext

end Items

/-! ## Whole texts -/

section Texts

variable {ε σ : Type} (functor : σ → Unsigned → ExceptT ε Option σ) {cpus : List Char}
  {calls : List Unsigned}

/-- All loops that are entered come to their ends. -/
def AllFinite (cpus : List Char) : Prop :=
  ∀ item ∈ reached (cpus.splitOn ','), (reaction item).Finite

/-- What `process_cpu_list` does with a functor, if its loops come to their ends. -/
theorem processCpuList_eq_foldlM (h : AllFinite cpus) (fuel : ℕ)
    (hfuel : 2 ^ 32 + (cpus.splitOn ',').length < fuel) (s : σ) :
    processCpuList functor fuel cpus s = (callsOf (cpus.splitOn ',')).foldlM functor s := by
  rw [processCpuList_eq]
  exact cutLoop_eq functor _ h fuel hfuel s

theorem foldlM_record (calls cpus : List Unsigned) :
    cpus.foldlM record calls = pure (calls ++ cpus) := by
  induction cpus generalizing calls with
  | nil => simp
  | cons cpu cpus ih =>
    rw [List.foldlM_cons, record, pure_bind, ih, List.append_assoc, List.singleton_append]

theorem record_total : Total record := fun calls cpu => ⟨calls ++ [cpu], rfl⟩

/-- The calls of `process_cpu_list` are those for the items it reaches. -/
theorem calls_iff : Calls cpus calls ↔ AllFinite cpus ∧ calls = callsOf (cpus.splitOn ',') := by
  constructor
  · rintro ⟨fuel, hrun⟩
    rw [processCpuList_eq] at hrun
    have hfinite : AllFinite cpus := by
      intro item hitem
      by_contra hendless
      rw [cutLoop_eq_none record_total hitem hendless] at hrun
      cases hrun
    have hrun' := cutLoop_mono record hrun
      (Nat.le_max_left fuel (2 ^ 32 + (cpus.splitOn ',').length + 1))
    rw [cutLoop_eq record _ hfinite _ (by omega), foldlM_record, List.nil_append] at hrun'
    have heq : callsOf (cpus.splitOn ',') = calls := Except.ok.inj (Option.some.inj hrun')
    exact ⟨hfinite, heq.symm⟩
  · rintro ⟨hfinite, rfl⟩
    refine ⟨2 ^ 32 + (cpus.splitOn ',').length + 1, ?_⟩
    rw [processCpuList_eq_foldlM record hfinite _ (Nat.lt_succ_self _), foldlM_record,
      List.nil_append]

theorem Terminates.allFinite (h : Terminates cpus) : AllFinite cpus := by
  obtain ⟨calls, hcalls⟩ := h
  exact (calls_iff.1 hcalls).1

theorem AllFinite.terminates (h : AllFinite cpus) : Terminates cpus := ⟨_, calls_iff.2 ⟨h, rfl⟩⟩

/-- The loops come to their ends if and only if no item that they come to is a range up to the
largest number. -/
theorem processCpuList_terminates_iff : Terminates cpus ↔ AllFinite cpus := by
  constructor
  · rintro ⟨calls, hcalls⟩
    exact (calls_iff.1 hcalls).1
  · exact fun h => ⟨_, calls_iff.2 ⟨h, rfl⟩⟩

/-- No `unsigned` is larger than the bound of this range. -/
theorem processCpuList_endless : ¬ Terminates "0-4294967295".toList := by
  rintro ⟨calls, hcalls⟩
  have hfinite := (calls_iff.1 hcalls).1
  revert hfinite
  unfold AllFinite
  decide

end Texts

/-! ## Other functors -/

section Functors

variable {ε ε' σ σ' : Type} {f : σ → Unsigned → ExceptT ε Option σ}
  {g : σ' → Unsigned → ExceptT ε' Option σ'}

/-- A loop that came to its end with one functor comes to its end with every other one that always
returns. -/
theorem rangeLoop_follows (hg : Total g) {toResult : Unsigned} {fuel : ℕ} {i : Unsigned} {s s' : σ}
    (h : rangeLoop f toResult fuel i s = pure s') (t : σ') :
    ∃ t', rangeLoop g toResult fuel i t = pure t' := by
  induction fuel generalizing i s t with
  | zero => cases h
  | succ fuel ih =>
    rw [rangeLoop] at h ⊢
    split_ifs at h ⊢ with hle
    · obtain ⟨s₁, -, hs₁⟩ := Exceptional.bind_eq_pure h
      obtain ⟨t₁, ht₁⟩ := hg t i
      rw [ht₁, pure_bind]
      exact ih hs₁ t₁
    · exact ⟨t, rfl⟩

theorem cutLoop_follows (hg : Total g) {fuel : ℕ} {items : List (List Char)} {s s' : σ}
    (h : cutLoop f fuel items s = pure s') (t : σ') : ∃ t', cutLoop g fuel items t = pure t' := by
  induction fuel generalizing items s t with
  | zero => cases h
  | succ fuel ih =>
    cases items with
    | nil => exact ⟨t, rfl⟩
    | cons item items =>
      have hnext : ∀ s t, (if items = [] then pure s else cutLoop f fuel items s) = pure s' →
          ∃ t', (if items = [] then pure t else cutLoop g fuel items t) = pure t' := by
        intro s t hs
        split_ifs at hs ⊢
        · exact ⟨t, rfl⟩
        · exact ih hs t
      rw [cutLoop] at h ⊢
      cases hreaction : reaction item with
      | skip =>
        rw [hreaction] at h
        exact hnext s t h
      | stop => exact ⟨t, rfl⟩
      | cpu result =>
        rw [hreaction] at h
        obtain ⟨s₁, -, hs₁⟩ := Exceptional.bind_eq_pure h
        obtain ⟨t₁, ht₁⟩ := hg t result
        simp only [ht₁, pure_bind]
        exact hnext s₁ t₁ hs₁
      | range result toResult =>
        rw [hreaction] at h
        obtain ⟨s₁, hloop, hs₁⟩ := Exceptional.bind_eq_pure h
        obtain ⟨t₁, ht₁⟩ := rangeLoop_follows hg hloop t
        simp only [ht₁, pure_bind]
        exact hnext s₁ t₁ hs₁

theorem terminates_of_pure {cpus : List Char} {fuel : ℕ} {s s' : σ}
    (h : processCpuList f fuel cpus s = pure s') : Terminates cpus := by
  rw [processCpuList_eq] at h
  obtain ⟨calls, hcalls⟩ := cutLoop_follows record_total h []
  exact ⟨calls, fuel, by rw [processCpuList_eq, hcalls]⟩

end Functors

end Ihft.Platform
