import Mathlib.Order.Filter.AtTopBot.Finset
import Ihft.Platform.CpuListLaws

/-!
# The kernel command line

`cmdline` reads the text token by token and keeps the cpus of `isolcpus=`, `nohz_full=` and
`rcu_nocbs=` in three sets of bits.  A cpu number that does not fit in such a set is an exception,
both when it is listed and when it is asked for.
-/

namespace Ihft.Platform

open Search
open Filter (Eventually atTop eventually_gt_atTop eventually_ge_atTop)

/-! ## Sets of bits -/

/-- `std::bitset<N>`. -/
abbrev Bitset (N : ℕ) := Vector Bool N

/-- `std::out_of_range`. -/
inductive OutOfRange
  | outOfRange
  deriving DecidableEq, Repr

namespace Bitset

variable {N : ℕ}

def set (list : Bitset N) (pos : ℕ) : Except OutOfRange (Bitset N) :=
  if h : pos < N then .ok (Vector.set list pos true h) else .error .outOfRange

def test (list : Bitset N) (pos : ℕ) : Except OutOfRange Bool :=
  if h : pos < N then .ok list[pos] else .error .outOfRange

/-- The set after all numbers of a list were put into it. -/
def setAll (list : Bitset N) (cpus : List Unsigned) : Bitset N :=
  Vector.ofFn fun i => list[i] || cpus.any fun cpu => cpu.toNat = i

/-- `list.set(cpu)` as a functor. -/
def functor (list : Bitset N) (cpu : Unsigned) : ExceptT OutOfRange Option (Bitset N) :=
  ExceptT.mk (some (set list cpu.toNat))

theorem test_of_lt {list : Bitset N} {pos : ℕ} (h : pos < N) :
    test list pos = .ok list[pos] := dif_pos h

@[simp] theorem setAll_getElem (list : Bitset N) (cpus : List Unsigned) {i : ℕ} (h : i < N) :
    (setAll list cpus)[i] = (list[i] || cpus.any fun cpu => cpu.toNat = i) := by
  simp [setAll]

@[simp] theorem setAll_nil (list : Bitset N) : setAll list [] = list := by
  apply Vector.ext
  intro i hi
  simp

theorem functor_of_lt {list : Bitset N} {cpu : Unsigned} (h : cpu.toNat < N) :
    functor list cpu = pure (setAll list [cpu]) := by
  have hset : Vector.set list cpu.toNat true h = setAll list [cpu] := by
    apply Vector.ext
    intro i hi
    by_cases heq : cpu.toNat = i <;> simp [heq]
  rw [functor, set, dif_pos h, hset]
  rfl

theorem setAll_setAll (list : Bitset N) (cpus cpus' : List Unsigned) :
    setAll (setAll list cpus) cpus' = setAll list (cpus ++ cpus') := by
  apply Vector.ext
  intro i hi
  simp [Bool.or_assoc]

theorem setAll_congr {cpus cpus' : List Unsigned} (h : ∀ cpu, cpu ∈ cpus ↔ cpu ∈ cpus')
    (list : Bitset N) : setAll list cpus = setAll list cpus' := by
  apply Vector.ext
  intro i hi
  rw [setAll_getElem, setAll_getElem, Bool.eq_iff_iff]
  simp [List.any_eq_true, h]

theorem foldlM_functor {list : Bitset N} {cpus : List Unsigned} (h : ∀ cpu ∈ cpus, cpu.toNat < N) :
    cpus.foldlM functor list = pure (setAll list cpus) := by
  induction cpus generalizing list with
  | nil => rw [List.foldlM_nil, setAll_nil]
  | cons cpu cpus ih =>
    rw [List.forall_mem_cons] at h
    rw [List.foldlM_cons, functor_of_lt h.1, pure_bind, ih h.2, setAll_setAll,
      List.singleton_append]

theorem foldlM_functor_error {list : Bitset N} {cpus : List Unsigned}
    (h : ¬ ∀ cpu ∈ cpus, cpu.toNat < N) :
    cpus.foldlM functor list = ExceptT.mk (some (.error .outOfRange)) := by
  induction cpus generalizing list with
  | nil => simp at h
  | cons cpu cpus ih =>
    rw [List.foldlM_cons]
    by_cases hcpu : cpu.toNat < N
    · rw [functor_of_lt hcpu, pure_bind]
      exact ih fun hall => h (List.forall_mem_cons.2 ⟨hcpu, hall⟩)
    · rw [functor, set, dif_neg hcpu]
      rfl

end Bitset

/-! ## Reading the text -/

/-- The characters that `input >> text` skips and stops at. -/
def isSpace (c : Char) : Bool := c ∈ [' ', '\t', '\n', '\x0b', '\x0c', '\r']

/-- The texts that `while(input >> text)` goes through. -/
def tokens (input : List Char) : List (List Char) :=
  (input.splitOnP isSpace).filter fun text => text ≠ []

/-- The options that are looked for. -/
inductive CpuOption
  | isolcpus
  | nohzFull
  | rcuNocbs
  deriving DecidableEq, Repr

def CpuOption.pattern : CpuOption → List Char
  | isolcpus => "isolcpus=".toList
  | nohzFull => "nohz_full=".toList
  | rcuNocbs => "rcu_nocbs=".toList

/-- `MAX_CPUS`. -/
def maxCpus : ℕ := 512

structure Cmdline where
  isolated : Bitset maxCpus
  nohzFulled : Bitset maxCpus
  rcuNocbsed : Bitset maxCpus

/-- The lambda `process`. -/
def process (fuel : ℕ) (text pattern : List Char) (list : Bitset maxCpus) :
    ExceptT OutOfRange Option (Bitset maxCpus) :=
  match find pattern text 0 with
  | some index => processCpuList Bitset.functor fuel (text.drop (index + pattern.length)) list
  | none => pure list

namespace Cmdline

def empty : Cmdline :=
  ⟨.replicate maxCpus false, .replicate maxCpus false, .replicate maxCpus false⟩

/-- What one token does to the three sets. -/
def processToken (fuel : ℕ) (cmdline : Cmdline) (text : List Char) :
    ExceptT OutOfRange Option Cmdline := do
  let isolated ← process fuel text CpuOption.isolcpus.pattern cmdline.isolated
  let nohzFulled ← process fuel text CpuOption.nohzFull.pattern cmdline.nohzFulled
  let rcuNocbsed ← process fuel text CpuOption.rcuNocbs.pattern cmdline.rcuNocbsed
  pure ⟨isolated, nohzFulled, rcuNocbsed⟩

/-- The constructor, on the contents of the file. -/
def new (fuel : ℕ) (input : List Char) : ExceptT OutOfRange Option Cmdline :=
  (tokens input).foldlM (processToken fuel) empty

/-- The set of an option. -/
def list (cmdline : Cmdline) : CpuOption → Bitset maxCpus
  | .isolcpus => cmdline.isolated
  | .nohzFull => cmdline.nohzFulled
  | .rcuNocbs => cmdline.rcuNocbsed

/-- The three queries are `noexcept`: an exception ends the process. -/
def query (cmdline : Cmdline) (option : CpuOption) (cpu : Unsigned) : Except OutOfRange Bool :=
  Bitset.test (cmdline.list option) cpu.toNat

def isIsolated (cmdline : Cmdline) : Unsigned → Except OutOfRange Bool := cmdline.query .isolcpus

def isNohzFulled (cmdline : Cmdline) : Unsigned → Except OutOfRange Bool := cmdline.query .nohzFull

def isRcuNocbsed (cmdline : Cmdline) : Unsigned → Except OutOfRange Bool := cmdline.query .rcuNocbs

end Cmdline

/-! ## The lists of an option -/

namespace CpuOption

/-- What follows the first occurrence of the option in a token. -/
def listIn (option : CpuOption) (text : List Char) : Option (List Char) :=
  (find option.pattern text 0).map fun index => text.drop (index + option.pattern.length)

/-- The cpus of one token for the option. -/
def cpusOf (option : CpuOption) (text : List Char) : List Unsigned :=
  match option.listIn text with
  | none => []
  | some cpus => callsOf (cpus.splitOn ',')

/-- The cpus that the text lists for the option. -/
def listed (option : CpuOption) (input : List Char) : List Unsigned :=
  (tokens input).flatMap option.cpusOf

end CpuOption

/-- `process_cpu_list` comes to its end on all lists of the text. -/
def ListsTerminate (input : List Char) : Prop :=
  ∀ text ∈ tokens input, ∀ option cpus, CpuOption.listIn option text = some cpus → Terminates cpus

/-- The cpus for each option fit into its set. -/
def Fit (cpus : CpuOption → List Unsigned) : Prop :=
  ∀ option, ∀ cpu ∈ cpus option, cpu.toNat < maxCpus

/-- All cpus listed for the options fit into the sets. -/
def ListsFit (input : List Char) : Prop := Fit fun option => option.listed input

theorem fit_iff {cpus : CpuOption → List Unsigned} : Fit cpus ↔
    (∀ cpu ∈ cpus .isolcpus, cpu.toNat < maxCpus) ∧ (∀ cpu ∈ cpus .nohzFull, cpu.toNat < maxCpus) ∧
      ∀ cpu ∈ cpus .rcuNocbs, cpu.toNat < maxCpus := by
  constructor
  · exact fun h => ⟨h .isolcpus, h .nohzFull, h .rcuNocbs⟩
  · rintro ⟨hisolcpus, hnohzFull, hrcuNocbs⟩ option
    cases option <;> assumption

-- by the cpus of the lists; all numbers of 32 bits would be too many
instance (cpus : List Unsigned) : Decidable (∀ cpu ∈ cpus, cpu.toNat < maxCpus) :=
  List.decidableBAll _ cpus

instance : DecidablePred Fit := fun _ => decidable_of_iff _ fit_iff.symm

instance : DecidablePred ListsFit := fun input =>
  inferInstanceAs (Decidable (Fit fun option => option.listed input))

/-- A range that is never left lists the largest number. -/
theorem allOnes_mem_calls {r : Reaction} (h : ¬ r.Finite) : BitVec.allOnes 32 ∈ r.calls := by
  cases r with
  | range first last =>
    obtain rfl : last = BitVec.allOnes 32 := not_not.1 h
    refine List.mem_map.2 ⟨2 ^ 32 - 1, ?_, rfl⟩
    have hlt := first.isLt
    rw [List.mem_range'_1, BitVec.toNat_allOnes]
    omega
  | skip | cpu result | stop => exact absurd trivial h

theorem terminates_of_calls_lt {cpus : List Char}
    (h : ∀ cpu ∈ callsOf (cpus.splitOn ','), cpu.toNat < maxCpus) : Terminates cpus := by
  apply AllFinite.terminates
  intro item hitem
  by_contra hfinite
  have hlt := h _ (List.mem_flatMap.2 ⟨item, hitem, allOnes_mem_calls hfinite⟩)
  revert hlt
  decide

theorem mem_listed_iff {option : CpuOption} {input : List Char} {cpu : Unsigned} :
    cpu ∈ option.listed input ↔ ∃ text ∈ tokens input, ∃ cpus,
      option.listIn text = some cpus ∧ cpu ∈ callsOf (cpus.splitOn ',') := by
  simp only [CpuOption.listed, List.mem_flatMap, CpuOption.cpusOf]
  constructor
  · rintro ⟨text, htext, hcpu⟩
    cases hlist : option.listIn text with
    | none =>
      rw [hlist] at hcpu
      exact absurd hcpu List.not_mem_nil
    | some cpus =>
      rw [hlist] at hcpu
      exact ⟨text, htext, cpus, hlist, hcpu⟩
  · rintro ⟨text, htext, cpus, hlist, hcpu⟩
    refine ⟨text, htext, ?_⟩
    rw [hlist]
    exact hcpu

/-- Lists of small numbers come to their ends. -/
theorem ListsFit.terminate {input : List Char} (h : ListsFit input) : ListsTerminate input := by
  intro text htext option cpus hlist
  apply terminates_of_calls_lt
  exact fun cpu hcpu => h option cpu (mem_listed_iff.2 ⟨text, htext, cpus, hlist, hcpu⟩)

/-! ## What the constructor does -/

theorem process_eq (fuel : ℕ) (text : List Char) (option : CpuOption) (list : Bitset maxCpus) :
    process fuel text option.pattern list =
      match option.listIn text with
      | none => pure list
      | some cpus => processCpuList Bitset.functor fuel cpus list := by
  unfold process CpuOption.listIn
  cases find option.pattern text 0 <;> rfl

theorem process_eq_foldlM {text : List Char} {option : CpuOption}
    (h : ∀ cpus, option.listIn text = some cpus → Terminates cpus) :
    ∀ᶠ fuel in atTop, ∀ list : Bitset maxCpus, process fuel text option.pattern list =
      (option.cpusOf text).foldlM Bitset.functor list := by
  simp only [process_eq, CpuOption.cpusOf]
  cases hlist : option.listIn text with
  | none => exact Eventually.of_forall fun fuel list => rfl
  | some cpus =>
    have hfinite := (h cpus hlist).allFinite
    filter_upwards [eventually_gt_atTop (2 ^ 32 + (cpus.splitOn ',').length)] with fuel hfuel list
    exact processCpuList_eq_foldlM Bitset.functor hfinite fuel hfuel list

namespace Cmdline

/-- The three sets with the numbers of three lists put into them. -/
def setAll (cmdline : Cmdline) (cpus : CpuOption → List Unsigned) : Cmdline where
  isolated := Bitset.setAll cmdline.isolated (cpus .isolcpus)
  nohzFulled := Bitset.setAll cmdline.nohzFulled (cpus .nohzFull)
  rcuNocbsed := Bitset.setAll cmdline.rcuNocbsed (cpus .rcuNocbs)

@[simp] theorem setAll_list (cmdline : Cmdline) (cpus : CpuOption → List Unsigned)
    (option : CpuOption) :
    (cmdline.setAll cpus).list option = Bitset.setAll (cmdline.list option) (cpus option) := by
  cases option <;> rfl

theorem setAll_setAll (cmdline : Cmdline) (cpus cpus' : CpuOption → List Unsigned) :
    (cmdline.setAll cpus).setAll cpus' =
      cmdline.setAll fun option => cpus option ++ cpus' option := by
  simp [setAll, Bitset.setAll_setAll]

/-- Lists that are put into the sets, unless they do not fit. -/
def enter (cmdline : Cmdline) (cpus : CpuOption → List Unsigned) :
    ExceptT OutOfRange Option Cmdline :=
  if Fit cpus then pure (cmdline.setAll cpus) else ExceptT.mk (some (.error .outOfRange))

theorem enter_of_fit (cmdline : Cmdline) {cpus : CpuOption → List Unsigned} (h : Fit cpus) :
    cmdline.enter cpus = pure (cmdline.setAll cpus) := if_pos h

theorem enter_of_not_fit (cmdline : Cmdline) {cpus : CpuOption → List Unsigned} (h : ¬ Fit cpus) :
    cmdline.enter cpus = ExceptT.mk (some (.error .outOfRange)) := if_neg h

theorem enter_nil (cmdline : Cmdline) : (cmdline.enter fun _ => []) = pure cmdline := by
  rw [enter_of_fit _ (fun option cpu hcpu => absurd hcpu List.not_mem_nil)]
  simp [setAll]

/-- Lists behind each other. -/
theorem enter_append (cmdline : Cmdline) (cpus cpus' : CpuOption → List Unsigned) :
    (cmdline.enter cpus >>= fun cmdline => cmdline.enter cpus') =
      cmdline.enter fun option => cpus option ++ cpus' option := by
  have hfit : (Fit fun option => cpus option ++ cpus' option) ↔ Fit cpus ∧ Fit cpus' := by
    simp only [Fit, List.forall_mem_append]
    exact forall_and
  by_cases h : Fit cpus
  · rw [enter_of_fit _ h, pure_bind]
    by_cases h' : Fit cpus'
    · rw [enter_of_fit _ h', enter_of_fit _ (hfit.2 ⟨h, h'⟩), setAll_setAll]
    · rw [enter_of_not_fit _ h', enter_of_not_fit _ fun hall => h' (hfit.1 hall).2]
  · rw [enter_of_not_fit _ h, enter_of_not_fit _ fun hall => h (hfit.1 hall).1]
    rfl

/-- One token. -/
theorem processToken_eq {text : List Char}
    (h : ∀ option cpus, CpuOption.listIn option text = some cpus → Terminates cpus) :
    ∀ᶠ fuel in atTop, ∀ cmdline, processToken fuel cmdline text =
      cmdline.enter fun option => option.cpusOf text := by
  filter_upwards [process_eq_foldlM (h .isolcpus), process_eq_foldlM (h .nohzFull),
    process_eq_foldlM (h .rcuNocbs)] with fuel hisolcpus hnohzFull hrcuNocbs cmdline
  rw [processToken, hisolcpus]
  simp only [hnohzFull, hrcuNocbs]
  by_cases hisol : ∀ cpu ∈ CpuOption.isolcpus.cpusOf text, cpu.toNat < maxCpus
  · rw [Bitset.foldlM_functor hisol, pure_bind]
    by_cases hnohz : ∀ cpu ∈ CpuOption.nohzFull.cpusOf text, cpu.toNat < maxCpus
    · rw [Bitset.foldlM_functor hnohz, pure_bind]
      by_cases hrcu : ∀ cpu ∈ CpuOption.rcuNocbs.cpusOf text, cpu.toNat < maxCpus
      · rw [Bitset.foldlM_functor hrcu, pure_bind, enter_of_fit _ (fit_iff.2 ⟨hisol, hnohz, hrcu⟩)]
        rfl
      · rw [Bitset.foldlM_functor_error hrcu, enter_of_not_fit _ fun hall => hrcu (hall _)]
        rfl
    · rw [Bitset.foldlM_functor_error hnohz, enter_of_not_fit _ fun hall => hnohz (hall _)]
      rfl
  · rw [Bitset.foldlM_functor_error hisol, enter_of_not_fit _ fun hall => hisol (hall _)]
    rfl

/-- A list of tokens. -/
theorem foldlM_processToken {texts : List (List Char)}
    (h : ∀ text ∈ texts, ∀ option cpus, CpuOption.listIn option text = some cpus →
      Terminates cpus) :
    ∀ᶠ fuel in atTop, ∀ cmdline, texts.foldlM (processToken fuel) cmdline =
      cmdline.enter fun option => texts.flatMap option.cpusOf := by
  induction texts with
  | nil => exact Eventually.of_forall fun fuel cmdline => (enter_nil cmdline).symm
  | cons text texts ih =>
    rw [List.forall_mem_cons] at h
    filter_upwards [processToken_eq h.1, ih h.2] with fuel hfirst hrest cmdline
    rw [List.foldlM_cons, hfirst]
    simp only [hrest, List.flatMap_cons]
    exact enter_append cmdline _ _

/-- The constructor puts the lists of all tokens into the sets. -/
theorem new_eq {input : List Char} (h : ListsTerminate input) :
    ∀ᶠ fuel in atTop, new fuel input = empty.enter fun option => option.listed input := by
  filter_upwards [foldlM_processToken h] with fuel hfuel
  exact hfuel empty

theorem query_of_lt (cmdline : Cmdline) (option : CpuOption) {cpu : Unsigned}
    (h : cpu.toNat < maxCpus) :
    cmdline.query option cpu = .ok (cmdline.list option)[cpu.toNat] := Bitset.test_of_lt h

theorem query_of_not_lt (cmdline : Cmdline) (option : CpuOption) {cpu : Unsigned}
    (h : ¬ cpu.toNat < maxCpus) : cmdline.query option cpu = .error .outOfRange := dif_neg h

@[simp] theorem empty_list (option : CpuOption) : empty.list option = .replicate maxCpus false := by
  cases option <;> rfl

/-- The sets that were empty at first hold the cpus of the lists. -/
theorem query_setAll_iff {cpus : CpuOption → List Unsigned} {option : CpuOption} {cpu : Unsigned}
    (h : cpu.toNat < maxCpus) :
    (empty.setAll cpus).query option cpu = .ok true ↔ cpu ∈ cpus option := by
  rw [query_of_lt _ _ h, Except.ok.injEq, getElem_congr_coll (setAll_list empty cpus option),
    Bitset.setAll_getElem, Bool.or_eq_true, List.any_eq_true]
  simp only [empty_list, Vector.getElem_replicate, Bool.false_eq_true, false_or, decide_eq_true_eq]
  constructor
  · rintro ⟨cpu', hmem, heq⟩
    rwa [← BitVec.eq_of_toNat_eq heq]
  · exact fun hmem => ⟨cpu, hmem, rfl⟩

/-! ## More tests change nothing -/

theorem process_mono {fuel fuel' : ℕ} {text : List Char} {option : CpuOption}
    {list : Bitset maxCpus} {r : Except OutOfRange (Bitset maxCpus)}
    (h : process fuel text option.pattern list = ExceptT.mk (some r)) (hle : fuel ≤ fuel') :
    process fuel' text option.pattern list = ExceptT.mk (some r) := by
  rw [process_eq] at h ⊢
  cases hlist : option.listIn text with
  | none =>
    rw [hlist] at h
    exact h
  | some cpus =>
    simp only [hlist, processCpuList_eq] at h ⊢
    exact cutLoop_mono _ h hle

theorem processToken_mono {fuel fuel' : ℕ} {text : List Char} {cmdline : Cmdline}
    {r : Except OutOfRange Cmdline} (h : processToken fuel cmdline text = ExceptT.mk (some r))
    (hle : fuel ≤ fuel') : processToken fuel' cmdline text = ExceptT.mk (some r) := by
  refine bind_congr_some h (fun q hq => process_mono hq hle) fun isolated h => ?_
  refine bind_congr_some h (fun q hq => process_mono hq hle) fun nohzFulled h => ?_
  exact bind_congr_some h (fun q hq => process_mono hq hle) fun rcuNocbsed => id

theorem foldlM_mono {fuel fuel' : ℕ} {texts : List (List Char)} {cmdline : Cmdline}
    {r : Except OutOfRange Cmdline}
    (h : texts.foldlM (processToken fuel) cmdline = ExceptT.mk (some r)) (hle : fuel ≤ fuel') :
    texts.foldlM (processToken fuel') cmdline = ExceptT.mk (some r) := by
  induction texts generalizing cmdline with
  | nil => exact h
  | cons text texts ih =>
    rw [List.foldlM_cons] at h ⊢
    exact bind_congr_some h (fun q hq => processToken_mono hq hle) fun cmdline hrest => ih hrest

/-- What the constructor has built with some tests it builds with enough tests. -/
theorem eventually_new {input : List Char} {fuel : ℕ} {cmdline : Cmdline}
    (h : new fuel input = pure cmdline) : ∀ᶠ fuel in atTop, new fuel input = pure cmdline := by
  filter_upwards [eventually_ge_atTop fuel] with fuel' hle
  exact foldlM_mono h hle

theorem new_eq_pure_iff {input : List Char} (h : ListsTerminate input) {cmdline : Cmdline} :
    (∃ fuel, new fuel input = pure cmdline) ↔
      ListsFit input ∧ cmdline = empty.setAll fun option => option.listed input := by
  have heventually := new_eq h
  constructor
  · rintro ⟨fuel, hnew⟩
    obtain ⟨fuel', hnew, henter⟩ := ((eventually_new hnew).and heventually).exists
    rw [henter] at hnew
    by_cases hfit : ListsFit input
    · rw [enter_of_fit _ hfit] at hnew
      exact ⟨hfit, (Except.ok.inj (Option.some.inj hnew)).symm⟩
    · rw [enter_of_not_fit _ hfit] at hnew
      cases Option.some.inj hnew
  · rintro ⟨hfit, rfl⟩
    obtain ⟨fuel, henter⟩ := heventually.exists
    exact ⟨fuel, by rw [henter, enter_of_fit _ hfit]⟩

/-- A text whose lists come to their ends can be read, and the queries for a cpu return, if and only
if the listed cpus and the cpu asked for fit into the sets. -/
theorem new_total_iff {input : List Char} (h : ListsTerminate input) (cpu : Unsigned) :
    (∃ fuel cmdline, new fuel input = pure cmdline ∧ (∃ b, cmdline.isIsolated cpu = .ok b) ∧
      (∃ b, cmdline.isNohzFulled cpu = .ok b) ∧ ∃ b, cmdline.isRcuNocbsed cpu = .ok b) ↔
    ListsFit input ∧ cpu.toNat < maxCpus := by
  constructor
  · rintro ⟨fuel, cmdline, hnew, ⟨b, hquery⟩, -⟩
    refine ⟨((new_eq_pure_iff h).1 ⟨fuel, hnew⟩).1, ?_⟩
    by_contra hcpu
    rw [isIsolated, query_of_not_lt _ _ hcpu] at hquery
    cases hquery
  · rintro ⟨hfit, hcpu⟩
    obtain ⟨fuel, hnew⟩ := (new_eq_pure_iff h).2 ⟨hfit, rfl⟩
    exact ⟨fuel, _, hnew, ⟨_, query_of_lt _ _ hcpu⟩, ⟨_, query_of_lt _ _ hcpu⟩,
      ⟨_, query_of_lt _ _ hcpu⟩⟩

theorem new_total_isolated : ∃ fuel cmdline, new fuel "quiet isolcpus=2-3".toList = pure cmdline ∧
    (∃ b, cmdline.isIsolated 511 = .ok b) ∧ (∃ b, cmdline.isNohzFulled 511 = .ok b) ∧
      ∃ b, cmdline.isRcuNocbsed 511 = .ok b := by
  have hfit : ListsFit "quiet isolcpus=2-3".toList := by decide
  exact (new_total_iff hfit.terminate 511).2 ⟨hfit, by decide⟩

/-- The list of the first text ends the process, and so does asking for a cpu without any list. -/
theorem new_throws : ListsTerminate "isolcpus=512".toList ∧
    (∀ᶠ fuel in atTop, new fuel "isolcpus=512".toList = ExceptT.mk (some (.error .outOfRange))) ∧
    ∃ cmdline, (∀ᶠ fuel in atTop, new fuel "quiet".toList = pure cmdline) ∧
      cmdline.isIsolated 512 = .error .outOfRange := by
  have hterminate : ListsTerminate "isolcpus=512".toList := by
    intro text htext option cpus hlist
    have htokens : tokens "isolcpus=512".toList = ["isolcpus=512".toList] := by decide
    rw [htokens, List.mem_singleton] at htext
    subst htext
    cases option with
    | isolcpus =>
      have hcpus : CpuOption.isolcpus.listIn "isolcpus=512".toList = some "512".toList := by
        decide
      obtain rfl := Option.some.inj (hcpus.symm.trans hlist)
      exact ⟨[512], calls_iff.2 ⟨by unfold AllFinite; decide, by decide⟩⟩
    | nohzFull =>
      have hnone : CpuOption.nohzFull.listIn "isolcpus=512".toList = none := by decide
      exact absurd (hnone.symm.trans hlist) (by simp)
    | rcuNocbs =>
      have hnone : CpuOption.rcuNocbs.listIn "isolcpus=512".toList = none := by decide
      exact absurd (hnone.symm.trans hlist) (by simp)
  have hfit : ListsFit "quiet".toList := by decide
  have hnotfit : ¬ ListsFit "isolcpus=512".toList := by decide
  refine ⟨hterminate, ?_, empty.setAll fun option => option.listed "quiet".toList, ?_,
    query_of_not_lt _ _ (by decide)⟩
  · filter_upwards [new_eq hterminate] with fuel hnew
    rw [hnew]
    exact enter_of_not_fit _ hnotfit
  · obtain ⟨fuel, hnew⟩ := (new_eq_pure_iff hfit.terminate).2 ⟨hfit, rfl⟩
    exact eventually_new hnew

/-! ## What the options mean -/

/-- The cpu is in a list that follows the option in some token. -/
def ListedFor (option : CpuOption) (input : List Char) (cpu : Unsigned) : Prop :=
  ∃ text ∈ tokens input, ∃ cpus calls,
    option.listIn text = some cpus ∧ Calls cpus calls ∧ cpu ∈ calls

theorem listedFor_iff {option : CpuOption} {input : List Char} {cpu : Unsigned}
    (h : ListsTerminate input) : ListedFor option input cpu ↔ cpu ∈ option.listed input := by
  rw [mem_listed_iff]
  constructor
  · rintro ⟨text, htext, cpus, calls, hlist, hcalls, hcpu⟩
    refine ⟨text, htext, cpus, hlist, ?_⟩
    rwa [(calls_iff.1 hcalls).2] at hcpu
  · rintro ⟨text, htext, cpus, hlist, hcpu⟩
    obtain ⟨calls, hcalls⟩ := h text htext option cpus hlist
    refine ⟨text, htext, cpus, calls, hlist, hcalls, ?_⟩
    rwa [(calls_iff.1 hcalls).2]

/-- The texts have the same tokens with options. -/
def SameOptions (input input' : List Char) : Prop :=
  ∀ text, (∃ option cpus, CpuOption.listIn option text = some cpus) →
    (text ∈ tokens input ↔ text ∈ tokens input')

theorem SameOptions.listed_iff {input input' : List Char} (h : SameOptions input input')
    {option : CpuOption} {cpu : Unsigned} :
    cpu ∈ option.listed input' ↔ cpu ∈ option.listed input := by
  simp only [mem_listed_iff]
  constructor
  · rintro ⟨text, htext, cpus, hlist, hcpu⟩
    exact ⟨text, (h text ⟨option, cpus, hlist⟩).2 htext, cpus, hlist, hcpu⟩
  · rintro ⟨text, htext, cpus, hlist, hcpu⟩
    exact ⟨text, (h text ⟨option, cpus, hlist⟩).1 htext, cpus, hlist, hcpu⟩

theorem setAll_congr {cpus cpus' : CpuOption → List Unsigned}
    (h : ∀ option cpu, cpu ∈ cpus option ↔ cpu ∈ cpus' option) (cmdline : Cmdline) :
    cmdline.setAll cpus = cmdline.setAll cpus' := by
  simp only [setAll, Bitset.setAll_congr (h _)]

/-- A cpu is in the set of an option if and only if some token has the option somewhere in it and a
list with the cpu behind its first occurrence.  Nothing else in the text matters. -/
theorem new_meaning {input : List Char} (h : ListsFit input) :
    ∃ cmdline, (∀ᶠ fuel in atTop, new fuel input = pure cmdline) ∧
      (∀ cpu : Unsigned, cpu.toNat < maxCpus →
        (cmdline.isIsolated cpu = .ok true ↔ ListedFor .isolcpus input cpu) ∧
        (cmdline.isNohzFulled cpu = .ok true ↔ ListedFor .nohzFull input cpu) ∧
        (cmdline.isRcuNocbsed cpu = .ok true ↔ ListedFor .rcuNocbs input cpu)) ∧
      ∀ input', SameOptions input input' → ∀ᶠ fuel in atTop, new fuel input' = pure cmdline := by
  refine ⟨empty.setAll fun option => option.listed input, ?_, ?_, ?_⟩
  · obtain ⟨fuel, hnew⟩ := (new_eq_pure_iff h.terminate).2 ⟨h, rfl⟩
    exact eventually_new hnew
  · intro cpu hcpu
    simp only [listedFor_iff h.terminate]
    exact ⟨query_setAll_iff hcpu, query_setAll_iff hcpu, query_setAll_iff hcpu⟩
  · intro input' hsame
    have h' : ListsFit input' := fun option cpu hmem => h option cpu (hsame.listed_iff.1 hmem)
    obtain ⟨fuel, hnew⟩ := (new_eq_pure_iff h'.terminate).2 ⟨h', rfl⟩
    rw [setAll_congr fun option cpu => hsame.listed_iff.symm]
    exact eventually_new hnew

theorem new_meaning_isolated : ∃ cmdline,
    (∀ᶠ fuel in atTop, new fuel "quiet isolcpus=2-3".toList = pure cmdline) ∧
      (∀ cpu : Unsigned, cpu.toNat < maxCpus →
        (cmdline.isIsolated cpu = .ok true ↔ ListedFor .isolcpus "quiet isolcpus=2-3".toList cpu) ∧
        (cmdline.isNohzFulled cpu = .ok true ↔
          ListedFor .nohzFull "quiet isolcpus=2-3".toList cpu) ∧
        (cmdline.isRcuNocbsed cpu = .ok true ↔
          ListedFor .rcuNocbs "quiet isolcpus=2-3".toList cpu)) ∧
      ∀ input', SameOptions "quiet isolcpus=2-3".toList input' →
        ∀ᶠ fuel in atTop, new fuel input' = pure cmdline :=
  new_meaning (by decide)

/-- The option is found behind other characters. -/
theorem new_substring : ListsFit "noisolcpus=3".toList ∧
    (∃ cmdline, (∀ᶠ fuel in atTop, new fuel "noisolcpus=3".toList = pure cmdline) ∧
      cmdline.isIsolated 3 = .ok true) ∧
    ¬ ∃ text ∈ tokens "noisolcpus=3".toList, ∃ cpus, text = "isolcpus=".toList ++ cpus := by
  have hfit : ListsFit "noisolcpus=3".toList := by decide
  refine ⟨hfit, ⟨empty.setAll fun option => option.listed "noisolcpus=3".toList, ?_, ?_⟩, ?_⟩
  · obtain ⟨fuel, hnew⟩ := (new_eq_pure_iff hfit.terminate).2 ⟨hfit, rfl⟩
    exact eventually_new hnew
  · exact (query_setAll_iff (by decide)).2 (by decide)
  · rintro ⟨text, htext, cpus, rfl⟩
    have htokens : tokens "noisolcpus=3".toList = ["noisolcpus=3".toList] := by decide
    rw [htokens, List.mem_singleton] at htext
    exact absurd (congrArg List.head? htext) (by simp)

/-! ## Texts that were read -/

theorem terminates_of_processToken {fuel : ℕ} {cmdline cmdline' : Cmdline} {text : List Char}
    (h : processToken fuel cmdline text = pure cmdline') {option : CpuOption} {cpus : List Char}
    (hlist : option.listIn text = some cpus) : Terminates cpus := by
  have hprocess : ∀ list list', process fuel text option.pattern list = pure list' →
      Terminates cpus := by
    intro list list' hpure
    rw [process_eq, hlist] at hpure
    exact terminates_of_pure hpure
  obtain ⟨isolated, hisolated, h⟩ := Exceptional.bind_eq_pure h
  obtain ⟨nohzFulled, hnohzFulled, h⟩ := Exceptional.bind_eq_pure h
  obtain ⟨rcuNocbsed, hrcuNocbsed, -⟩ := Exceptional.bind_eq_pure h
  cases option with
  | isolcpus => exact hprocess _ _ hisolated
  | nohzFull => exact hprocess _ _ hnohzFulled
  | rcuNocbs => exact hprocess _ _ hrcuNocbsed

/-- A text that the constructor has read is one that it can read to its end. -/
theorem listsTerminate_of_new {fuel : ℕ} {input : List Char} {cmdline : Cmdline}
    (h : new fuel input = pure cmdline) : ListsTerminate input := by
  have hfold : ∀ (texts : List (List Char)) (cmdline₀ : Cmdline),
      texts.foldlM (processToken fuel) cmdline₀ = pure cmdline → ∀ text ∈ texts, ∀ option cpus,
        CpuOption.listIn option text = some cpus → Terminates cpus := by
    intro texts
    induction texts with
    | nil => exact fun _ _ text htext => absurd htext List.not_mem_nil
    | cons text texts ih =>
      intro cmdline₀ hfold
      rw [List.foldlM_cons] at hfold
      obtain ⟨cmdline₁, htoken, hrest⟩ := Exceptional.bind_eq_pure hfold
      rw [List.forall_mem_cons]
      exact ⟨fun option cpus hlist => terminates_of_processToken htoken hlist, ih _ hrest⟩
  exact hfold _ _ h

/-- The sets of a text that was read hold the cpus that it lists. -/
theorem query_iff {input : List Char} {cmdline : Cmdline}
    (h : ∃ fuel, new fuel input = pure cmdline) {option : CpuOption} {cpu : Unsigned} :
    cmdline.query option cpu = .ok true ↔ ListedFor option input cpu := by
  have hterminate := listsTerminate_of_new h.choose_spec
  obtain ⟨hfit, rfl⟩ := (new_eq_pure_iff hterminate).1 h
  rw [listedFor_iff hterminate]
  by_cases hcpu : cpu.toNat < maxCpus
  · exact query_setAll_iff hcpu
  · rw [query_of_not_lt _ _ hcpu]
    exact iff_of_false (by simp) fun hmem => hcpu (hfit option cpu hmem)

end Cmdline

end Ihft.Platform
