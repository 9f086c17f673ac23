import Ihft.Engine.EngineMain
import Ihft.Misc.ConfigHelper
import Ihft.Lib.Exceptional

/-!
# The configuration of the cpus

`cpus_config::parse` reads the integers of the section `engine.cpu` into a map of `unsigned`, and
checks the map: every cpu has to be there and set apart, and no two names may have the same one.
The platform that it asks is a parameter, and with it what a query can do besides returning.
-/

namespace Ihft.Engine

open Misc ConfigHelper TomlNode

/-- The template parameter `platform`: what is asked about the cpus, with the effects `m`. -/
structure Platform (m : Type → Type) where
  getTotalCpus : UInt32
  getCpuIsolationStatus : UInt32 → m Bool
  getCpuNohzFullStatus : UInt32 → m Bool
  getCpuRcuNocbsStatus : UInt32 → m Bool

/-- `std::map<std::string, unsigned>`. -/
abbrev Name2Cpu := OrderedMap String UInt32

/-- The names that a run of the engine has threads for. -/
def Name2Cpu.config (cfg : Name2Cpu) : CpusConfig := ⟨cfg.keys, cfg.keys_nodup⟩

namespace CpusConfig

def sect : String := "engine.cpu"

/-- `prefix`. -/
def errorPrefix : String := "Invalid configuration. "

/-- `static_cast<unsigned>(val)`. -/
def toUnsigned (val : Int64) : UInt32 := val.toUInt64.toUInt32

/-- `std::to_string`. -/
def showCpu (id : UInt32) : String := toString id.toNat

section Parse

variable {m : Type → Type} [Monad m]

/-- A check by a query. -/
def demand (query : m Bool) (message : String) (rest : m (Except String Unit)) :
    m (Except String Unit) := do
  let answer ← query
  if !answer then pure (.error message) else rest

variable (platform : Platform m)

/-- The loop of `parse` over the entries, from a state of `uniq`. -/
def checkEntries (uniq : OrderedMap ℕ String) : List (String × UInt32) → m (Except String Unit)
  | [] => pure (.ok ())
  | (name, id) :: entries =>
    if platform.getTotalCpus ≤ id then
      pure (.error (errorPrefix ++ "Core: " ++ showCpu id ++ " is bigger than total_cpus: " ++
        showCpu platform.getTotalCpus))
    else
      demand (platform.getCpuIsolationStatus id)
        (errorPrefix ++ "Core: " ++ showCpu id ++ " doesn't have isolation.") <|
      demand (platform.getCpuNohzFullStatus id)
        (errorPrefix ++ "Core: " ++ showCpu id ++ " doesn't have nohz_full.") <|
      demand (platform.getCpuRcuNocbsStatus id)
        (errorPrefix ++ "Core: " ++ showCpu id ++ " doesn't have rcu_nocbs.") <|
      match uniq.find id.toNat with
      | some first =>
        pure (.error (errorPrefix ++ "Logic cpus: [" ++ first ++ ", " ++ name ++
          "] use same core: " ++ showCpu id))
      | none => checkEntries (uniq.assign id.toNat name) entries

/-- `parse` of a map. -/
def parseMap (cfg : Name2Cpu) : m (Except String Name2Cpu) :=
  if cfg.entries.isEmpty then
    pure (.error (errorPrefix ++
      "Empty configuration doesn't allowed, please specify at least one logical cpu."))
  else do
    let checked ← checkEntries platform .empty cfg.entries
    pure (checked.map fun _ => cfg)

/-- `parse` of a configuration. -/
def parse (atPath : TomlNode → String → Option TomlNode) (cfg : Document) :
    m (Except String Name2Cpu) :=
  if !pathExists atPath cfg sect then
    pure (.error ("Section [" ++ sect ++ "] doesn't exist at source: " ++ cfg.source))
  else
    parseMap platform ((enumerateInteger atPath cfg sect).foldl
      (fun map e => map.assign e.1 (toUnsigned e.2)) .empty)

/-! ## What the checks accept -/

/-- The cpu passes the checks of the loop. -/
structure Passes (id : UInt32) : Prop where
  lt : id < platform.getTotalCpus
  isolation : platform.getCpuIsolationStatus id = pure true
  nohzFull : platform.getCpuNohzFullStatus id = pure true
  rcuNocbs : platform.getCpuRcuNocbsStatus id = pure true

/-- The cpus pass the checks, and there is none twice. -/
structure Accepted (ids : List UInt32) : Prop where
  passes : ∀ id ∈ ids, Passes platform id
  nodup : ids.Nodup

/-- The queries about the cpus that are there return. -/
structure Returns : Prop where
  isolation : ∀ id < platform.getTotalCpus, ∃ b, platform.getCpuIsolationStatus id = pure b
  nohzFull : ∀ id < platform.getTotalCpus, ∃ b, platform.getCpuNohzFullStatus id = pure b
  rcuNocbs : ∀ id < platform.getTotalCpus, ∃ b, platform.getCpuRcuNocbsStatus id = pure b

variable {platform} [LawfulMonad m]

theorem demand_returns {query : m Bool} {message : String} {rest : m (Except String Unit)}
    (hquery : ∃ b, query = pure b) (hrest : ∃ r, rest = pure r) :
    ∃ r, demand query message rest = pure r := by
  obtain ⟨b, rfl⟩ := hquery
  rw [demand, pure_bind]
  cases b with
  | false => exact ⟨_, rfl⟩
  | true => exact hrest

theorem checkEntries_returns (h : Returns platform) (uniq : OrderedMap ℕ String)
    (entries : List (String × UInt32)) : ∃ r, checkEntries platform uniq entries = pure r := by
  induction entries generalizing uniq with
  | nil => exact ⟨_, rfl⟩
  | cons e entries ih =>
    obtain ⟨name, id⟩ := e
    rw [checkEntries]
    split_ifs with hle
    · exact ⟨_, rfl⟩
    · have hlt := UInt32.not_le.1 hle
      refine demand_returns (h.isolation id hlt) (demand_returns (h.nohzFull id hlt)
        (demand_returns (h.rcuNocbs id hlt) ?_))
      cases uniq.find id.toNat with
      | some first => exact ⟨_, rfl⟩
      | none => exact ih _

theorem parse_returns (h : Returns platform) (atPath : TomlNode → String → Option TomlNode)
    (cfg : Document) : ∃ parsed, parse platform atPath cfg = pure parsed := by
  rw [parse]
  split_ifs with hexists
  · exact ⟨_, rfl⟩
  · rw [parseMap]
    split_ifs with hempty
    · exact ⟨_, rfl⟩
    · obtain ⟨r, hr⟩ := checkEntries_returns h .empty _
      rw [hr, pure_bind]
      exact ⟨_, rfl⟩

variable [Exceptional m]

theorem demand_ok {query : m Bool} {message : String} {rest : m (Except String Unit)} :
    demand query message rest = pure (.ok ()) ↔ query = pure true ∧ rest = pure (.ok ()) := by
  constructor
  · intro h
    obtain ⟨b, hquery, h⟩ := Exceptional.bind_eq_pure h
    cases b with
    | false => cases Exceptional.pure_injective h
    | true => exact ⟨hquery, h⟩
  · rintro ⟨rfl, hrest⟩
    rwa [demand, pure_bind]

theorem checkEntries_cons_ok {uniq : OrderedMap ℕ String} {name : String} {id : UInt32}
    {entries : List (String × UInt32)} :
    checkEntries platform uniq ((name, id) :: entries) = pure (.ok ()) ↔
      Passes platform id ∧ id.toNat ∉ uniq.keys ∧
        checkEntries platform (uniq.assign id.toNat name) entries = pure (.ok ()) := by
  rw [checkEntries]
  by_cases hle : platform.getTotalCpus ≤ id
  · rw [if_pos hle]
    exact iff_of_false (fun h => by cases Exceptional.pure_injective h)
      fun h => UInt32.not_le.2 h.1.lt hle
  · have hpasses : Passes platform id ↔ platform.getCpuIsolationStatus id = pure true ∧
        platform.getCpuNohzFullStatus id = pure true ∧
          platform.getCpuRcuNocbsStatus id = pure true :=
      ⟨fun h => ⟨h.isolation, h.nohzFull, h.rcuNocbs⟩,
        fun h => ⟨UInt32.not_le.1 hle, h.1, h.2.1, h.2.2⟩⟩
    rw [if_neg hle, demand_ok, demand_ok, demand_ok, hpasses, and_assoc, and_assoc]
    refine and_congr_right fun _ => and_congr_right fun _ => and_congr_right fun _ => ?_
    cases hfind : uniq.find id.toNat with
    | some first =>
      have hmem : id.toNat ∈ uniq.keys := by
        by_contra hnot
        rw [← uniq.find_eq_none, hfind] at hnot
        cases hnot
      exact iff_of_false (fun h => by cases Exceptional.pure_injective h) fun h => h.1 hmem
    | none => simp [uniq.find_eq_none.1 hfind]

/-- The loop goes through if the cpus that are left pass, are different, and were not there
before. -/
theorem checkEntries_ok {uniq : OrderedMap ℕ String} {entries : List (String × UInt32)} :
    checkEntries platform uniq entries = pure (.ok ()) ↔
      Accepted platform (entries.map Prod.snd) ∧ ∀ e ∈ entries, e.2.toNat ∉ uniq.keys := by
  induction entries generalizing uniq with
  | nil => simpa [checkEntries] using ⟨by simp, List.nodup_nil⟩
  | cons e entries ih =>
    obtain ⟨name, id⟩ := e
    rw [checkEntries_cons_ok, ih]
    simp only [OrderedMap.mem_keys_assign, not_or, List.map_cons, List.forall_mem_cons]
    constructor
    · rintro ⟨hid, hnot, ⟨hpasses, hnodup⟩, hold⟩
      have hnew : id ∉ entries.map Prod.snd := fun hmem => by
        obtain ⟨e, he, rfl⟩ := List.mem_map.1 hmem
        exact (hold e he).1 rfl
      exact ⟨⟨List.forall_mem_cons.2 ⟨hid, hpasses⟩, List.nodup_cons.2 ⟨hnew, hnodup⟩⟩, hnot,
        fun e he => (hold e he).2⟩
    · rintro ⟨⟨hpasses, hnodup⟩, hnot, hold⟩
      obtain ⟨hid, hpasses⟩ := List.forall_mem_cons.1 hpasses
      obtain ⟨hnew, hnodup⟩ := List.nodup_cons.1 hnodup
      refine ⟨hid, hnot, ⟨hpasses, hnodup⟩, fun e he => ⟨fun heq => hnew ?_, hold e he⟩⟩
      exact List.mem_map.2 ⟨e, he, UInt32.toNat_inj.1 heq⟩

theorem parseMap_ok {cfg map : Name2Cpu} : parseMap platform cfg = pure (.ok map) ↔
    map = cfg ∧ cfg.entries ≠ [] ∧ Accepted platform (cfg.entries.map Prod.snd) := by
  have hcheck : checkEntries platform .empty cfg.entries = pure (.ok ()) ↔
      Accepted platform (cfg.entries.map Prod.snd) := by
    rw [checkEntries_ok, and_iff_left (by simp [OrderedMap.keys, OrderedMap.empty])]
  rw [parseMap, ← hcheck]
  by_cases hempty : cfg.entries = []
  · rw [if_pos (by simpa using hempty)]
    exact iff_of_false (fun h => by cases Exceptional.pure_injective h) fun h => h.2.1 hempty
  · rw [if_neg (by simpa using hempty)]
    constructor
    · intro h
      obtain ⟨checked, hchecked, h⟩ := Exceptional.bind_eq_pure h
      cases checked with
      | error e => cases Exceptional.pure_injective h
      | ok u =>
        cases Exceptional.pure_injective h
        exact ⟨rfl, hempty, hchecked⟩
    · rintro ⟨rfl, -, hchecked⟩
      rw [hchecked, pure_bind]
      rfl

end Parse

/-! ## The section -/

/-- The node under the path. -/
def cpuNode (cfg : Document) : Option TomlNode := cfg.root.walk ["engine", "cpu"]

/-- The integer entries of the section. -/
def cpuEntries (cfg : Document) : List (String × Int64) := scalars asInteger (cpuNode cfg)

section Section

variable {atPath : TomlNode → String → Option TomlNode} {cfg : Document}

theorem atPath_sect (h : AtPath atPath) : atPath cfg.root sect = cpuNode cfg :=
  h.walks _ _ ⟨by decide, by decide⟩

theorem cpuEntries_sorted : (cpuEntries cfg).Pairwise fun a b => a.1 < b.1 := by
  unfold cpuEntries
  cases hnode : cpuNode cfg with
  | none => exact List.Pairwise.nil
  | some node => exact (cfg.ordered.walk hnode).scalars_sorted

/-- The map that `parse` makes of the entries. -/
def loaded (cfg : Document) : Name2Cpu :=
  ⟨(cpuEntries cfg).map fun e => (e.1, toUnsigned e.2), List.pairwise_map.2 cpuEntries_sorted⟩

/-- The cpus that `parse` checks. -/
def loadedCpus (cfg : Document) : List UInt32 := ((cpuEntries cfg).map Prod.snd).map toUnsigned

theorem loaded_snd (cfg : Document) : (loaded cfg).entries.map Prod.snd = loadedCpus cfg := by
  simp [loaded, loadedCpus]

theorem foldl_assign_loaded (cfg : Document) : (cpuEntries cfg).foldl (fun (map : Name2Cpu) e =>
    map.assign e.1 (toUnsigned e.2)) .empty = loaded cfg := by
  have hfold := OrderedMap.foldl_assign_entries (loaded cfg).sorted
  rw [loaded, List.foldl_map] at hfold
  exact OrderedMap.ext hfold

variable {m : Type → Type} [Monad m] [LawfulMonad m] [Exceptional m] {platform : Platform m}

/-- What `parse` accepts, and with what map. -/
theorem parse_ok {map : Name2Cpu} (h : AtPath atPath) :
    parse platform atPath cfg = pure (.ok map) ↔
      (cpuNode cfg).isSome ∧ cpuEntries cfg ≠ [] ∧ map = loaded cfg ∧
        Accepted platform (loadedCpus cfg) := by
  have hexists : pathExists atPath cfg sect = (cpuNode cfg).isSome := by
    rw [pathExists, atPath_sect h]
  have henum : enumerateInteger atPath cfg sect = cpuEntries cfg := by
    rw [enumerateInteger, enumerate, atPath_sect h, cpuEntries]
  have hne : (loaded cfg).entries ≠ [] ↔ cpuEntries cfg ≠ [] := by
    rw [loaded, ne_eq, List.map_eq_nil_iff]
  rw [parse, hexists, henum, foldl_assign_loaded]
  cases (cpuNode cfg).isSome with
  | false =>
    rw [Bool.not_false, if_pos rfl]
    exact iff_of_false (fun h => by cases Exceptional.pure_injective h) fun h => by cases h.1
  | true =>
    rw [Bool.not_true, if_neg Bool.false_ne_true, parseMap_ok, loaded_snd, hne]
    tauto

/-- A section with integer entries is there. -/
theorem exists_parse_iff (h : AtPath atPath) :
    (∃ map, parse platform atPath cfg = pure (.ok map)) ↔
      (cpuNode cfg).isSome ∧ cpuEntries cfg ≠ [] ∧ Accepted platform (loadedCpus cfg) := by
  constructor
  · rintro ⟨map, hmap⟩
    obtain ⟨hfound, hne, -, haccepted⟩ := (parse_ok h).1 hmap
    exact ⟨hfound, hne, haccepted⟩
  · rintro ⟨hfound, hne, haccepted⟩
    exact ⟨loaded cfg, (parse_ok h).2 ⟨hfound, hne, rfl, haccepted⟩⟩

theorem found_of_nonempty (h : cpuEntries cfg ≠ []) : (cpuNode cfg).isSome := by
  cases hnode : cpuNode cfg with
  | none => exact absurd (by simp [cpuEntries, hnode, scalars]) h
  | some node => rfl

end Section

/-! ## Exactness -/

-- on a platform whose queries always return
variable (platform : Platform Id)

/-- The value is the number of a cpu that is set apart. -/
structure Fits (v : Int64) : Prop where
  nonneg : 0 ≤ v.toInt
  lt : v.toInt < platform.getTotalCpus.toNat
  isolation : platform.getCpuIsolationStatus (.ofNat v.toInt.toNat) = true
  nohzFull : platform.getCpuNohzFullStatus (.ofNat v.toInt.toNat) = true
  rcuNocbs : platform.getCpuRcuNocbsStatus (.ofNat v.toInt.toNat) = true

/-- The section is there, and its integers are the numbers of different cpus that are set apart. -/
structure Valid (cfg : Document) : Prop where
  found : (cpuNode cfg).isSome
  nonempty : cpuEntries cfg ≠ []
  fits : ∀ e ∈ cpuEntries cfg, Fits platform e.2
  distinct : ((cpuEntries cfg).map Prod.snd).Nodup

/-- `parse` succeeds for the valid configurations, with the names and values of the section. -/
structure Exact (atPath : TomlNode → String → Option TomlNode) (cfg : Document) : Prop where
  succeeds : (∃ m, parse platform atPath cfg = .ok m) ↔ Valid platform cfg
  entries : ∀ m, parse platform atPath cfg = .ok m →
    m.entries.map (fun e => (e.1, (e.2.toNat : ℤ))) = (cpuEntries cfg).map fun e => (e.1, e.2.toInt)

/-- The value is one of an `unsigned`. -/
def InRange (v : Int64) : Prop := 0 ≤ v.toInt ∧ v.toInt < 2 ^ 32

variable {platform} {v v' : Int64}

theorem toUnsigned_toNat (h : InRange v) : ((toUnsigned v).toNat : ℤ) = v.toInt := by
  obtain ⟨hnonneg, hlt⟩ := h
  rw [toUnsigned, UInt64.toNat_toUInt32]
  change ((v.toBitVec.toNat % 2 ^ 32 : ℕ) : ℤ) = v.toBitVec.toInt
  change 0 ≤ v.toBitVec.toInt at hnonneg
  change v.toBitVec.toInt < 2 ^ 32 at hlt
  have hcond := BitVec.toInt_eq_toNat_cond v.toBitVec
  have hbound := v.toBitVec.isLt
  split_ifs at hcond <;> omega

theorem ofNat_toInt (h : InRange v) : UInt32.ofNat v.toInt.toNat = toUnsigned v := by
  rw [← toUnsigned_toNat h, Int.toNat_natCast, UInt32.ofNat_toNat]

theorem toUnsigned_inj (h : InRange v) (h' : InRange v') (heq : toUnsigned v = toUnsigned v') :
    v = v' := by
  rw [← Int64.toInt_inj, ← toUnsigned_toNat h, heq, toUnsigned_toNat h']

theorem Fits.inRange (h : Fits platform v) : InRange v :=
  ⟨h.nonneg, h.lt.trans (by exact_mod_cast platform.getTotalCpus.toNat_lt)⟩

theorem fits_iff (h : InRange v) : Fits platform v ↔ Passes platform (toUnsigned v) := by
  have hlt : v.toInt < platform.getTotalCpus.toNat ↔ toUnsigned v < platform.getTotalCpus := by
    rw [← toUnsigned_toNat h, Nat.cast_lt, UInt32.lt_iff_toNat_lt]
  have hof := ofNat_toInt h
  constructor
  · rintro ⟨-, hv, hiso, hnohz, hrcu⟩
    rw [hof] at hiso hnohz hrcu
    exact ⟨hlt.1 hv, hiso, hnohz, hrcu⟩
  · rintro ⟨hv, hiso, hnohz, hrcu⟩
    exact ⟨h.1, hlt.2 hv, by rwa [hof], by rwa [hof], by rwa [hof]⟩

theorem accepted_iff {vs : List Int64} (h : ∀ v ∈ vs, InRange v) :
    Accepted platform (vs.map toUnsigned) ↔ (∀ v ∈ vs, Fits platform v) ∧ vs.Nodup := by
  constructor
  · rintro ⟨hpasses, hnodup⟩
    exact ⟨fun v hv => (fits_iff (h v hv)).2 (hpasses _ (List.mem_map_of_mem hv)),
      hnodup.of_map toUnsigned⟩
  · rintro ⟨hfits, hnodup⟩
    refine ⟨fun id hid => ?_, hnodup.map_on fun v hv v' hv' => toUnsigned_inj (h v hv) (h v' hv')⟩
    obtain ⟨v, hv, rfl⟩ := List.mem_map.1 hid
    exact (fits_iff (h v hv)).1 (hfits v hv)

variable {cfg : Document} {atPath : TomlNode → String → Option TomlNode}

theorem Valid.inRange (h : Valid platform cfg) :
    ∀ v ∈ (cpuEntries cfg).map Prod.snd, InRange v := by
  intro v hv
  obtain ⟨e, he, rfl⟩ := List.mem_map.1 hv
  exact (h.fits e he).inRange

theorem valid_iff (h : ∀ v ∈ (cpuEntries cfg).map Prod.snd, InRange v) :
    Valid platform cfg ↔ (cpuNode cfg).isSome ∧ cpuEntries cfg ≠ [] ∧
      Accepted platform (loadedCpus cfg) := by
  rw [loadedCpus, accepted_iff h, List.forall_mem_map]
  exact ⟨fun ⟨hfound, hne, hfits, hnodup⟩ => ⟨hfound, hne, hfits, hnodup⟩,
    fun ⟨hfound, hne, hfits, hnodup⟩ => ⟨hfound, hne, hfits, hnodup⟩⟩

/-- If all integers fit into an `unsigned`, the checks are made on their values. -/
theorem exact_of_inRange (h : AtPath atPath)
    (hrange : ∀ v ∈ (cpuEntries cfg).map Prod.snd, InRange v) : Exact platform atPath cfg where
  succeeds := (exists_parse_iff h).trans (valid_iff hrange).symm
  entries m hm := by
    obtain ⟨-, -, rfl, -⟩ := (parse_ok h).1 hm
    rw [loaded, List.map_map]
    refine List.map_congr_left fun e he => ?_
    have hv := toUnsigned_toNat (hrange e.2 (List.mem_map_of_mem he))
    simp [hv]

/-- What the checks refuse was not valid. -/
theorem exact_of_not_accepted (h : AtPath atPath)
    (haccepted : ¬ Accepted platform (loadedCpus cfg)) : Exact platform atPath cfg where
  succeeds := iff_of_false (fun ⟨_, hm⟩ => haccepted ((parse_ok h).1 hm).2.2.2) fun hvalid =>
    haccepted ((valid_iff hvalid.inRange).1 hvalid).2.2
  entries _ hm := absurd ((parse_ok h).1 hm).2.2.2 haccepted

/-- `parse` is exact unless the integers of the section are accepted after a conversion that has
changed one of them. -/
theorem parse_exact_iff (h : AtPath atPath) (platform : Platform Id) (cfg : Document) :
    Exact platform atPath cfg ↔
      (∀ v ∈ (cpuEntries cfg).map Prod.snd, InRange v) ∨
        ¬ Accepted platform (loadedCpus cfg) := by
  constructor
  · intro hexact
    by_contra hor
    obtain ⟨hrange, haccepted⟩ := not_or.1 hor
    have hne : cpuEntries cfg ≠ [] := fun hnil => hrange (by simp [hnil])
    have hparse := (exists_parse_iff h).2 ⟨found_of_nonempty hne, hne, not_not.1 haccepted⟩
    exact hrange (hexact.succeeds.1 hparse).inRange
  · rintro (hrange | haccepted)
    · exact exact_of_inRange h hrange
    · exact exact_of_not_accepted h haccepted

/-- Sixteen cpus, all of them set apart. -/
def sixteen : Platform Id := ⟨16, fun _ => true, fun _ => true, fun _ => true⟩

/-- `[engine.cpu]` with a cpu for the logger. -/
def withLogger (alpha logger : Int64) : Document where
  entries := [("engine", .table [("cpu",
    .table [("alpha", .integer alpha), (loggerTask, .integer logger)])])]
  source := "nested.toml"
  ordered := by
    refine .table _ (List.pairwise_singleton _ _) fun e he => ?_
    rw [List.mem_singleton.1 he]
    refine .table _ (List.pairwise_singleton _ _) fun e he => ?_
    rw [List.mem_singleton.1 he]
    refine .table _ (List.pairwise_pair.2 (show "alpha" < "logger" by decide)) fun e he => ?_
    rcases List.mem_pair.1 he with rfl | rfl
    · exact .integer alpha
    · exact .integer logger

/-- Two cpus, and the same one twice. -/
theorem parse_exact_two : Exact sixteen dottedPath (withLogger 3 2) ∧
    parse sixteen dottedPath (withLogger 3 2) = .ok (loaded (withLogger 3 2)) ∧
    Exact sixteen dottedPath (withLogger 3 3) := by
  have hcpus : (cpuEntries (withLogger 3 2)).map Prod.snd = [3, 2] := by decide
  have hsame : (cpuEntries (withLogger 3 3)).map Prod.snd = [3, 3] := by decide
  have hrange : ∀ v : Int64, v = 3 ∨ v = 2 → InRange v := by
    rintro v (rfl | rfl) <;> exact ⟨by decide, by decide⟩
  have hexact : Exact sixteen dottedPath (withLogger 3 2) := by
    refine (parse_exact_iff atPath_dottedPath sixteen _).2 (.inl fun v hv => hrange v ?_)
    rw [hcpus] at hv
    simpa using hv
  have hvalid : Valid sixteen (withLogger 3 2) := by
    refine ⟨by decide, by decide, fun e he => ?_, by rw [hcpus]; decide⟩
    have hv : e.2 = 3 ∨ e.2 = 2 := by
      have hmem := List.mem_map_of_mem (f := Prod.snd) he
      rw [hcpus] at hmem
      simpa using hmem
    obtain ⟨hnonneg, -⟩ := hrange _ hv
    refine ⟨hnonneg, ?_, rfl, rfl, rfl⟩
    rcases hv with hv | hv <;> rw [hv] <;> decide
  obtain ⟨map, hmap⟩ := hexact.succeeds.2 hvalid
  obtain ⟨-, -, rfl, -⟩ := (parse_ok atPath_dottedPath).1 hmap
  refine ⟨hexact, hmap, (parse_exact_iff atPath_dottedPath sixteen _).2 (.inl fun v hv => ?_)⟩
  rw [hsame] at hv
  exact hrange v (.inl (by simpa using hv))

/-- 4294967301 is taken for the cpu 5. -/
theorem parse_truncates :
    AtPath dottedPath ∧
      parse sixteen dottedPath (nested 4294967301) = .ok (loaded (nested 4294967301)) ∧
      (loaded (nested 4294967301)).entries = [("alpha", 5)] ∧
      ¬ Exact sixteen dottedPath (nested 4294967301) := by
  have hentries : cpuEntries (nested 4294967301) = [("alpha", 4294967301)] := by decide
  have hloaded : (loaded (nested 4294967301)).entries = [("alpha", 5)] := by decide
  have hparse : parse sixteen dottedPath (nested 4294967301) =
      .ok (loaded (nested 4294967301)) := by
    refine (parse_ok atPath_dottedPath).2 ⟨by decide, by rw [hentries]; simp, rfl, ?_⟩
    rw [show loadedCpus (nested 4294967301) = [5] by decide]
    refine ⟨fun id hid => ?_, List.nodup_singleton _⟩
    rw [List.mem_singleton.1 hid]
    exact ⟨by decide, rfl, rfl, rfl⟩
  refine ⟨atPath_dottedPath, hparse, hloaded, fun hexact => ?_⟩
  have hvalid := hexact.succeeds.1 ⟨_, hparse⟩
  have hlt := (hvalid.fits ("alpha", 4294967301) (by rw [hentries]; simp)).lt
  exact absurd hlt (by decide)

end CpusConfig

end Ihft.Engine
