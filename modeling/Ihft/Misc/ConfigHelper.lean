import Ihft.Lib.OrderedMap
import Mathlib.Data.String.Basic

/-!
# The configuration

`config_helper` reads a document of the TOML library in two ways: `get_value` looks the section up
as one key, `exists` and `enumerate` hand it to `at_path`, which walks a dotted path.
-/

namespace Ihft.Misc

/-- A node of a document. -/
inductive TomlNode
  | boolean (value : Bool)
  | integer (value : Int64)
  | string (value : String)
  | floatingPoint (bits : UInt64)
  | date (value : String)
  | array (elements : List TomlNode)
  | table (entries : List (String × TomlNode))

namespace TomlNode

/-- Every table has its entries in the order of their keys, and no key twice. -/
inductive Ordered : TomlNode → Prop
  | boolean (value : Bool) : Ordered (.boolean value)
  | integer (value : Int64) : Ordered (.integer value)
  | string (value : String) : Ordered (.string value)
  | floatingPoint (bits : UInt64) : Ordered (.floatingPoint bits)
  | date (value : String) : Ordered (.date value)
  | array (elements : List TomlNode) (h : ∀ x ∈ elements, Ordered x) : Ordered (.array elements)
  | table (entries : List (String × TomlNode)) (sorted : entries.Pairwise fun a b => a.1 < b.1)
    (h : ∀ e ∈ entries, Ordered e.2) : Ordered (.table entries)

/-- `as<bool>`. -/
def asBoolean : TomlNode → Option Bool
  | .boolean value => some value
  | _ => none

/-- `as<std::int64_t>`. -/
def asInteger : TomlNode → Option Int64
  | .integer value => some value
  | _ => none

/-- `as<std::string>`. -/
def asString : TomlNode → Option String
  | .string value => some value
  | _ => none

/-- `as_table`. -/
def asTable : TomlNode → Option (List (String × TomlNode))
  | .table entries => some entries
  | _ => none

theorem asBoolean_eq_some (x : TomlNode) (v : Bool) : x.asBoolean = some v ↔ x = .boolean v := by
  cases x <;> simp [asBoolean]

theorem asInteger_eq_some (x : TomlNode) (v : Int64) : x.asInteger = some v ↔ x = .integer v := by
  cases x <;> simp [asInteger]

theorem asString_eq_some (x : TomlNode) (v : String) : x.asString = some v ↔ x = .string v := by
  cases x <;> simp [asString]

/-- A boolean, an integer or a string. -/
def isScalar : TomlNode → Bool
  | .boolean _ | .integer _ | .string _ => true
  | _ => false

/-- The entries of one type, if the node is a table. -/
def scalars {α : Type} (as : TomlNode → Option α) (node : Option TomlNode) : List (String × α) :=
  match node.bind asTable with
  | some entries => entries.filterMap fun e => (as e.2).map (e.1, ·)
  | none => []

/-- `operator[]` of a view: the entry for one key, if it is the view of a table. -/
def view (node : Option TomlNode) (key : String) : Option TomlNode :=
  (node.bind asTable).bind (List.lookup key)

/-- Go from table to table. -/
def walk (node : TomlNode) (keys : List String) : Option TomlNode := keys.foldl view (some node)

theorem Ordered.entries_sorted {node : TomlNode} {entries : List (String × TomlNode)}
    (h : node.Ordered) (htable : node.asTable = some entries) :
    entries.Pairwise fun a b => a.1 < b.1 := by
  cases h with
  | table entries' sorted _ =>
    cases htable
    exact sorted
  | _ => cases htable

theorem Ordered.scalars_sorted {α : Type} {as : TomlNode → Option α} {node : TomlNode}
    (h : node.Ordered) : (scalars as (some node)).Pairwise fun a b => a.1 < b.1 := by
  unfold scalars
  cases htable : node.asTable with
  | none => simp [htable]
  | some entries =>
    rw [Option.bind_some, htable, List.pairwise_filterMap]
    refine (h.entries_sorted htable).imp fun {e e'} hlt => ?_
    rintro f hf f' hf'
    obtain ⟨v, -, rfl⟩ := Option.map_eq_some_iff.1 hf
    obtain ⟨v', -, rfl⟩ := Option.map_eq_some_iff.1 hf'
    exact hlt

theorem Ordered.view {node node' : TomlNode} {key : String} (h : node.Ordered)
    (hview : view (some node) key = some node') : node'.Ordered := by
  cases h with
  | table entries sorted hentries =>
    obtain ⟨l, l', rfl, -⟩ := List.lookup_eq_some_iff.1 hview
    exact hentries (key, node') (by simp)
  | _ => cases hview

@[simp] theorem foldl_view_none (keys : List String) : keys.foldl TomlNode.view none = none := by
  induction keys with
  | nil => rfl
  | cons key keys ih => exact ih

/-- The first step of a walk. -/
theorem walk_cons (node : TomlNode) (key : String) (keys : List String) :
    node.walk (key :: keys) = (TomlNode.view (some node) key).bind fun next => next.walk keys := by
  rw [walk, List.foldl_cons]
  cases TomlNode.view (some node) key with
  | none => exact foldl_view_none keys
  | some next => rfl

theorem Ordered.walk {node node' : TomlNode} {keys : List String} (h : node.Ordered)
    (hwalk : node.walk keys = some node') : node'.Ordered := by
  induction keys generalizing node with
  | nil =>
    cases hwalk
    exact h
  | cons key keys ih =>
    rw [walk_cons, Option.bind_eq_some_iff] at hwalk
    obtain ⟨next, hview, hnext⟩ := hwalk
    exact ih (h.view hview) hnext

end TomlNode

/-- A document, with the file that it was read from. -/
structure Document where
  entries : List (String × TomlNode)
  source : String
  ordered : TomlNode.Ordered (.table entries)

def Document.root (config : Document) : TomlNode := .table config.entries

/-- The keys of a dotted path. -/
def pathKeys (path : String) : List String := (path.toList.splitOn '.').map String.ofList

/-- The path has no index of an array. -/
def NoIndex (path : String) : Prop := '[' ∉ path.toList ∧ ']' ∉ path.toList

/-- What is known of `at_path`: it walks a dotted path, and leads to nodes of the document. -/
structure AtPath (atPath : TomlNode → String → Option TomlNode) : Prop where
  walks : ∀ root path, NoIndex path → atPath root path = root.walk (pathKeys path)
  ordered : ∀ root path node, root.Ordered → atPath root path = some node → node.Ordered

namespace ConfigHelper

open TomlNode

section Interface

variable {α : Type} (atPath : TomlNode → String → Option TomlNode) (config : Document)

/-- `exists`. -/
def pathExists (path : String) : Bool := (atPath config.root path).isSome

/-- `get_value<T>`, where `as` is that of the type. -/
def getValue (as : TomlNode → Option α) (sect key : String) : Option α :=
  (view (view (some config.root) sect) key).bind as

/-- `enumerate<T>`, by the calls of the callback in their order. -/
def enumerate (as : TomlNode → Option α) (sect : String) : List (String × α) :=
  scalars as (atPath config.root sect)

def getBoolean (sect key : String) : Option Bool := getValue config asBoolean sect key

def getInteger (sect key : String) : Option Int64 := getValue config asInteger sect key

def getString (sect key : String) : Option String := getValue config asString sect key

def enumerateBoolean (sect : String) : List (String × Bool) := enumerate atPath config asBoolean sect

def enumerateInteger (sect : String) : List (String × Int64) :=
  enumerate atPath config asInteger sect

def enumerateString (sect : String) : List (String × String) := enumerate atPath config asString sect

end Interface

/-! ## Agreement -/

section Agreement

variable {α : Type} {atPath : TomlNode → String → Option TomlNode} {config : Document}
  {as : TomlNode → Option α} {sect key : String}

/-- An enumeration calls its callback with the entries of the table. -/
theorem mem_enumerate (h : AtPath atPath) {v : α} : (key, v) ∈ enumerate atPath config as sect ↔
    (view (atPath config.root sect) key).bind as = some v := by
  unfold enumerate scalars view
  cases hnode : atPath config.root sect with
  | none => simp
  | some node =>
    cases htable : node.asTable with
    | none => simp [htable]
    | some entries =>
      have hkeys : (entries.map Prod.fst).Nodup := by
        rw [List.Nodup, List.pairwise_map]
        exact ((h.ordered _ _ _ config.ordered hnode).entries_sorted htable).imp ne_of_lt
      simp only [Option.bind_some, htable, List.mem_filterMap, Option.map_eq_some_iff,
        Prod.mk.injEq, Option.bind_eq_some_iff, OrderedMap.lookup_eq_some hkeys]
      constructor
      · rintro ⟨⟨key', x⟩, hmem, v', has, rfl, rfl⟩
        exact ⟨x, hmem, has⟩
      · rintro ⟨x, hmem, has⟩
        exact ⟨(key, x), hmem, v, has, rfl, rfl⟩

/-- The two interfaces agree on the entry for the key. -/
structure Agrees (atPath : TomlNode → String → Option TomlNode) (config : Document)
    (sect key : String) : Prop where
  boolean : ∀ v, getBoolean config sect key = some v ↔ (key, v) ∈ enumerateBoolean atPath config sect
  integer : ∀ v, getInteger config sect key = some v ↔ (key, v) ∈ enumerateInteger atPath config sect
  string : ∀ v, getString config sect key = some v ↔ (key, v) ∈ enumerateString atPath config sect

/-- The nodes have the same boolean, integer or string under the key, if any. -/
def SameScalar (node node' : Option TomlNode) (key : String) : Prop :=
  ∀ x : TomlNode, x.isScalar → (view node key = some x ↔ view node' key = some x)

theorem agrees_iff_sameScalar (h : AtPath atPath) : Agrees atPath config sect key ↔
    SameScalar (view (some config.root) sect) (atPath config.root sect) key := by
  have hget {α : Type} {as : TomlNode → Option α} {con : α → TomlNode}
      (hcon : ∀ x v, as x = some v ↔ x = con v) (node : Option TomlNode) (v : α) :
      (view node key).bind as = some v ↔ view node key = some (con v) := by
    simp [Option.bind_eq_some_iff, hcon]
  have hboolean := hget asBoolean_eq_some
  have hinteger := hget asInteger_eq_some
  have hstring := hget asString_eq_some
  constructor
  · intro hagrees x hx
    cases x with
    | boolean v => simpa [enumerateBoolean, getBoolean, getValue, mem_enumerate h, hboolean]
        using hagrees.boolean v
    | integer v => simpa [enumerateInteger, getInteger, getValue, mem_enumerate h, hinteger]
        using hagrees.integer v
    | string v => simpa [enumerateString, getString, getValue, mem_enumerate h, hstring]
        using hagrees.string v
    | _ => exact absurd hx Bool.false_ne_true
  · intro hsame
    refine ⟨fun v => ?_, fun v => ?_, fun v => ?_⟩
    · simpa [enumerateBoolean, getBoolean, getValue, mem_enumerate h, hboolean]
        using hsame (.boolean v) rfl
    · simpa [enumerateInteger, getInteger, getValue, mem_enumerate h, hinteger]
        using hsame (.integer v) rfl
    · simpa [enumerateString, getString, getValue, mem_enumerate h, hstring]
        using hsame (.string v) rfl

/-- A path without a dot is one key. -/
theorem pathKeys_of_notMem (h : '.' ∉ sect.toList) : pathKeys sect = [sect] := by
  rw [pathKeys, List.splitOn_eq_singleton h, List.map_singleton, String.ofList_toList]

/-- The first key of a path with a dot is not the path. -/
theorem pathKeys_of_mem (h : '.' ∈ sect.toList) :
    ∃ k keys, pathKeys sect = k :: keys ∧ k ≠ sect := by
  obtain ⟨l, l', hl, hnot⟩ := List.eq_append_cons_of_mem h
  refine ⟨String.ofList l, (l'.splitOn '.').map String.ofList, ?_, fun heq => hnot ?_⟩
  · rw [pathKeys, hl, List.splitOn_append_cons_self_of_not_mem hnot, List.map_cons]
  · rwa [← heq, String.toList_ofList] at h

/-- The keys of a dotted path, one after the other. -/
def dottedPath (root : TomlNode) (path : String) : Option TomlNode := root.walk (pathKeys path)

theorem atPath_dottedPath : AtPath dottedPath :=
  ⟨fun _ _ _ => rfl, fun _ _ _ => Ordered.walk⟩

/-- A document with one entry, in a table under the section as one key. -/
def quoted (sect key : String) (value : Int64) : Document where
  entries := [(sect, .table [(key, .integer value)])]
  source := ""
  ordered := by
    refine .table _ (List.pairwise_singleton _ _) fun e he => ?_
    rw [List.mem_singleton.1 he]
    refine .table _ (List.pairwise_singleton _ _) fun e he => ?_
    rw [List.mem_singleton.1 he]
    exact .integer value

end Agreement

variable {atPath : TomlNode → String → Option TomlNode}

/-- The interfaces agree on a key exactly if the section as one key and the section as a path lead
to the same value for it.  The sections with which they agree in all documents are those without a
dot. -/
theorem lookup_agrees_iff (h : AtPath atPath) (sect : String) :
    (∀ config key, Agrees atPath config sect key ↔
      SameScalar (view (some config.root) sect) (atPath config.root sect) key) ∧
    (NoIndex sect → ∀ config key, Agrees atPath config sect key ↔
      SameScalar (view (some config.root) sect) (config.root.walk (pathKeys sect)) key) ∧
    (NoIndex sect → ((∀ config key, Agrees atPath config sect key) ↔ '.' ∉ sect.toList)) := by
  refine ⟨fun config key => agrees_iff_sameScalar h, fun hindex config key => ?_,
    fun hindex => ⟨fun hagrees hdot => ?_, fun hdot config key => ?_⟩⟩
  · rw [agrees_iff_sameScalar h, h.walks _ _ hindex]
  · obtain ⟨k, keys, hkeys, hne⟩ := pathKeys_of_mem hdot
    have hsame := (agrees_iff_sameScalar h).1 (hagrees (quoted sect "" 0) "") (.integer 0) rfl
    have hnone : view (some (quoted sect "" 0).root) k = none := by
      simp [Document.root, quoted, view, asTable, hne]
    rw [h.walks _ _ hindex, hkeys, walk_cons, hnone] at hsame
    exact absurd (hsame.1 (by simp [Document.root, quoted, view, asTable])) (by simp [view])
  · rw [agrees_iff_sameScalar h, h.walks _ _ hindex, pathKeys_of_notMem hdot, walk_cons]
    intro x _
    simp [walk]

/-- A section with one integer, read both ways. -/
theorem lookup_agrees_cpu :
    (∀ config key, Agrees dottedPath config "cpu" key ↔
      SameScalar (view (some config.root) "cpu") (dottedPath config.root "cpu") key) ∧
    ∀ config key, Agrees dottedPath config "cpu" key := by
  obtain ⟨hsame, -, hdot⟩ := lookup_agrees_iff atPath_dottedPath "cpu"
  exact ⟨hsame, (hdot ⟨by decide, by decide⟩).2 (by decide)⟩

/-- `[engine.cpu]` with one integer. -/
def nested (value : Int64) : Document where
  entries := [("engine", .table [("cpu", .table [("alpha", .integer value)])])]
  source := "nested.toml"
  ordered := by
    refine .table _ (List.pairwise_singleton _ _) fun e he => ?_
    rw [List.mem_singleton.1 he]
    refine .table _ (List.pairwise_singleton _ _) fun e he => ?_
    rw [List.mem_singleton.1 he]
    refine .table _ (List.pairwise_singleton _ _) fun e he => ?_
    rw [List.mem_singleton.1 he]
    exact .integer value

/-- A table under a dotted path is there, and has an integer that cannot be looked up. -/
theorem nested_disagrees :
    AtPath dottedPath ∧ pathExists dottedPath (nested 7) "engine.cpu" = true ∧
      getInteger (nested 7) "engine.cpu" "alpha" = none ∧
      enumerateInteger dottedPath (nested 7) "engine.cpu" = [("alpha", 7)] ∧
      ¬ Agrees dottedPath (nested 7) "engine.cpu" "alpha" := by
  have hget : getInteger (nested 7) "engine.cpu" "alpha" = none := by decide
  have henum : enumerateInteger dottedPath (nested 7) "engine.cpu" = [("alpha", 7)] := by decide
  refine ⟨atPath_dottedPath, by decide, hget, henum, fun hagrees => ?_⟩
  have hsome := (hagrees.integer 7).2 (by rw [henum]; exact List.mem_singleton_self _)
  rw [hget] at hsome
  exact absurd hsome (by simp)

end ConfigHelper

end Ihft.Misc
