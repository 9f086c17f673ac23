import Ihft.Lib.Lines
import Ihft.Platform.Cmdline

/-!
# What the platform knows of the system

`platform::trait` reads the files of the kernel: whether hyper threading, the swap and the
transparent huge pages are active, which governor scales the cpus, and how many huge pages there
are.  A file that cannot be opened is read as an empty one.
-/

namespace Ihft.Platform

open Lines

/-! ## The files -/

/-- `std::ifstream`: the characters of the file, if it is open. -/
abbrev File := Option (List Char)

def File.contents (file : File) : List Char := file.getD []

/-- `file >> value`. -/
def File.value (file : File) : List Char := (tokens file.contents).head?.getD []

/-- The files of the kernel.  The last one is the directory `cpufreq`, with the paths that are
below it. -/
structure SystemFiles where
  meminfo : File
  smtActive : File
  swaps : File
  transparentHugepage : File
  cpufreq : Option (List (List Char × File))

variable (files : SystemFiles)

def isHyperThreadingActive : Bool := files.smtActive.value ≠ "0".toList

def isSwapActive : Bool := (lines files.swaps.contents).length ≠ 1

def isTransparentHugepagesActive : Bool :=
  (tokens files.transparentHugepage.contents).foldl
    (fun active value => if "[never]".toList = value then false else active)
    files.transparentHugepage.isSome

/-- `str.ends_with("/scaling_governor")`. -/
def isGovernor (entry : List Char × File) : Bool := "/scaling_governor".toList <:+ entry.1

def isScalingGovernorUsePerformanceMode : Bool :=
  match files.cpufreq with
  | none => true
  | some entries =>
    let (totalCpus, totalPerformance) := entries.foldl
      (fun totals entry =>
        if isGovernor entry then
          (totals.1 + 1, if "performance".toList = entry.2.value then totals.2 + 1 else totals.2)
        else totals)
      (0, 0)
    0 < totalCpus ∧ totalCpus = totalPerformance

/-! ## What the answers mean -/

variable {files}

theorem isHyperThreadingActive_eq_false :
    isHyperThreadingActive files = false ↔
      (tokens files.smtActive.contents).head? = some ['0'] := by
  have hne : ∀ token : Option (List Char), token.getD [] = ['0'] ↔ token = some ['0'] := by
    intro token
    cases token <;> simp
  rw [isHyperThreadingActive, decide_eq_false_iff_not, not_not]
  exact hne _

theorem isSwapActive_eq_false :
    isSwapActive files = false ↔ ∃ header, lines files.swaps.contents = [header] := by
  rw [isSwapActive, decide_eq_false_iff_not, not_not, List.length_eq_one_iff]

/-- A flag that one of the values clears. -/
theorem foldl_clear {α : Type*} (p : α → Prop) [DecidablePred p] (values : List α) (active : Bool) :
    values.foldl (fun active value => if p value then false else active) active = false ↔
      active = false ∨ ∃ value ∈ values, p value := by
  induction values generalizing active with
  | nil => simp
  | cons value values ih =>
    rw [List.foldl_cons, ih, List.exists_mem_cons_iff]
    by_cases h : p value
    · simp [h]
    · simp [h]

theorem isTransparentHugepagesActive_eq_false :
    isTransparentHugepagesActive files = false ↔ files.transparentHugepage = none ∨
      "[never]".toList ∈ tokens files.transparentHugepage.contents := by
  rw [isTransparentHugepagesActive, foldl_clear ("[never]".toList = ·), Option.isSome_eq_false_iff,
    Option.isNone_iff_eq_none, exists_eq_right']

/-- Two counters, of the values and of those among them that are good. -/
theorem foldl_count {α : Type*} (p q : α → Prop) [DecidablePred p] [DecidablePred q]
    (values : List α) (totals : ℕ × ℕ) :
    values.foldl
      (fun totals value =>
        if p value then (totals.1 + 1, if q value then totals.2 + 1 else totals.2) else totals)
      totals =
    (totals.1 + (values.filter (p ·)).length,
      totals.2 + (values.filter (p ·)).countP (q ·)) := by
  induction values generalizing totals with
  | nil => rfl
  | cons value values ih =>
    rw [List.foldl_cons, ih]
    by_cases hp : p value
    · by_cases hq : q value
      · simp [hp, hq, Nat.add_assoc, Nat.add_comm 1]
      · simp [hp, hq, Nat.add_assoc, Nat.add_comm 1]
    · simp [hp]

theorem isScalingGovernorUsePerformanceMode_iff :
    isScalingGovernorUsePerformanceMode files ↔
      ∀ entries, files.cpufreq = some entries → (∃ entry ∈ entries, isGovernor entry) ∧
        ∀ entry ∈ entries, isGovernor entry → "performance".toList = entry.2.value := by
  rw [isScalingGovernorUsePerformanceMode]
  cases hentries : files.cpufreq with
  | none => simp
  | some entries =>
    have hcount := foldl_count (fun entry => isGovernor entry = true)
      (fun entry : List Char × File => "performance".toList = entry.2.value) entries (0, 0)
    simp only [hcount, zero_add, decide_eq_true_eq, Option.some.injEq, forall_eq']
    rw [List.length_pos_iff_exists_mem, eq_comm, List.countP_eq_length]
    simp only [List.mem_filter, decide_eq_true_eq, and_imp]

/-! ## Huge pages -/

def hugepagesizeMark : List Char := "Hugepagesize:".toList

def hugePagesTotalMark : List Char := "HugePages_Total:".toList

/-- The number behind the mark; `from_chars` leaves the value as it is when there is none, or when
it is too large. -/
def readValue (mark buffer : List Char) (value : Unsigned) : Unsigned :=
  match fromChars ((buffer.drop mark.length).dropWhile (· == ' ')) with
  | .ok value _ => value
  | _ => value

/-- What one line does to `total` and `hpsize`. -/
def readLine (info : Unsigned × Unsigned) (buffer : List Char) : Unsigned × Unsigned :=
  if hugepagesizeMark <+: buffer then (info.1, readValue hugepagesizeMark buffer info.2)
  else if hugePagesTotalMark <+: buffer then (readValue hugePagesTotalMark buffer info.1, info.2)
  else info

def getHpInfoImpl (files : SystemFiles) : Unsigned × Unsigned :=
  (lines files.meminfo.contents).foldl readLine (0, 0)

def total1gbHugepages (files : SystemFiles) : Unsigned :=
  let (total, hpsize) := getHpInfoImpl files
  if hpsize = 1048576 then total else 0

def total2mbHugepages (files : SystemFiles) : Unsigned :=
  let (total, hpsize) := getHpInfoImpl files
  if hpsize = 2048 then total else 0

/-- A line of the kernel: a name, a colon, some blanks, a number, and perhaps its unit. -/
structure MemField where
  name : List Char
  width : ℕ
  value : ℕ
  unit : List Char
  noColon : ':' ∉ name
  noDigit : NoDigit unit
  noNewline : '\n' ∉ name ++ unit

namespace MemField

def render (field : MemField) : List Char :=
  field.name ++ ':' ::
    (List.replicate field.width ' ' ++ (Nat.toDigits 10 field.value ++ field.unit))

theorem newline_notMem_render (field : MemField) : '\n' ∉ field.render := by
  have hdigits : '\n' ∉ Nat.toDigits 10 field.value := fun hmem => by
    have hdigit := Nat.isDigit_of_mem_toDigits (b := 10) (by decide) (by decide) hmem
    revert hdigit
    decide
  have hblanks : '\n' ∉ List.replicate field.width ' ' := fun hmem =>
    absurd (List.eq_of_mem_replicate hmem) (by decide)
  have hnot := field.noNewline
  rw [List.mem_append, not_or] at hnot
  simp [render, hdigits, hblanks, hnot]

end MemField

/-- Text up to a colon is the same when it begins a text that has its first colon there. -/
theorem isPrefix_colon_iff {name name' rest : List Char} (h : ':' ∉ name) (h' : ':' ∉ name') :
    name' ++ [':'] <+: name ++ ':' :: rest ↔ name = name' := by
  constructor
  · intro hprefix
    induction name' generalizing name with
    | nil =>
      cases name with
      | nil => rfl
      | cons c name =>
        obtain ⟨hc, -⟩ := List.cons_prefix_cons.1 hprefix
        exact absurd (hc ▸ List.mem_cons_self) h
    | cons c' name' ih =>
      rw [List.mem_cons, not_or] at h'
      cases name with
      | nil =>
        obtain ⟨hc, -⟩ := List.cons_prefix_cons.1 hprefix
        exact absurd hc.symm h'.1
      | cons c name =>
        rw [List.mem_cons, not_or] at h
        obtain ⟨rfl, hrest⟩ := List.cons_prefix_cons.1 hprefix
        rw [ih h.2 h'.2 hrest]
  · rintro rfl
    exact ⟨rest, by simp⟩

theorem fromChars_digits (n : ℕ) {rest : List Char} (hrest : NoDigit rest) :
    fromChars (Nat.toDigits 10 n ++ rest) =
      if n < 2 ^ 32 then .ok (BitVec.ofNat 32 n) rest else .resultOutOfRange rest := by
  have hdigits : ∀ c ∈ Nat.toDigits 10 n, c.isDigit = true := fun c hc =>
    Nat.isDigit_of_mem_toDigits (by decide) (by decide) hc
  unfold fromChars
  simp only [takeWhile_isDigit hdigits hrest, dropWhile_isDigit hdigits hrest,
    Nat.ofDigitChars_ten_toDigits, Nat.toDigits_ne_nil, if_false]

/-- The number of a line that was written down is read, if it fits. -/
theorem readValue_render (field : MemField) (value : Unsigned) :
    readValue (field.name ++ [':']) field.render value =
      if field.value < 2 ^ 32 then BitVec.ofNat 32 field.value else value := by
  have hblanks : ∀ c ∈ List.replicate field.width ' ', (c == ' ') = true := fun c hc => by
    rw [List.eq_of_mem_replicate hc, beq_self_eq_true]
  have hdigits : (Nat.toDigits 10 field.value ++ field.unit).dropWhile (· == ' ') =
      Nat.toDigits 10 field.value ++ field.unit := by
    obtain ⟨c, digits, hcons⟩ := List.exists_cons_of_ne_nil (Nat.toDigits_ne_nil (n := field.value)
      (b := 10))
    have hdigit : c.isDigit := Nat.isDigit_of_mem_toDigits (b := 10) (n := field.value) (by decide)
      (by decide) (hcons ▸ List.mem_cons_self)
    rw [hcons, List.cons_append, List.dropWhile_cons_of_neg]
    intro heq
    rw [beq_iff_eq.1 heq] at hdigit
    exact absurd hdigit (by decide)
  have hdrop : (field.render.drop (field.name ++ [':']).length).dropWhile (· == ' ') =
      Nat.toDigits 10 field.value ++ field.unit := by
    have hsplit : field.render = (field.name ++ [':']) ++
        (List.replicate field.width ' ' ++ (Nat.toDigits 10 field.value ++ field.unit)) := by
      simp [MemField.render]
    rw [hsplit, List.drop_left, List.dropWhile_append_of_pos hblanks, hdigits]
  rw [readValue, hdrop, fromChars_digits _ field.noDigit]
  by_cases hlt : field.value < 2 ^ 32
  · rw [if_pos hlt, if_pos hlt]
  · rw [if_neg hlt, if_neg hlt]

/-- The number of the last line under a name that has one in range. -/
def reported (fields : List MemField) (name : List Char) : ℕ :=
  ((fields.filter fun field => field.name = name ∧ field.value < 2 ^ 32).getLast?.map
    MemField.value).getD 0

theorem reported_append (fields : List MemField) (field : MemField) (name : List Char) :
    reported (fields ++ [field]) name =
      if field.name = name ∧ field.value < 2 ^ 32 then field.value else reported fields name := by
  unfold reported
  rw [List.filter_append, List.filter_singleton]
  by_cases h : field.name = name ∧ field.value < 2 ^ 32
  · rw [if_pos h, decide_eq_true h, cond_true, List.getLast?_concat]
    rfl
  · rw [if_neg h, decide_eq_false h, cond_false, List.append_nil]

/-- The value under a mark, after one line. -/
def marked (name : List Char) (field : MemField) (value : Unsigned) : Unsigned :=
  if field.name = name ∧ field.value < 2 ^ 32 then BitVec.ofNat 32 field.value else value

theorem marked_of_eq {name : List Char} {field : MemField} (h : field.name = name)
    (value : Unsigned) :
    readValue (name ++ [':']) field.render value = marked name field value := by
  subst h
  rw [readValue_render, marked]
  simp only [true_and]

theorem marked_of_ne {name : List Char} {field : MemField} (h : field.name ≠ name)
    (value : Unsigned) : marked name field value = value := if_neg fun hboth => h hboth.1

/-- What one rendered line does. -/
theorem readLine_render (field : MemField) (info : Unsigned × Unsigned) :
    readLine info field.render = (marked "HugePages_Total".toList field info.1,
      marked "Hugepagesize".toList field info.2) := by
  have hsize : hugepagesizeMark <+: field.render ↔ field.name = "Hugepagesize".toList :=
    @isPrefix_colon_iff field.name "Hugepagesize".toList _ field.noColon (by decide)
  have htotal : hugePagesTotalMark <+: field.render ↔ field.name = "HugePages_Total".toList :=
    @isPrefix_colon_iff field.name "HugePages_Total".toList _ field.noColon (by decide)
  have hne : "Hugepagesize".toList ≠ "HugePages_Total".toList := by decide
  rw [readLine]
  by_cases hname : field.name = "Hugepagesize".toList
  · rw [if_pos (hsize.2 hname), ← marked_of_eq hname,
      marked_of_ne fun h => hne (hname.symm.trans h)]
    rfl
  · rw [if_neg fun h => hname (hsize.1 h), marked_of_ne hname]
    by_cases hname' : field.name = "HugePages_Total".toList
    · rw [if_pos (htotal.2 hname'), ← marked_of_eq hname']
      rfl
    · rw [if_neg fun h => hname' (htotal.1 h), marked_of_ne hname']

theorem toNat_marked {name : List Char} {fields : List MemField} {field : MemField}
    {value : Unsigned} (h : value.toNat = reported fields name) :
    (marked name field value).toNat = reported (fields ++ [field]) name := by
  rw [marked, reported_append]
  by_cases hname : field.name = name ∧ field.value < 2 ^ 32
  · rw [if_pos hname, if_pos hname, BitVec.toNat_ofNat, Nat.mod_eq_of_lt hname.2]
  · rw [if_neg hname, if_neg hname, h]

/-- A file that was written down is read back, line by line. -/
theorem foldl_readLine (fields : List MemField) :
    ((fields.map MemField.render).foldl readLine (0, 0)).1.toNat =
      reported fields "HugePages_Total".toList ∧
    ((fields.map MemField.render).foldl readLine (0, 0)).2.toNat =
      reported fields "Hugepagesize".toList := by
  induction fields using List.reverseRecOn with
  | nil => exact ⟨rfl, rfl⟩
  | append_singleton fields field ih =>
    rw [List.map_append, List.foldl_append, List.map_singleton, List.foldl_cons, List.foldl_nil,
      readLine_render]
    exact ⟨toNat_marked ih.1, toNat_marked ih.2⟩

/-- The file with the lines. -/
def renderMeminfo (fields : List MemField) : List Char := unlines (fields.map MemField.render)

/-- Of a file that the kernel has written, the number of huge pages counts for the one size that the
file gives; the last line under a name counts, and a number that is no `unsigned` does not. -/
theorem hugepages_render (files : SystemFiles) (fields : List MemField) :
    (total1gbHugepages { files with meminfo := some (renderMeminfo fields) }).toNat =
      (if reported fields "Hugepagesize".toList = 1048576 then
        reported fields "HugePages_Total".toList else 0) ∧
    (total2mbHugepages { files with meminfo := some (renderMeminfo fields) }).toNat =
      (if reported fields "Hugepagesize".toList = 2048 then
        reported fields "HugePages_Total".toList else 0) := by
  have hlines : lines (renderMeminfo fields) = fields.map MemField.render := by
    apply lines_unlines
    simp only [List.mem_map, forall_exists_index, and_imp, forall_apply_eq_imp_iff₂]
    exact fun field _ => field.newline_notMem_render
  obtain ⟨htotal, hsize⟩ := foldl_readLine fields
  have hinfo : getHpInfoImpl { files with meminfo := some (renderMeminfo fields) } =
      (fields.map MemField.render).foldl readLine (0, 0) := by rw [← hlines]; rfl
  have hchoose : ∀ size : Unsigned,
      (if ((fields.map MemField.render).foldl readLine (0, 0)).2 = size then
        ((fields.map MemField.render).foldl readLine (0, 0)).1 else 0).toNat =
      if reported fields "Hugepagesize".toList = size.toNat then
        reported fields "HugePages_Total".toList else 0 := by
    intro size
    rw [← hsize, ← htotal]
    by_cases hsame : ((fields.map MemField.render).foldl readLine (0, 0)).2 = size
    · rw [if_pos hsame, if_pos (congrArg BitVec.toNat hsame)]
    · rw [if_neg hsame, if_neg fun heq => hsame (BitVec.toNat_inj.1 heq)]
      rfl
  rw [total1gbHugepages, total2mbHugepages, hinfo]
  exact ⟨hchoose 1048576, hchoose 2048⟩

end Ihft.Platform
