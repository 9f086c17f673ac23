import Ihft.Platform.ProcessCpuList

/-!
# Cpu lists

What `process_cpu_list` makes of a list that was written down (`processCpuList_render`), when it
comes to its end, and what becomes of a list that is put behind another one.

An item that is a number followed by something else than a dash ends the whole loop, and a range
followed by something else counts as a range.
-/

namespace Ihft.Platform

/-! ## Reading numbers -/

/-- The text does not go on with a digit. -/
def NoDigit (s : List Char) : Prop := ∀ c ∈ s.head?, c.isDigit = false

theorem takeWhile_isDigit {digits rest : List Char} (h : ∀ c ∈ digits, c.isDigit = true)
    (hrest : NoDigit rest) : (digits ++ rest).takeWhile Char.isDigit = digits := by
  rw [List.takeWhile_append_of_pos h]
  cases rest with
  | nil => simp
  | cons c rest =>
    rw [List.takeWhile_cons_of_neg (by simp [hrest c rfl]), List.append_nil]

theorem dropWhile_isDigit {digits rest : List Char} (h : ∀ c ∈ digits, c.isDigit = true)
    (hrest : NoDigit rest) : (digits ++ rest).dropWhile Char.isDigit = rest := by
  rw [List.dropWhile_append_of_pos h]
  cases rest with
  | nil => rfl
  | cons c rest => rw [List.dropWhile_cons_of_neg (by simp [hrest c rfl])]

/-- The decimal digits of a number are read back. -/
theorem fromChars_toDigits (cpu : Unsigned) {rest : List Char} (hrest : NoDigit rest) :
    fromChars (Nat.toDigits 10 cpu.toNat ++ rest) = .ok cpu rest := by
  have hdigits : ∀ c ∈ Nat.toDigits 10 cpu.toNat, c.isDigit = true := fun c hc =>
    Nat.isDigit_of_mem_toDigits (by decide) (by decide) hc
  unfold fromChars
  simp only [takeWhile_isDigit hdigits hrest, dropWhile_isDigit hdigits hrest,
    Nat.ofDigitChars_ten_toDigits, Nat.toDigits_ne_nil, if_false, if_pos cpu.isLt,
    BitVec.ofNat_toNat, BitVec.setWidth_eq]

theorem fromChars_of_noDigit {s : List Char} (h : NoDigit s) : fromChars s = .invalidArgument := by
  have hdigits : s.takeWhile Char.isDigit = [] := by
    have hnil := @takeWhile_isDigit [] s (fun c hc => absurd hc List.not_mem_nil) h
    simpa using hnil
  unfold fromChars
  simp only [hdigits, if_true]

/-! ## Lists that were written down -/

/-- An item of a list: a cpu, a range of cpus, or a flag of `isolcpus`. -/
inductive CpuItem
  | single (cpu : Unsigned)
  | range (first last : Unsigned) (ordered : first ≤ last) (small : last ≠ BitVec.allOnes 32)
  | flag (word : List Char) (noDigit : NoDigit word) (noComma : ',' ∉ word)

namespace CpuItem

def render : CpuItem → List Char
  | single cpu => Nat.toDigits 10 cpu.toNat
  | range first last _ _ => Nat.toDigits 10 first.toNat ++ '-' :: Nat.toDigits 10 last.toNat
  | flag word _ _ => word

/-- The cpus of the item. -/
def expansion : CpuItem → List Unsigned
  | single cpu => [cpu]
  | range first last _ _ => rangeCalls first last
  | flag _ _ _ => []

theorem comma_notMem_toDigits (n : ℕ) : ',' ∉ Nat.toDigits 10 n := by
  intro hmem
  have hdigit := Nat.isDigit_of_mem_toDigits (by decide) (by decide) hmem
  revert hdigit
  decide

theorem comma_notMem_render (item : CpuItem) : ',' ∉ item.render := by
  cases item with
  | single cpu => exact comma_notMem_toDigits _
  | range first last ordered small =>
    simp [render, comma_notMem_toDigits]
  | flag word noDigit noComma => exact noComma

theorem reaction_render (item : CpuItem) : reaction item.render =
    match item with
    | single cpu => .cpu cpu
    | range first last _ _ => .range first last
    | flag _ _ _ => .skip := by
  have hnil : NoDigit [] := fun c hc => absurd hc (by simp)
  cases item with
  | single cpu =>
    have hread := fromChars_toDigits cpu hnil
    rw [List.append_nil] at hread
    simp only [render, reaction, hread]
  | range first last ordered small =>
    have hdash : NoDigit ('-' :: Nat.toDigits 10 last.toNat) := by
      rintro c hc
      obtain rfl : '-' = c := by simpa using hc
      decide
    have hread := fromChars_toDigits last hnil
    rw [List.append_nil] at hread
    simp only [render, reaction, fromChars_toDigits first hdash, hread]
    rfl
  | flag word noDigit noComma =>
    simp only [render, reaction, fromChars_of_noDigit noDigit]

end CpuItem

/-- The items with commas between them. -/
def renderList (items : List CpuItem) : List Char := [','].intercalate (items.map CpuItem.render)

theorem splitOn_renderList (items : List CpuItem) (h : items ≠ []) :
    (renderList items).splitOn ',' = items.map CpuItem.render := by
  apply List.splitOn_intercalate
  · intro word hword
    obtain ⟨item, -, rfl⟩ := List.mem_map.1 hword
    exact item.comma_notMem_render
  · simpa using h

theorem CpuItem.reaction_ne_stop (item : CpuItem) : reaction item.render ≠ .stop := by
  rw [item.reaction_render]
  cases item <;> simp

theorem CpuItem.calls_render (item : CpuItem) : (reaction item.render).calls = item.expansion := by
  rw [item.reaction_render]
  cases item <;> rfl

theorem reached_render (items : List CpuItem) :
    reached (items.map CpuItem.render) = items.map CpuItem.render := by
  induction items with
  | nil => rfl
  | cons item items ih => rw [List.map_cons, reached_cons item.reaction_ne_stop, ih]

theorem callsOf_render (items : List CpuItem) :
    callsOf (items.map CpuItem.render) = items.flatMap CpuItem.expansion := by
  rw [callsOf, reached_render, List.flatMap_map]
  congr 1
  funext item
  exact item.calls_render

theorem allFinite_renderList (items : List CpuItem) : AllFinite (renderList items) := by
  cases items with
  | nil =>
    exact fun item hitem => by simp_all [renderList, reached, Reaction.Finite, reaction, fromChars]
  | cons first items =>
    rw [AllFinite, splitOn_renderList _ (List.cons_ne_nil first items), reached_render]
    intro word hword
    obtain ⟨item, -, rfl⟩ := List.mem_map.1 hword
    rw [item.reaction_render]
    cases item with
    | range first last ordered small => exact small
    | single cpu | flag word noDigit noComma => trivial

theorem callsOf_renderList (items : List CpuItem) :
    callsOf ((renderList items).splitOn ',') = items.flatMap CpuItem.expansion := by
  cases items with
  | nil => rfl
  | cons first items =>
    rw [splitOn_renderList _ (List.cons_ne_nil first items), callsOf_render]

/-- On a list that was written down the functor is called for the cpus of the items, in order; this
holds of every functor, also of one that throws. -/
theorem processCpuList_render (items : List CpuItem) :
    Calls (renderList items) (items.flatMap CpuItem.expansion) ∧
      ∃ enough, ∀ (ε σ : Type) (functor : σ → Unsigned → ExceptT ε Option σ) (s : σ),
        ∀ fuel ≥ enough, processCpuList functor fuel (renderList items) s =
          (items.flatMap CpuItem.expansion).foldlM functor s := by
  have hfinite := allFinite_renderList items
  refine ⟨calls_iff.2 ⟨hfinite, (callsOf_renderList items).symm⟩,
    2 ^ 32 + ((renderList items).splitOn ',').length + 1, ?_⟩
  intro ε σ functor s fuel hfuel
  rw [← callsOf_renderList]
  exact processCpuList_eq_foldlM functor hfinite fuel hfuel s

example : renderList [.range 8 11 (by decide) (by decide), .single 17] = "8-11,17".toList := by
  decide

/-! ## Lists behind each other -/

/-- An item of the two kinds that the header of `process_cpu_list` names. -/
def WellFormed (item : List Char) : Prop :=
  (∃ cpu, fromChars item = .ok cpu []) ∨
    ∃ first p last, fromChars item = .ok first ('-' :: p) ∧ fromChars p = .ok last []

/-- A range of cpus that something follows. -/
def TrailedRange (item : List Char) : Prop :=
  ∃ first p last rest, fromChars item = .ok first ('-' :: p) ∧ fromChars p = .ok last rest ∧
    rest ≠ [] ∧ first ≤ last

/-- A number that something else than a dash follows. -/
def TrailedCpu (item : List Char) : Prop :=
  ∃ cpu c p, fromChars item = .ok cpu (c :: p) ∧ c ≠ '-'

/-- The item lists a cpu. -/
def Lists (item : List Char) : Prop :=
  (∃ cpu, fromChars item = .ok cpu []) ∨
    ∃ first p last rest, fromChars item = .ok first ('-' :: p) ∧ fromChars p = .ok last rest ∧
      first ≤ last

section Items

variable {item : List Char}

theorem reaction_of_cpu {cpu : Unsigned} (h : fromChars item = .ok cpu []) :
    reaction item = .cpu cpu := by
  simp only [reaction, h]

theorem reaction_of_trailedCpu {cpu : Unsigned} {c : Char} {p : List Char}
    (h : fromChars item = .ok cpu (c :: p)) (hc : c ≠ '-') : reaction item = .stop := by
  simp only [reaction, h, if_pos hc.symm]

theorem reaction_of_range {first last : Unsigned} {p rest : List Char}
    (h : fromChars item = .ok first ('-' :: p)) (hp : fromChars p = .ok last rest) :
    reaction item = .range first last := by
  simp only [reaction, h, hp, ne_eq, not_true_eq_false, if_false]

/-- What was read of an item, by what the loop does at it. -/
theorem reaction_cases (item : List Char) :
    (∃ cpu, fromChars item = .ok cpu [] ∧ reaction item = .cpu cpu) ∨
    (∃ cpu c p, fromChars item = .ok cpu (c :: p) ∧ c ≠ '-' ∧ reaction item = .stop) ∨
    (∃ first p last rest, fromChars item = .ok first ('-' :: p) ∧ fromChars p = .ok last rest ∧
      reaction item = .range first last) ∨
    ((∀ cpu rest, fromChars item = .ok cpu rest →
      ∃ p, rest = '-' :: p ∧ ∀ last q, fromChars p ≠ .ok last q) ∧ reaction item = .skip) := by
  cases hitem : fromChars item with
  | invalidArgument => exact .inr (.inr (.inr ⟨by simp, by simp only [reaction, hitem]⟩))
  | resultOutOfRange rest => exact .inr (.inr (.inr ⟨by simp, by simp only [reaction, hitem]⟩))
  | ok cpu rest =>
    cases rest with
    | nil => exact .inl ⟨cpu, rfl, reaction_of_cpu hitem⟩
    | cons c p =>
      by_cases hc : c = '-'
      · subst hc
        cases hp : fromChars p with
        | ok last rest =>
          exact .inr (.inr (.inl ⟨cpu, p, last, rest, rfl, hp, reaction_of_range hitem hp⟩))
        | invalidArgument | resultOutOfRange rest =>
          refine .inr (.inr (.inr ⟨?_, ?_⟩))
          · rintro cpu' rest' heq
            simp only [FromChars.ok.injEq] at heq
            refine ⟨p, heq.2.symm, ?_⟩
            simp [hp]
          · simp only [reaction, hitem, hp, ne_eq, not_true_eq_false, if_false]
      · exact .inr (.inl ⟨cpu, c, p, rfl, hc, reaction_of_trailedCpu hitem hc⟩)

theorem reaction_eq_stop_iff : reaction item = .stop ↔ TrailedCpu item := by
  constructor
  · intro hstop
    rcases reaction_cases item with ⟨cpu, -, h⟩ | ⟨cpu, c, p, hread, hc, -⟩ |
      ⟨first, p, last, rest, -, -, h⟩ | ⟨-, h⟩
    · rw [hstop] at h
      cases h
    · exact ⟨cpu, c, p, hread, hc⟩
    · rw [hstop] at h
      cases h
    · rw [hstop] at h
      cases h
  · rintro ⟨cpu, c, p, hread, hc⟩
    exact reaction_of_trailedCpu hread hc

theorem rangeCalls_eq_nil_iff {first last : Unsigned} :
    rangeCalls first last = [] ↔ ¬ first ≤ last := by
  rw [rangeCalls, List.map_eq_nil_iff, List.range'_eq_nil_iff, BitVec.le_def]
  omega

/-- An item is read in one way. -/
theorem not_cpu_of_rest {cpu cpu' : Unsigned} {c : Char} {p : List Char}
    (h : fromChars item = .ok cpu (c :: p)) : fromChars item ≠ .ok cpu' [] := by
  rw [h]
  simp

theorem range_unique {first first' last last' : Unsigned} {p p' rest rest' : List Char}
    (hread : fromChars item = .ok first ('-' :: p)) (hp : fromChars p = .ok last rest)
    (hread' : fromChars item = .ok first' ('-' :: p')) (hp' : fromChars p' = .ok last' rest') :
    first' = first ∧ last' = last ∧ rest' = rest := by
  rw [hread] at hread'
  simp only [FromChars.ok.injEq, List.cons.injEq, true_and] at hread'
  obtain ⟨rfl, rfl⟩ := hread'
  rw [hp] at hp'
  simp only [FromChars.ok.injEq] at hp'
  exact ⟨rfl, hp'.1.symm, hp'.2.symm⟩

/-- An item lists a cpu if and only if the functor is called for it. -/
theorem calls_ne_nil_iff : (reaction item).calls ≠ [] ↔ Lists item := by
  rcases reaction_cases item with ⟨cpu, hread, h⟩ | ⟨cpu, c, p, hread, hc, h⟩ |
    ⟨first, p, last, rest, hread, hp, h⟩ | ⟨hread, h⟩
  · rw [h]
    exact ⟨fun _ => .inl ⟨cpu, hread⟩, fun _ => List.cons_ne_nil cpu []⟩
  · rw [h]
    refine ⟨fun hne => absurd rfl hne, ?_⟩
    rintro (⟨cpu', hread'⟩ | ⟨first, p', last, rest, hread', -, -⟩)
    · exact absurd hread' (not_cpu_of_rest hread)
    · rw [hread] at hread'
      simp only [FromChars.ok.injEq, List.cons.injEq] at hread'
      exact absurd hread'.2.1 hc
  · rw [h]
    change rangeCalls first last ≠ [] ↔ _
    rw [Ne, rangeCalls_eq_nil_iff, not_not]
    refine ⟨fun hle => .inr ⟨first, p, last, rest, hread, hp, hle⟩, ?_⟩
    rintro (⟨cpu', hread'⟩ | ⟨first', p', last', rest', hread', hp', hle⟩)
    · exact absurd hread' (not_cpu_of_rest hread)
    · obtain ⟨rfl, rfl, -⟩ := range_unique hread hp hread' hp'
      exact hle
  · rw [h]
    refine ⟨fun hne => absurd rfl hne, ?_⟩
    rintro (⟨cpu', hread'⟩ | ⟨first, p', last, rest, hread', hp', -⟩)
    · obtain ⟨p, hp, -⟩ := hread _ _ hread'
      cases hp
    · obtain ⟨p, hp, hnone⟩ := hread _ _ hread'
      obtain rfl := List.tail_eq_of_cons_eq hp
      exact absurd hp' (hnone last rest)

/-- The items that are called for although they are malformed. -/
theorem trailedRange_iff : TrailedRange item ↔ ¬ WellFormed item ∧ Lists item := by
  constructor
  · rintro ⟨first, p, last, rest, hread, hp, hrest, hle⟩
    refine ⟨?_, .inr ⟨first, p, last, rest, hread, hp, hle⟩⟩
    rintro (⟨cpu', hread'⟩ | ⟨first', p', last', hread', hp'⟩)
    · exact not_cpu_of_rest hread hread'
    · exact hrest (range_unique hread hp hread' hp').2.2.symm
  · rintro ⟨hmalformed, ⟨cpu, hread⟩ | ⟨first, p, last, rest, hread, hp, hle⟩⟩
    · exact absurd (.inl ⟨cpu, hread⟩) hmalformed
    · refine ⟨first, p, last, rest, hread, hp, ?_, hle⟩
      rintro rfl
      exact hmalformed (.inr ⟨first, p, last, hread, hp⟩)

/-- No loop without a call goes on forever. -/
theorem Reaction.finite_of_calls {r : Reaction} (h : r.calls = []) : r.Finite := by
  cases r with
  | range first last =>
    rintro rfl
    apply rangeCalls_eq_nil_iff.1 h
    rw [BitVec.le_def, BitVec.toNat_allOnes]
    have hlt := first.isLt
    omega
  | skip | cpu result | stop => trivial

/-- An item on its own. -/
theorem calls_item_iff (hcomma : ',' ∉ item) : Calls item [] ↔ ¬ Lists item := by
  rw [calls_iff, AllFinite, List.splitOn_eq_singleton hcomma, ← calls_ne_nil_iff, not_not]
  by_cases hstop : reaction item = .stop
  · rw [callsOf, reached_cons_stop hstop, hstop]
    simp [Reaction.calls]
  · rw [callsOf_cons hstop, reached_cons hstop]
    constructor
    · rintro ⟨-, hcalls⟩
      exact (List.append_eq_nil_iff.1 hcalls.symm).1
    · intro hcalls
      refine ⟨?_, by rw [hcalls]; rfl⟩
      intro item' hitem'
      obtain rfl : item' = item := by simpa [reached] using hitem'
      exact Reaction.finite_of_calls hcalls

end Items

/-- The cpus of a well-formed item; a malformed one has none. -/
def itemCpus (item : List Char) : List Unsigned :=
  match fromChars item with
  | .ok cpu [] => [cpu]
  | .ok first ('-' :: p) =>
    match fromChars p with
    | .ok last [] => rangeCalls first last
    | _ => []
  | _ => []

/-- Two lists do not influence each other, a malformed item contributes nothing, and the functor is
called for every well-formed item, whatever comes before it. -/
structure Independent (x y : List Char) : Prop where
  append : ∀ cx cy, Calls x cx → Calls y cy → Calls (x ++ ',' :: y) (cx ++ cy)
  malformed : ∀ item ∈ (x ++ ',' :: y).splitOn ',', ¬ WellFormed item → Calls item []
  wellFormed : Calls (x ++ ',' :: y) (((x ++ ',' :: y).splitOn ',').flatMap itemCpus)

/-- The functor is called for the cpus of an item, if it is no range that something follows. -/
theorem calls_eq_itemCpus {item : List Char} (h : ¬ TrailedRange item) :
    (reaction item).calls = itemCpus item := by
  rcases reaction_cases item with ⟨cpu, hread, hreaction⟩ | ⟨cpu, c, p, hread, hc, hreaction⟩ |
    ⟨first, p, last, rest, hread, hp, hreaction⟩ | ⟨hread, hreaction⟩
  · simp only [hreaction, itemCpus, hread]
    rfl
  · rw [hreaction, itemCpus, hread]
    split
    · rename_i heq
      cases heq
    · rename_i heq
      cases heq
      exact absurd rfl hc
    · rfl
  · rw [hreaction, itemCpus, hread]
    simp only [hp]
    cases rest with
    | nil => rfl
    | cons c rest =>
      exact rangeCalls_eq_nil_iff.2 fun hle =>
        h ⟨first, p, last, c :: rest, hread, hp, List.cons_ne_nil c rest, hle⟩
  · rw [hreaction, itemCpus]
    split
    · rename_i heq
      obtain ⟨p, hp, -⟩ := hread _ _ heq
      cases hp
    · rename_i heq
      obtain ⟨p', hp, hnone⟩ := hread _ _ heq
      cases hp
      split
      · rename_i heq'
        exact absurd heq' (hnone _ _)
      · rfl
    · rfl

theorem itemCpus_eq_nil_iff {item : List Char} (h : ¬ TrailedRange item) :
    itemCpus item = [] ↔ ¬ Lists item := by
  rw [← calls_eq_itemCpus h, ← calls_ne_nil_iff, not_not]

/-- All well-formed items are called for, if none that lists a cpu stands behind a number with
something else than a dash behind it. -/
theorem callsOf_eq_flatMap_iff {items : List (List Char)}
    (htrailed : ∀ item ∈ items, ¬ TrailedRange item) :
    callsOf items = items.flatMap itemCpus ↔
      items.Pairwise fun item later => TrailedCpu item → ¬ Lists later := by
  induction items with
  | nil => exact iff_of_true rfl List.Pairwise.nil
  | cons item items ih =>
    rw [List.forall_mem_cons] at htrailed
    rw [List.pairwise_cons, List.flatMap_cons, ← calls_eq_itemCpus htrailed.1]
    by_cases hstop : reaction item = .stop
    · -- the items behind this one are not come to
      have hlater : items.flatMap itemCpus = [] ↔ ∀ later ∈ items, ¬ Lists later := by
        rw [List.flatMap_eq_nil_iff]
        exact forall₂_congr fun later hmem => itemCpus_eq_nil_iff (htrailed.2 later hmem)
      have hcalls : callsOf (item :: items) = [] := by
        rw [callsOf, reached_cons_stop hstop, List.flatMap_nil]
      rw [hcalls, hstop]
      change [] = items.flatMap itemCpus ↔ _
      rw [eq_comm, hlater]
      constructor
      · intro h
        exact ⟨fun later hmem _ => h later hmem,
          List.pairwise_of_forall_mem_list fun _ _ later hmem _ => h later hmem⟩
      · exact fun h later hmem => h.1 later hmem (reaction_eq_stop_iff.1 hstop)
    · rw [callsOf_cons hstop, List.append_right_inj, ih htrailed.2]
      exact iff_and_self.2 fun _ later _ htrailedCpu =>
        absurd (reaction_eq_stop_iff.2 htrailedCpu) hstop

theorem reached_append {xs ys : List (List Char)} (h : ∀ item ∈ xs, reaction item ≠ .stop) :
    reached (xs ++ ys) = reached xs ++ reached ys := by
  induction xs with
  | nil => rfl
  | cons item xs ih =>
    rw [List.forall_mem_cons] at h
    rw [List.cons_append, reached_cons h.1, reached_cons h.1, ih h.2, List.cons_append]

theorem reached_append_of_stop {xs ys : List (List Char)} (h : ∃ item ∈ xs, reaction item = .stop) :
    reached (xs ++ ys) = reached xs := by
  induction xs with
  | nil =>
    obtain ⟨item, hitem, -⟩ := h
    exact absurd hitem List.not_mem_nil
  | cons item xs ih =>
    by_cases hstop : reaction item = .stop
    · rw [List.cons_append, reached_cons_stop hstop, reached_cons_stop hstop]
    · obtain ⟨item', hitem', hstop'⟩ := h
      rcases List.mem_cons.1 hitem' with rfl | hitem'
      · exact absurd hstop' hstop
      · rw [List.cons_append, reached_cons hstop, reached_cons hstop, ih ⟨item', hitem', hstop'⟩]

theorem callsOf_eq_nil_iff {items : List (List Char)} :
    callsOf items = [] ↔ ∀ item ∈ reached items, ¬ Lists item := by
  rw [callsOf, List.flatMap_eq_nil_iff]
  simp only [← calls_ne_nil_iff, not_not]

section Append

variable {x y : List Char}

theorem splitOn_append (x y : List Char) :
    (x ++ ',' :: y).splitOn ',' = x.splitOn ',' ++ y.splitOn ',' :=
  List.splitOn_append_cons_self x y

theorem comma_notMem_of_mem_splitOn {item : List Char} (h : item ∈ x.splitOn ',') :
    ',' ∉ item := by
  induction x generalizing item with
  | nil =>
    obtain rfl : item = [] := by simpa using h
    exact List.not_mem_nil
  | cons c x ih =>
    rw [List.splitOn_cons_eq_if_modifyHead] at h
    split_ifs at h with hc
    · rcases List.mem_cons.1 h with rfl | h
      · exact List.not_mem_nil
      · exact ih h
    · cases hsplit : x.splitOn ',' with
      | nil => exact absurd hsplit (List.splitOn_ne_nil ',' x)
      | cons first items =>
        rw [hsplit] at h ih
        rcases List.mem_cons.1 h with rfl | h
        · rw [List.mem_cons, not_or]
          exact ⟨fun heq => hc (by simp [← heq]), ih List.mem_cons_self⟩
        · exact ih (List.mem_cons_of_mem first h)

/-- A list behind another one is read as on its own, unless the first one ends the loop. -/
theorem calls_append_iff {cx cy : List Unsigned} (hx : Calls x cx) (hy : Calls y cy) :
    Calls (x ++ ',' :: y) (cx ++ cy) ↔
      (∀ item ∈ x.splitOn ',', ¬ TrailedCpu item) ∨ cy = [] := by
  obtain ⟨hfx, rfl⟩ := calls_iff.1 hx
  obtain ⟨hfy, rfl⟩ := calls_iff.1 hy
  rw [calls_iff, AllFinite, splitOn_append]
  by_cases hstop : ∃ item ∈ x.splitOn ',', reaction item = .stop
  · have hcalls : callsOf (x.splitOn ',' ++ y.splitOn ',') = callsOf (x.splitOn ',') := by
      rw [callsOf, callsOf, reached_append_of_stop hstop]
    obtain ⟨item, hitem, heq⟩ := hstop
    have hnot : ¬ ∀ item ∈ x.splitOn ',', ¬ TrailedCpu item :=
      fun h => h item hitem (reaction_eq_stop_iff.1 heq)
    rw [hcalls, reached_append_of_stop ⟨item, hitem, heq⟩, List.append_right_eq_self]
    constructor
    · exact fun h => .inr h.2
    · exact fun h => ⟨hfx, h.resolve_left hnot⟩
  · have hgoes : ∀ item ∈ x.splitOn ',', reaction item ≠ .stop := fun item hitem heq =>
      hstop ⟨item, hitem, heq⟩
    have hcalls : callsOf (x.splitOn ',' ++ y.splitOn ',') =
        callsOf (x.splitOn ',') ++ callsOf (y.splitOn ',') := by
      rw [callsOf, reached_append hgoes, List.flatMap_append]
      rfl
    rw [hcalls, reached_append hgoes]
    constructor
    · exact fun _ => .inl fun item hitem h => hgoes item hitem (reaction_eq_stop_iff.2 h)
    · refine fun _ => ⟨fun item hitem => ?_, rfl⟩
      exact (List.mem_append.1 hitem).elim (hfx item) (hfy item)

/-- Two lists are independent if and only if behind no number with something else than a dash
behind it there is an item that lists a cpu, and no range has something behind it. -/
theorem processCpuList_independent_iff (hx : Terminates x) (hy : Terminates y) :
    Independent x y ↔
      ((x ++ ',' :: y).splitOn ',').Pairwise (fun item later => TrailedCpu item → ¬ Lists later) ∧
        ∀ item ∈ (x ++ ',' :: y).splitOn ',', ¬ TrailedRange item := by
  constructor
  · intro h
    have htrailed : ∀ item ∈ (x ++ ',' :: y).splitOn ',', ¬ TrailedRange item := by
      intro item hitem htrailed
      obtain ⟨hmalformed, hlists⟩ := trailedRange_iff.1 htrailed
      have hcomma := comma_notMem_of_mem_splitOn hitem
      exact (calls_item_iff hcomma).1 (h.malformed item hitem hmalformed) hlists
    exact ⟨(callsOf_eq_flatMap_iff htrailed).1 (calls_iff.1 h.wellFormed).2.symm, htrailed⟩
  · rintro ⟨hbehind, htrailed⟩
    have happend : ∀ cx cy, Calls x cx → Calls y cy → Calls (x ++ ',' :: y) (cx ++ cy) := by
      intro cx cy hcx hcy
      rw [calls_append_iff hcx hcy, or_iff_not_imp_left]
      intro hstop
      push Not at hstop
      obtain ⟨item, hitem, hcpu⟩ := hstop
      rw [splitOn_append, List.pairwise_append] at hbehind
      rw [(calls_iff.1 hcy).2, callsOf_eq_nil_iff]
      intro later hlater
      exact hbehind.2.2 item hitem later (List.takeWhile_subset _ hlater) hcpu
    refine ⟨happend, fun item hitem hmalformed => ?_, ?_⟩
    · apply (calls_item_iff (comma_notMem_of_mem_splitOn hitem)).2
      exact fun hlists => htrailed item hitem (trailedRange_iff.2 ⟨hmalformed, hlists⟩)
    · obtain ⟨cx, hcx⟩ := hx
      obtain ⟨cy, hcy⟩ := hy
      exact calls_iff.2 ⟨(calls_iff.1 (happend cx cy hcx hcy)).1,
        ((callsOf_eq_flatMap_iff htrailed).2 hbehind).symm⟩

end Append

/-- A number with a letter behind it does no harm at the end of the list. -/
theorem processCpuList_independent_last : Independent "domain,1-3".toList "5,2A".toList := by
  have hx : Terminates "domain,1-3".toList :=
    ⟨[1, 2, 3], calls_iff.2 ⟨by unfold AllFinite; decide, by decide⟩⟩
  have hy : Terminates "5,2A".toList := ⟨[5], calls_iff.2 ⟨by unfold AllFinite; decide, by decide⟩⟩
  have hitems : ("domain,1-3".toList ++ ',' :: "5,2A".toList).splitOn ',' =
      ["domain".toList, "1-3".toList, "5".toList, "2A".toList] := by decide
  refine (processCpuList_independent_iff hx hy).2 ⟨?_, fun item hitem htrailed => ?_⟩
  · rw [hitems]
    simp only [← reaction_eq_stop_iff, ← calls_ne_nil_iff]
    decide
  · obtain ⟨hmalformed, hlists⟩ := trailedRange_iff.1 htrailed
    rw [hitems] at hitem
    simp only [List.mem_cons, List.not_mem_nil, or_false] at hitem
    rcases hitem with rfl | rfl | rfl | rfl
    · exact calls_ne_nil_iff.2 hlists (by decide)
    · exact hmalformed (.inr ⟨1, "3".toList, 3, by decide, by decide⟩)
    · exact hmalformed (.inl ⟨5, by decide⟩)
    · exact calls_ne_nil_iff.2 hlists (by decide)

/-- A number with a letter behind it hides the cpus of the items after it, in the second list or in
the same one. -/
theorem processCpuList_suppresses : Calls "1A3".toList [] ∧ Calls "5".toList [5] ∧
    Calls "1A3,5".toList [] ∧ ¬ Independent "1A3".toList "5".toList ∧
    ¬ Independent "2".toList "1A3,5".toList := by
  have hx : Calls "1A3".toList [] := calls_iff.2 ⟨by unfold AllFinite; decide, by decide⟩
  have hy : Calls "5".toList [5] := calls_iff.2 ⟨by unfold AllFinite; decide, by decide⟩
  refine ⟨hx, hy, calls_iff.2 ⟨by unfold AllFinite; decide, by decide⟩, fun h => ?_, fun h => ?_⟩
  · have hcalls := (calls_iff.1 (h.append [] [5] hx hy)).2
    revert hcalls
    decide
  · have hcalls := (calls_iff.1 h.wellFormed).2
    revert hcalls
    decide

end Ihft.Platform
