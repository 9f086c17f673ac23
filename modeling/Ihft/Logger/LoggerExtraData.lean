import Ihft.Lib.Bytes
import Ihft.Logger.PrintTuple

/-!
# The arguments of a log event

The constructor of a `logger_event` packs the arguments into a tuple at the beginning of the buffer
of the event.  The characters of texts are placed one after the other behind the tuple, as long as
there is room.  The arguments are packed in an order that the language does not say; whatever it is,
each text that had room at its turn can be read from the event afterwards.
-/

namespace Ihft.Logger

open Bytes

/-! ## Places for texts -/

/-- The next free byte of the buffer of an event, and how many there are. -/
structure LoggerExtraData where
  buffer : ℕ
  size : ℕ
  deriving DecidableEq, Repr

/-- A `std::string_view` of bytes of the event, or of a text of the program. -/
inductive StringView
  | slab (data size : ℕ)
  | literal (text : List Char)
  deriving DecidableEq, Repr

/-- The characters that a view shows. -/
def StringView.read (memory : ℕ → Char) : StringView → List Char
  | slab data size => Bytes.read memory data size
  | literal text => text

/-- `"<truncated>"`. -/
def truncated : List Char := "<truncated>".toList

namespace LoggerExtraData

def isEnought (ctx : LoggerExtraData) (size : ℕ) : Bool := size ≤ ctx.size

def seekBuff (ctx : LoggerExtraData) (size : ℕ) : LoggerExtraData :=
  ⟨ctx.buffer + size, ctx.size - size⟩

def place (ctx : LoggerExtraData) (memory : ℕ → Char) (origin : List Char) :
    StringView × LoggerExtraData × (ℕ → Char) :=
  if ctx.isEnought origin.length then
    (.slab ctx.buffer origin.length, ctx.seekBuff origin.length, write memory ctx.buffer origin)
  else
    (.literal truncated, ctx, memory)

end LoggerExtraData

/-! ## Arguments -/

/-- What a pointer is to the stream, when it is not packed. -/
inductive Pointee
  | object
  | chars (origin : List Char)
  | null
  deriving DecidableEq, Repr

/-- An argument of a log call.  The contract of a text is that of the arrays of characters and of
the strings; a value is packed as it is. -/
inductive LogArg
  | text (origin : List Char)
  | value (print : OStringStream → OStringStream)
  | pointer (address : ℕ) (pointee : Pointee)

/-- An element of the tuple. -/
inductive Packed
  | view (origin : StringView)
  | value (print : OStringStream → OStringStream)
  | pointer (address : ℕ)

/-- `logger_contract<T>::pack`. -/
def LogArg.pack (ctx : LoggerExtraData) (memory : ℕ → Char) :
    LogArg → Packed × LoggerExtraData × (ℕ → Char)
  | text origin =>
    match ctx.place memory origin with
    | (view, ctx, memory) => (.view view, ctx, memory)
  | value print => (.value print, ctx, memory)
  | pointer address _ => (.pointer address, ctx, memory)

/-- The arguments that were packed so far, by their places in the tuple. -/
structure Packing where
  ctx : LoggerExtraData
  memory : ℕ → Char
  packed : ℕ → Option Packed

/-- The call of `pack` for the argument `i`. -/
def packStep (args : List LogArg) (s : Packing) (i : ℕ) : Packing :=
  match args[i]? with
  | none => s
  | some arg =>
    match arg.pack s.ctx s.memory with
    | (packed, ctx, memory) => ⟨ctx, memory, Function.update s.packed i (some packed)⟩

/-- The calls in some order, behind a tuple of the given size. -/
def packAll (bufferSize tupleSize : ℕ) (memory : ℕ → Char) (args : List LogArg)
    (order : List ℕ) : Packing :=
  order.foldl (packStep args) ⟨⟨tupleSize, bufferSize - tupleSize⟩, memory, fun _ => none⟩

/-- What a `logger_event` holds for its printing. -/
structure EventContent where
  formatExpr : List Char
  tuple : List Packed
  data : ℕ → Char

/-- The constructor: all arguments are packed before the bytes of the tuple are written. -/
def EventContent.new (bufferSize : ℕ) (tupleBytes : List Char) (memory : ℕ → Char)
    (formatExpr : List Char) (args : List LogArg) (order : List ℕ) : EventContent :=
  let s := packAll bufferSize tupleBytes.length memory args order
  ⟨formatExpr, (List.range args.length).filterMap s.packed, write s.memory 0 tupleBytes⟩

section Print

variable (printPointer : ℕ → OStringStream → OStringStream)

/-- The operator for an element of the tuple; `printPointer` is the one for `const void*`. -/
def Packed.print (memory : ℕ → Char) : Packed → OStringStream → OStringStream
  | view origin => fun os => os.insert (origin.read memory)
  | value print => print
  | pointer address => printPointer address

def EventContent.printArgsTo (event : EventContent) : OStringStream → OStringStream :=
  printTuple .insert event.formatExpr (event.tuple.map (Packed.print printPointer event.data))

/-- The operator for an argument that is not packed. -/
def LogArg.print : LogArg → OStringStream → OStringStream
  | text origin => fun os => os.insert origin
  | value print => print
  | pointer address .object => printPointer address
  | pointer _ (.chars origin) => fun os => os.insert origin
  | pointer _ .null => fun os => os.insert "nullptr".toList

/-- The same, with every pointer as a `const void*`. -/
def LogArg.printAddress : LogArg → OStringStream → OStringStream
  | pointer address _ => printPointer address
  | arg => arg.print printPointer

end Print

/-- The bytes of the buffer that an argument asks for. -/
def LogArg.length : LogArg → ℕ
  | text origin => origin.length
  | _ => 0

/-! ## One call of `pack` -/

/-- What a call can do. -/
inductive PackStep (args : List LogArg) (s : Packing) (i : ℕ) : Packing → Prop
  | none (h : args[i]? = none) : PackStep args s i s
  | placed (origin : List Char) (h : args[i]? = some (.text origin))
    (room : origin.length ≤ s.ctx.size) :
    PackStep args s i ⟨s.ctx.seekBuff origin.length, write s.memory s.ctx.buffer origin,
      Function.update s.packed i (some (.view (.slab s.ctx.buffer origin.length)))⟩
  | truncated (origin : List Char) (h : args[i]? = some (.text origin))
    (room : s.ctx.size < origin.length) :
    PackStep args s i { s with
      packed := Function.update s.packed i (some (.view (.literal truncated))) }
  | value (print : OStringStream → OStringStream) (h : args[i]? = some (.value print)) :
    PackStep args s i { s with packed := Function.update s.packed i (some (.value print)) }
  | pointer (address : ℕ) (pointee : Pointee) (h : args[i]? = some (.pointer address pointee)) :
    PackStep args s i { s with packed := Function.update s.packed i (some (.pointer address)) }

theorem packStep_cases (args : List LogArg) (s : Packing) (i : ℕ) :
    PackStep args s i (packStep args s i) := by
  unfold packStep
  cases h : args[i]? with
  | none => exact .none h
  | some arg =>
    cases arg with
    | text origin =>
      simp only [LogArg.pack, LoggerExtraData.place, LoggerExtraData.isEnought, decide_eq_true_eq]
      split_ifs with hroom
      · exact .placed origin h hroom
      · exact .truncated origin h (Nat.lt_of_not_le hroom)
    | value print => exact .value print h
    | pointer address pointee => exact .pointer address pointee h

/-! ## All calls -/

/-- The element of the tuple shows the argument, or that it was truncated. -/
def Shows (memory : ℕ → Char) : LogArg → Packed → Prop
  | .text origin, .view view => view.read memory = origin ∨ view = .literal truncated
  | .value print, .value print' => print' = print
  | .pointer address _, .pointer address' => address' = address
  | _, _ => False

/-- The bytes that the argument `i` asks for. -/
def lengthAt (args : List LogArg) (i : ℕ) : ℕ := (args[i]?.map LogArg.length).getD 0

/-- The invariant of the calls for the arguments `done`. -/
structure PackOk (bufferSize tupleSize : ℕ) (args : List LogArg) (done : List ℕ)
    (s : Packing) : Prop where
  behind : tupleSize ≤ s.ctx.buffer
  room : s.ctx.buffer + s.ctx.size = bufferSize
  element : ∀ i ∈ done, ∀ arg, args[i]? = some arg →
    ∃ packed, s.packed i = some packed ∧ Shows s.memory arg packed
  inside : ∀ i data size, s.packed i = some (.view (.slab data size)) →
    tupleSize ≤ data ∧ data + size ≤ s.ctx.buffer
  disjoint : ∀ i j data size data' size', i ≠ j → s.packed i = some (.view (.slab data size)) →
    s.packed j = some (.view (.slab data' size')) → Apart data size data' size'
  spent : bufferSize - tupleSize ≤ s.ctx.size + (done.map (lengthAt args)).sum

section Pack

variable {bufferSize tupleSize : ℕ} {args : List LogArg} {done : List ℕ} {s s' : Packing} {i : ℕ}
  {packed : Packed}

theorem packOk_start (h : tupleSize ≤ bufferSize) (memory : ℕ → Char) :
    PackOk bufferSize tupleSize args [] (packAll bufferSize tupleSize memory args []) where
  behind := le_rfl
  room := Nat.add_sub_cancel' h
  element i hi := absurd hi List.not_mem_nil
  inside i data size hpacked := by cases hpacked
  disjoint i j data size data' size' hne hpacked := by cases hpacked
  spent := Nat.le_add_right _ _

theorem Shows.congr {memory memory' : ℕ → Char} {arg : LogArg} (h : Shows memory arg packed)
    (hslab : ∀ data size, packed = .view (.slab data size) →
      read memory' data size = read memory data size) : Shows memory' arg packed := by
  cases arg with
  | text origin =>
    cases packed with
    | view view =>
      cases view with
      | slab data size => exact h.imp_left fun hread => (hslab data size rfl).trans hread
      | literal text => exact h
    | value print | pointer address => exact absurd h id
  | value print => cases packed <;> exact h
  | pointer address pointee => cases packed <;> exact h

/-- A call that places nothing. -/
theorem PackOk.update (h : PackOk bufferSize tupleSize args done s)
    (hview : ∀ data size, packed ≠ .view (.slab data size))
    (hshows : ∀ arg, args[i]? = some arg → Shows s.memory arg packed) :
    PackOk bufferSize tupleSize args (done ++ [i])
      { s with packed := Function.update s.packed i (some packed) } := by
  refine ⟨h.behind, h.room, ?_, ?_, ?_, ?_⟩
  · intro j hj arg harg
    by_cases heq : j = i
    · subst heq
      exact ⟨packed, Function.update_self .., hshows arg harg⟩
    · rw [List.mem_append, List.mem_singleton] at hj
      obtain ⟨packed', hpacked', hshows'⟩ := h.element j (hj.resolve_right heq) arg harg
      exact ⟨packed', (Function.update_of_ne heq ..).trans hpacked', hshows'⟩
  · intro j data size hj
    dsimp only at hj ⊢
    by_cases heq : j = i
    · subst heq
      rw [Function.update_self, Option.some.injEq] at hj
      exact absurd hj (hview data size)
    · rw [Function.update_of_ne heq] at hj
      exact h.inside j data size hj
  · intro j k data size data' size' hne hj hk
    dsimp only at hj hk
    by_cases hji : j = i
    · subst hji
      rw [Function.update_self, Option.some.injEq] at hj
      exact absurd hj (hview data size)
    · by_cases hki : k = i
      · subst hki
        rw [Function.update_self, Option.some.injEq] at hk
        exact absurd hk (hview data' size')
      · rw [Function.update_of_ne hji] at hj
        rw [Function.update_of_ne hki] at hk
        exact h.disjoint j k data size data' size' hne hj hk
  · have hspent := h.spent
    rw [List.map_append, List.sum_append]
    change _ ≤ s.ctx.size + _
    omega

/-- A call that places a text. -/
theorem PackOk.place (h : PackOk bufferSize tupleSize args done s) {origin : List Char}
    (harg : args[i]? = some (.text origin)) (hroom : origin.length ≤ s.ctx.size) :
    PackOk bufferSize tupleSize args (done ++ [i])
      ⟨s.ctx.seekBuff origin.length, write s.memory s.ctx.buffer origin,
        Function.update s.packed i (some (.view (.slab s.ctx.buffer origin.length)))⟩ := by
  have hbehind := h.behind
  have hend := h.room
  -- the texts that were placed before lie in front of the new one
  have hapart : ∀ j data size, s.packed j = some (.view (.slab data size)) →
      Apart data size s.ctx.buffer origin.length := fun j data size hj =>
    .inl (h.inside j data size hj).2
  refine ⟨?_, ?_, ?_, ?_, ?_, ?_⟩
  · change tupleSize ≤ s.ctx.buffer + origin.length
    omega
  · change s.ctx.buffer + origin.length + (s.ctx.size - origin.length) = bufferSize
    omega
  · intro j hj arg harg'
    by_cases heq : j = i
    · subst heq
      rw [harg, Option.some.injEq] at harg'
      subst harg'
      exact ⟨_, Function.update_self .., .inl read_write_self⟩
    · rw [List.mem_append, List.mem_singleton] at hj
      obtain ⟨packed', hpacked', hshows'⟩ := h.element j (hj.resolve_right heq) arg harg'
      refine ⟨packed', (Function.update_of_ne heq ..).trans hpacked', hshows'.congr ?_⟩
      rintro data size rfl
      exact read_write_of_apart (hapart j data size hpacked')
  · intro j data size hj
    change tupleSize ≤ data ∧ data + size ≤ s.ctx.buffer + origin.length
    dsimp only at hj
    by_cases heq : j = i
    · subst heq
      rw [Function.update_self, Option.some.injEq, Packed.view.injEq, StringView.slab.injEq] at hj
      omega
    · rw [Function.update_of_ne heq] at hj
      have hinside := h.inside j data size hj
      omega
  · intro j k data size data' size' hne hj hk
    dsimp only at hj hk
    by_cases hji : j = i
    · subst hji
      rw [Function.update_self, Option.some.injEq, Packed.view.injEq, StringView.slab.injEq] at hj
      rw [Function.update_of_ne hne.symm] at hk
      rw [← hj.1, ← hj.2]
      exact (hapart k data' size' hk).symm
    · rw [Function.update_of_ne hji] at hj
      by_cases hki : k = i
      · subst hki
        rw [Function.update_self, Option.some.injEq, Packed.view.injEq, StringView.slab.injEq] at hk
        rw [← hk.1, ← hk.2]
        exact hapart j data size hj
      · rw [Function.update_of_ne hki] at hk
        exact h.disjoint j k data size data' size' hne hj hk
  · have hspent := h.spent
    have hlength : lengthAt args i = origin.length := by simp [lengthAt, harg, LogArg.length]
    change _ ≤ s.ctx.size - origin.length + _
    rw [List.map_append, List.sum_append, List.map_singleton, List.sum_singleton, hlength]
    omega

theorem PackOk.step (h : PackOk bufferSize tupleSize args done s) (hs : PackStep args s i s') :
    PackOk bufferSize tupleSize args (done ++ [i]) s' := by
  cases hs with
  | none hnone =>
    refine ⟨h.behind, h.room, ?_, h.inside, h.disjoint, ?_⟩
    · intro j hj arg harg
      rcases List.mem_append.1 hj with hj | hj
      · exact h.element j hj arg harg
      · rw [List.mem_singleton.1 hj, hnone] at harg
        cases harg
    · have hspent := h.spent
      rw [List.map_append, List.sum_append]
      omega
  | placed origin harg hroom => exact h.place harg hroom
  | truncated origin harg hroom =>
    apply h.update (by simp)
    intro arg harg'
    rw [harg, Option.some.injEq] at harg'
    subst harg'
    exact .inr rfl
  | value print harg =>
    apply h.update (by simp)
    intro arg harg'
    rw [harg, Option.some.injEq] at harg'
    subst harg'
    rfl
  | pointer address pointee harg =>
    apply h.update (by simp)
    intro arg harg'
    rw [harg, Option.some.injEq] at harg'
    subst harg'
    rfl

theorem packAll_append (memory : ℕ → Char) (l l' : List ℕ) :
    packAll bufferSize tupleSize memory args (l ++ l') =
      l'.foldl (packStep args) (packAll bufferSize tupleSize memory args l) :=
  List.foldl_append

variable (args) in
theorem packOk (h : tupleSize ≤ bufferSize) (memory : ℕ → Char) (done : List ℕ) :
    PackOk bufferSize tupleSize args done (packAll bufferSize tupleSize memory args done) := by
  induction done using List.reverseRecOn with
  | nil => exact packOk_start h memory
  | append_singleton done i ih =>
    rw [packAll_append]
    exact ih.step (packStep_cases args _ i)

/-- A call does not concern the other elements of the tuple. -/
theorem foldl_packStep_packed {l : List ℕ} (hi : i ∉ l) :
    (l.foldl (packStep args) s).packed i = s.packed i := by
  induction l generalizing s with
  | nil => rfl
  | cons j l ih =>
    rw [List.mem_cons, not_or] at hi
    rw [List.foldl_cons, ih hi.2]
    have hstep := packStep_cases args s j
    generalize packStep args s j = s' at hstep ⊢
    cases hstep with
    | none => rfl
    | placed | truncated | value | pointer => exact Function.update_of_ne hi.1 ..

end Pack

/-! ## The event -/

/-- The room that the calls for the arguments `done` leave. -/
def room (bufferSize tupleSize : ℕ) (memory : ℕ → Char) (args : List LogArg) (done : List ℕ) : ℕ :=
  (packAll bufferSize tupleSize memory args done).ctx.size

/-- What the event keeps of its arguments. -/
structure PacksContent (bufferSize tupleSize : ℕ) (memory : ℕ → Char) (args : List LogArg)
    (order : List ℕ) (event : EventContent) : Prop where
  /-- A text with room for it at its turn is read from the event, and the room is used up. -/
  placed : ∀ l i l' origin, order = l ++ i :: l' → args[i]? = some (.text origin) →
    origin.length ≤ room bufferSize tupleSize memory args l →
    (∃ data, event.tuple[i]? = some (Packed.view (.slab data origin.length)) ∧
      read event.data data origin.length = origin) ∧
    room bufferSize tupleSize memory args (l ++ [i]) =
      room bufferSize tupleSize memory args l - origin.length
  /-- Any other text is truncated and uses nothing. -/
  truncated : ∀ l i l' origin, order = l ++ i :: l' → args[i]? = some (.text origin) →
    room bufferSize tupleSize memory args l < origin.length →
    event.tuple[i]? = some (Packed.view (.literal truncated)) ∧
    room bufferSize tupleSize memory args (l ++ [i]) = room bufferSize tupleSize memory args l
  inside : ∀ (i data size : ℕ), event.tuple[i]? = some (Packed.view (.slab data size)) →
    tupleSize ≤ data ∧ data + size ≤ bufferSize
  disjoint : ∀ (i j data size data' size' : ℕ), i ≠ j →
    event.tuple[i]? = some (Packed.view (.slab data size)) →
    event.tuple[j]? = some (Packed.view (.slab data' size')) → Apart data size data' size'
  /-- If there is room for all texts, the event is printed as the arguments are. -/
  whole : (args.map LogArg.length).sum ≤ bufferSize - tupleSize →
    (∀ (i : ℕ) text, event.tuple[i]? ≠ some (Packed.view (.literal text))) ∧
    ∀ printPointer os, event.printArgsTo printPointer os =
      printTuple .insert event.formatExpr (args.map (LogArg.printAddress printPointer)) os

section Event

variable {bufferSize tupleSize : ℕ} {tupleBytes : List Char} {memory : ℕ → Char}
  {formatExpr : List Char} {args : List LogArg} {order : List ℕ}

variable (memory formatExpr) in
theorem new_tuple (hsize : tupleBytes.length ≤ bufferSize)
    (h : order.Perm (List.range args.length)) (i : ℕ) :
    (EventContent.new bufferSize tupleBytes memory formatExpr args order).tuple[i]? =
      (packAll bufferSize tupleBytes.length memory args order).packed i := by
  have hok := packOk args hsize memory order
  have hmem : ∀ j, j ∈ order ↔ j < args.length := fun j => by rw [h.mem_iff, List.mem_range]
  have hsome : ∀ j, ∃ packed, j < args.length →
      (packAll bufferSize tupleBytes.length memory args order).packed j = some packed := by
    intro j
    by_cases hj : j < args.length
    · obtain ⟨packed, hpacked, -⟩ :=
        hok.element j ((hmem j).2 hj) args[j] (List.getElem?_eq_getElem hj)
      exact ⟨packed, fun _ => hpacked⟩
    · exact ⟨.pointer 0, fun hlt => absurd hlt hj⟩
  choose packed hpacked using hsome
  have htuple : (List.range args.length).filterMap
      (packAll bufferSize tupleBytes.length memory args order).packed =
      (List.range args.length).map packed := by
    rw [← List.filterMap_eq_map]
    exact List.filterMap_congr fun j hj => hpacked j (List.mem_range.1 hj)
  change ((List.range args.length).filterMap _)[i]? = _
  rw [htuple, List.getElem?_map]
  by_cases hi : i < args.length
  · rw [List.getElem?_range hi, hpacked i hi]
    rfl
  · rw [List.getElem?_eq_none (by simpa using hi), packAll, foldl_packStep_packed]
    · rfl
    · exact fun hmem' => hi ((hmem i).1 hmem')

/-- What is read behind the tuple does not change when the tuple is written. -/
theorem read_write_tuple {data size : ℕ} (h : tupleBytes.length ≤ data) :
    read (write memory 0 tupleBytes) data size = read memory data size :=
  read_write_of_apart (.inr (by omega))

/-- The turn of an argument, and what becomes of its element. -/
theorem packed_of_turn {l l' : List ℕ} {i : ℕ} (hi : i ∉ l') :
    (packAll bufferSize tupleSize memory args (l ++ i :: l')).packed i =
      (packStep args (packAll bufferSize tupleSize memory args l) i).packed i := by
  rw [packAll_append, List.foldl_cons, foldl_packStep_packed hi]

theorem packAll_concat (l : List ℕ) (i : ℕ) :
    packAll bufferSize tupleSize memory args (l ++ [i]) =
      packStep args (packAll bufferSize tupleSize memory args l) i := by
  rw [packAll_append]
  rfl

theorem packStep_of_room {s : Packing} {i : ℕ} {origin : List Char}
    (harg : args[i]? = some (.text origin)) (hroom : origin.length ≤ s.ctx.size) :
    packStep args s i = ⟨s.ctx.seekBuff origin.length, write s.memory s.ctx.buffer origin,
      Function.update s.packed i (some (.view (.slab s.ctx.buffer origin.length)))⟩ := by
  simp only [packStep, harg, LogArg.pack, LoggerExtraData.place, LoggerExtraData.isEnought,
    decide_eq_true hroom, if_true]

theorem packStep_of_no_room {s : Packing} {i : ℕ} {origin : List Char}
    (harg : args[i]? = some (.text origin)) (hroom : s.ctx.size < origin.length) :
    packStep args s i = { s with
      packed := Function.update s.packed i (some (.view (.literal truncated))) } := by
  simp only [packStep, harg, LogArg.pack, LoggerExtraData.place, LoggerExtraData.isEnought,
    decide_eq_false (Nat.not_le.2 hroom), Bool.false_eq_true, if_false]

variable (memory) in
/-- With room for all texts, each has room at its turn. -/
theorem length_le_room (hsize : tupleSize ≤ bufferSize) (h : order.Perm (List.range args.length))
    (hsum : (args.map LogArg.length).sum ≤ bufferSize - tupleSize) {l l' : List ℕ} {i : ℕ}
    (horder : order = l ++ i :: l') {origin : List Char} (harg : args[i]? = some (.text origin)) :
    origin.length ≤ room bufferSize tupleSize memory args l := by
  have hspent := (packOk args hsize memory l).spent
  have hlength : lengthAt args i = origin.length := by simp [lengthAt, harg, LogArg.length]
  have hargs : (List.range args.length).map (lengthAt args) = args.map LogArg.length := by
    apply List.ext_getElem (by simp)
    intro j hj hj'
    rw [List.length_map, List.length_range] at hj
    simp [lengthAt, hj]
  have htotal : (order.map (lengthAt args)).sum = (args.map LogArg.length).sum := by
    rw [← hargs]
    exact (h.map _).sum_eq
  rw [horder, List.map_append, List.sum_append, List.map_cons, List.sum_cons, hlength] at htotal
  unfold room
  omega

/-- Every argument has its turn. -/
theorem mem_order (h : order.Perm (List.range args.length)) {i : ℕ} {arg : LogArg}
    (harg : args[i]? = some arg) : i ∈ order := by
  rw [h.mem_iff, List.mem_range]
  exact (List.getElem?_eq_some_iff.1 harg).1

variable (memory formatExpr) in
/-- Every element of the tuple shows its argument, also once the tuple is written. -/
theorem new_shows (hsize : tupleBytes.length ≤ bufferSize)
    (h : order.Perm (List.range args.length)) {i : ℕ} {arg : LogArg} (harg : args[i]? = some arg) :
    ∃ packed, (EventContent.new bufferSize tupleBytes memory formatExpr args order).tuple[i]? =
        some packed ∧
      Shows (EventContent.new bufferSize tupleBytes memory formatExpr args order).data arg
        packed := by
  have hok := packOk args hsize memory order
  obtain ⟨packed, hpacked, hshows⟩ := hok.element i (mem_order h harg) arg harg
  refine ⟨packed, by rw [new_tuple memory formatExpr hsize h, hpacked], hshows.congr ?_⟩
  rintro data size rfl
  exact read_write_tuple (hok.inside i data size hpacked).1

variable (memory formatExpr) in
theorem length_new_tuple {args : List LogArg} (hsize : tupleBytes.length ≤ bufferSize)
    (h : order.Perm (List.range args.length)) :
    (EventContent.new bufferSize tupleBytes memory formatExpr args order).tuple.length =
      args.length := by
  apply le_antisymm
  · have hlast : args.length ∉ order := by
      rw [h.mem_iff, List.mem_range]
      exact lt_irrefl _
    rw [← List.getElem?_eq_none_iff, new_tuple memory formatExpr hsize h, packAll,
      foldl_packStep_packed hlast]
  · by_contra hlt
    obtain ⟨packed, hpacked, -⟩ :=
      new_shows memory formatExpr hsize h (List.getElem?_eq_getElem (not_le.1 hlt))
    rw [List.getElem?_eq_none le_rfl] at hpacked
    cases hpacked

/-- What is printed is printed by the elements of the tuple. -/
theorem new_print_eq (hsize : tupleBytes.length ≤ bufferSize)
    (h : order.Perm (List.range args.length)) {printPointer : ℕ → OStringStream → OStringStream}
    {print : LogArg → OStringStream → OStringStream} {os : OStringStream}
    (hprint : ∀ (i : ℕ) (arg : LogArg) (packed : Packed), args[i]? = some arg →
      (EventContent.new bufferSize tupleBytes memory formatExpr args order).tuple[i]? =
        some packed →
      Shows (EventContent.new bufferSize tupleBytes memory formatExpr args order).data arg packed →
      packed.print printPointer
        (EventContent.new bufferSize tupleBytes memory formatExpr args order).data = print arg) :
    (EventContent.new bufferSize tupleBytes memory formatExpr args order).printArgsTo
        printPointer os =
      printTuple .insert formatExpr (args.map print) os := by
  unfold EventContent.printArgsTo
  congr 1
  apply List.ext_getElem?
  intro i
  rw [List.getElem?_map, List.getElem?_map]
  cases harg : args[i]? with
  | none =>
    have hlen := List.getElem?_eq_none_iff.1 harg
    rw [← length_new_tuple memory formatExpr hsize h] at hlen
    rw [List.getElem?_eq_none hlen]
    rfl
  | some arg =>
    obtain ⟨packed, hpacked, hshows⟩ := new_shows memory formatExpr hsize h harg
    rw [hpacked, Option.map_some, Option.map_some, hprint i arg packed harg hpacked hshows]

theorem print_of_shows {arg : LogArg} {packed : Packed} (h : Shows memory arg packed)
    (hview : ∀ text, packed ≠ .view (.literal text))
    (printPointer : ℕ → OStringStream → OStringStream) :
    packed.print printPointer memory = arg.printAddress printPointer := by
  cases arg with
  | text origin =>
    cases packed with
    | view view =>
      have hread := h.resolve_right fun heq => hview truncated (congrArg Packed.view heq)
      simp only [Packed.print, LogArg.printAddress, LogArg.print, hread]
    | value print | pointer address => exact absurd h id
  | value print =>
    cases packed with
    | value print' =>
      obtain rfl : print' = print := h
      rfl
    | view view | pointer address => exact absurd h id
  | pointer address pointee =>
    cases packed with
    | pointer address' =>
      obtain rfl : address' = address := h
      rfl
    | view view | value print => exact absurd h id

variable (memory formatExpr) in
/-- What is packed at the turn of an argument stays as it is. -/
theorem new_turn (hsize : tupleBytes.length ≤ bufferSize)
    (h : order.Perm (List.range args.length)) {l l' : List ℕ} {i : ℕ}
    (horder : order = l ++ i :: l') :
    (EventContent.new bufferSize tupleBytes memory formatExpr args order).tuple[i]? =
      (packStep args (packAll bufferSize tupleBytes.length memory args l) i).packed i := by
  have hnodup : (l ++ i :: l').Nodup := horder ▸ h.nodup_iff.2 List.nodup_range
  rw [new_tuple memory formatExpr hsize h, horder,
    packed_of_turn (List.nodup_cons.1 (List.nodup_append.1 hnodup).2.1).1]

variable (memory formatExpr) in
theorem new_placed (hsize : tupleBytes.length ≤ bufferSize)
    (h : order.Perm (List.range args.length)) {l l' : List ℕ} {i : ℕ}
    (horder : order = l ++ i :: l') {origin : List Char} (harg : args[i]? = some (.text origin))
    (hroom : origin.length ≤ room bufferSize tupleBytes.length memory args l) : ∃ data,
    (EventContent.new bufferSize tupleBytes memory formatExpr args order).tuple[i]? =
        some (.view (.slab data origin.length)) ∧
      read (EventContent.new bufferSize tupleBytes memory formatExpr args order).data data
        origin.length = origin := by
  have hturn := new_turn memory formatExpr hsize h horder
  rw [packStep_of_room harg hroom] at hturn
  replace hturn := hturn.trans (Function.update_self ..)
  obtain ⟨packed, hpacked, hshows⟩ :=
    new_shows memory formatExpr hsize h harg
  rw [hturn, Option.some.injEq] at hpacked
  subst hpacked
  exact ⟨_, hturn, hshows.resolve_right (by simp)⟩

/-- With room for all texts none is truncated. -/
theorem new_not_literal (hsize : tupleBytes.length ≤ bufferSize)
    (h : order.Perm (List.range args.length))
    (hsum : (args.map LogArg.length).sum ≤ bufferSize - tupleBytes.length) (i : ℕ)
    (text : List Char) :
    (EventContent.new bufferSize tupleBytes memory formatExpr args order).tuple[i]? ≠
      some (.view (.literal text)) := by
  intro hliteral
  cases harg : args[i]? with
  | none =>
    have hi : i ∉ order := by
      rw [h.mem_iff, List.mem_range]
      exact Nat.not_lt.2 (List.getElem?_eq_none_iff.1 harg)
    rw [new_tuple memory formatExpr hsize h, packAll, foldl_packStep_packed hi] at hliteral
    cases hliteral
  | some arg =>
    obtain ⟨packed, hpacked, hshows⟩ :=
      new_shows memory formatExpr hsize h harg
    rw [hliteral, Option.some.injEq] at hpacked
    subst hpacked
    cases arg with
    | value print | pointer address pointee => exact absurd hshows id
    | text origin =>
      obtain ⟨l, l', horder⟩ := List.append_of_mem (mem_order h harg)
      obtain ⟨data, hdata, -⟩ := new_placed memory formatExpr hsize h horder harg
        (length_le_room memory hsize h hsum horder harg)
      rw [hliteral] at hdata
      cases hdata

/-- With room for all texts the event is printed as its arguments are. -/
theorem new_print (hsize : tupleBytes.length ≤ bufferSize)
    (h : order.Perm (List.range args.length))
    (hsum : (args.map LogArg.length).sum ≤ bufferSize - tupleBytes.length)
    (printPointer : ℕ → OStringStream → OStringStream) (os : OStringStream) :
    (EventContent.new bufferSize tupleBytes memory formatExpr args order).printArgsTo
        printPointer os =
      printTuple .insert formatExpr (args.map (LogArg.printAddress printPointer)) os := by
  apply new_print_eq hsize h
  intro i arg packed _ hpacked hshows
  refine print_of_shows hshows ?_ printPointer
  rintro text rfl
  exact new_not_literal hsize h hsum i text hpacked

/-- The constructor of an event keeps the contents of its arguments, whatever the order in which
they are packed. -/
theorem new_packsContent (hsize : tupleBytes.length ≤ bufferSize)
    (h : order.Perm (List.range args.length)) :
    PacksContent bufferSize tupleBytes.length memory args order
      (.new bufferSize tupleBytes memory formatExpr args order) := by
  have hok := packOk args hsize memory order
  have htuple := new_tuple memory formatExpr hsize h
  refine ⟨?_, ?_, ?_, ?_, ?_⟩
  · intro l i l' origin horder harg hroom
    refine ⟨new_placed memory formatExpr hsize h horder harg hroom, ?_⟩
    rw [room, packAll_concat, packStep_of_room harg hroom]
    rfl
  · intro l i l' origin horder harg hroom
    refine ⟨?_, ?_⟩
    · rw [new_turn memory formatExpr hsize h horder, packStep_of_no_room harg hroom]
      exact Function.update_self ..
    · rw [room, packAll_concat, packStep_of_no_room harg hroom]
      rfl
  · intro i data size hi
    rw [htuple] at hi
    have hinside := hok.inside i data size hi
    have hroom := hok.room
    omega
  · intro i j data size data' size' hne hi hj
    rw [htuple] at hi hj
    exact hok.disjoint i j data size data' size' hne hi hj
  · intro hsum
    exact ⟨new_not_literal hsize h hsum, new_print hsize h hsum⟩

/-- Two texts in a small buffer, the second one first. -/
theorem new_packsContent_two : PacksContent 8 4 (fun _ => ' ')
    [.text "abc".toList, .text "de".toList] [1, 0] (.new 8 "....".toList (fun _ => ' ') "\x7b\x7d".toList
      [.text "abc".toList, .text "de".toList] [1, 0]) :=
  @new_packsContent 8 "....".toList _ _ _ _ (by decide) (by decide)

/-- `os << p` for a `const void*`. -/
def printHex (address : ℕ) (os : OStringStream) : OStringStream :=
  os.insert (if address = 0 then "0".toList else "0x".toList ++ Nat.toDigits 16 address)

/-- A pointer to characters is printed as an address, although there is room for everything. -/
theorem new_prints_address :
    ([LogArg.pointer 0x1000 (.chars "abc".toList)].map LogArg.length).sum ≤ 16 - 8 ∧
    [0].Perm (List.range 1) ∧
    ((EventContent.new 16 "........".toList (fun _ => ' ') "\x7b\x7d".toList
      [.pointer 0x1000 (.chars "abc".toList)] [0]).printArgsTo printHex
        ⟨0x1002, 6, 0, ' ', 0, ""⟩).str = "0x1000" ∧
    (printTuple .insert "\x7b\x7d".toList
      ([LogArg.pointer 0x1000 (.chars "abc".toList)].map (LogArg.print printHex))
        ⟨0x1002, 6, 0, ' ', 0, ""⟩).str = "abc" := by
  refine ⟨by decide, by decide, by decide, by decide⟩

end Event

end Ihft.Logger
