import Ihft.Lib.Search
import Ihft.Logger.LoggerAdapter

/-!
# The text of a log event

`print_tuple` cuts the format at its placeholders, as long as there are arguments for them, and
prints the pieces and the arguments in turn.  `reference` reads the format once from left to right
instead; the two agree (`printTuple_formats`), and so does the counter that checks a format when it
is compiled.
-/

namespace Ihft.Logger

open Search

/-- `"\x7b\x7d"`. -/
def placeholder : List Char := ['\x7b', '\x7d']

@[simp] theorem length_placeholder : placeholder.length = 2 := rfl

/-! ## Printing -/

section Print

variable {S : Type*} (put : S → List Char → S)

/-- The loop over the placeholders; `room` is `tuple_size - count`.  The value is what `array`,
`count` and `from` are behind the loop. -/
def splitLoop (expr : List Char) :
    (room : ℕ) → (array : List (List Char)) → (count start : ℕ) → List (List Char) × ℕ × ℕ
  | 0, array, count, start => (array, count, start)
  | room + 1, array, count, start =>
    match find placeholder expr start with
    | none => (array, count, start)
    | some pos =>
      splitLoop expr room (array.set count ((expr.drop start).take (pos - start))) (count + 1)
        (pos + 2)

/-- The loop for a tuple of the given size. -/
def split (expr : List Char) (tupleSize : ℕ) : List (List Char) × ℕ × ℕ :=
  splitLoop expr tupleSize (List.replicate (tupleSize + 1) []) 0 0

/-- `array`, with the tail of the format behind the last piece. -/
def cells (expr : List Char) (tupleSize : ℕ) : List (List Char) :=
  match split expr tupleSize with
  | (array, count, start) => array.set count (expr.drop start)

/-- `print_tuple_impl`; `put` is the operator for a text, and `t` has the operators for the
arguments. -/
def printTupleImpl (array : List (List Char)) (t : List (S → S)) (os : S) : S :=
  let os := (array.zip t).foldl (fun os x => x.2 (put os x.1)) os
  put os (array.getLastD [])

def printTuple (expr : List Char) (t : List (S → S)) (os : S) : S :=
  printTupleImpl put (cells expr t.length) t os

end Print

namespace OStringStream

/-- What `os << view` adds to the text. -/
def padded (os : OStringStream) (view : List Char) : List Char :=
  let fill := List.replicate (os.width.toNat - view.length) os.fill
  -- `(flags & adjustfield) == left`
  if os.flags &&& 0xb0 = 0x20 then view ++ fill else fill ++ view

/-- `os << view`.  A stream that is not good takes nothing. -/
def insert (os : OStringStream) (view : List Char) : OStringStream :=
  if os.state = 0 then
    { os with str := os.str ++ String.ofList (os.padded view), width := 0 }
  else
    os

end OStringStream

/-! ## Counting -/

/-- The loop of `compiletime_placeholders_count`. -/
def countLoop (view pattern : List Char) : (fuel res pos : ℕ) → Option ℕ
  | 0, _, _ => none
  | fuel + 1, res, pos =>
    match find pattern view pos with
    | none => some res
    | some pos => countLoop view pattern fuel (res + 1) (pos + pattern.length)

/-- The number of tests is enough for every pattern but the empty one, for which the loop does not
end. -/
def compiletimePlaceholdersCount (view pattern : List Char) : Option ℕ :=
  countLoop view pattern (view.length + 1) 0 0

/-! ## The reference -/

/-- The number of placeholders that do not overlap. -/
def placeholders : List Char → ℕ
  | '\x7b' :: '\x7d' :: s => placeholders s + 1
  | _ :: s => placeholders s
  | [] => 0

/-- The format with the arguments for the first placeholders, and the other arguments behind it. -/
def reference : List Char → List (List Char) → List Char
  | '\x7b' :: '\x7d' :: s, arg :: args => arg ++ reference s args
  | c :: s, args => c :: reference s args
  | [], args => args.flatten

/-- The pieces and the arguments in turn. -/
def interleave : List (List Char) → List (List Char) → List Char
  | piece :: array, arg :: args => piece ++ arg ++ interleave array args
  | array, [] => array.flatten
  | [], args => args.flatten

/-! ## The pieces of a format -/

section Split

/-- What the loop leaves in the array, once the tail is there too. -/
theorem splitLoop_spec (expr : List Char) (room : ℕ) (done : List (List Char)) {start : ℕ}
    (h : start ≤ expr.length) :
    ∃ array count start',
      splitLoop expr room (done ++ List.replicate (room + 1) []) done.length start =
        (array, count, start') ∧
      array.set count (expr.drop start') = done ++ pieces placeholder room (expr.drop start) ++
        List.replicate (room + 1 - (pieces placeholder room (expr.drop start)).length) [] ∧
      count + 1 = done.length + (pieces placeholder room (expr.drop start)).length ∧
      start' ≤ expr.length := by
  induction room generalizing done start with
  | zero =>
    refine ⟨_, _, _, rfl, ?_, by simp, h⟩
    simp
  | succ room ih =>
    rw [splitLoop, find_of_le h]
    cases hi : occurrence placeholder (expr.drop start) with
    | none =>
      refine ⟨_, _, _, rfl, ?_, by simp [pieces_of_none hi], h⟩
      simp [pieces_of_none hi, List.replicate_succ]
    | some i =>
      have hlen := length_le_of_occurrence hi
      rw [List.length_drop] at hlen
      have hset : (done ++ List.replicate (room + 1 + 1) []).set done.length
          ((expr.drop start).take (start + i - start)) =
          (done ++ [(expr.drop start).take i]) ++ List.replicate (room + 1) [] := by
        simp [List.replicate_succ, List.append_assoc]
      have hlength : (done ++ [(expr.drop start).take i]).length = done.length + 1 := by simp
      have hle : start + i + 2 ≤ expr.length := by
        rw [length_placeholder] at hlen
        omega
      obtain ⟨array, count, start', hloop, harray, hcount, hstart'⟩ :=
        ih (done ++ [(expr.drop start).take i]) hle
      rw [hlength] at hloop hcount
      simp only [Option.map_some, hset]
      refine ⟨array, count, start', hloop, ?_, ?_, hstart'⟩
      · rw [harray, pieces_of_some hi, List.drop_drop, ← Nat.add_assoc, length_placeholder]
        simp [List.append_assoc]
      · rw [hcount, pieces_of_some hi, List.drop_drop, ← Nat.add_assoc, length_placeholder,
          List.length_cons]
        omega

/-- The array has the pieces of the format first. -/
theorem cells_eq (expr : List Char) (tupleSize : ℕ) :
    cells expr tupleSize = pieces placeholder tupleSize expr ++
      List.replicate (tupleSize + 1 - (pieces placeholder tupleSize expr).length) [] := by
  obtain ⟨array, count, start, hloop, harray, -, -⟩ :=
    splitLoop_spec expr tupleSize [] (Nat.zero_le _)
  rw [cells, split]
  rw [List.nil_append, List.length_nil] at hloop
  rw [hloop]
  exact harray

theorem length_cells (expr : List Char) (tupleSize : ℕ) :
    (cells expr tupleSize).length = tupleSize + 1 := by
  have hle : (pieces placeholder tupleSize expr).length ≤ tupleSize + 1 := length_pieces_le
  rw [cells_eq, List.length_append, List.length_replicate]
  omega

theorem split_count (expr : List Char) (tupleSize : ℕ) :
    (split expr tupleSize).2.1 + 1 = (pieces placeholder tupleSize expr).length := by
  obtain ⟨array, count, start, hloop, -, hcount, -⟩ :=
    splitLoop_spec expr tupleSize [] (Nat.zero_le _)
  rw [List.nil_append, List.length_nil] at hloop
  rw [split, hloop]
  rw [hcount, List.length_nil, Nat.zero_add, List.drop_zero]

/-- A text either begins with a placeholder or does not, and is read accordingly. -/
theorem pieces_placeholder_cons {c : Char} {s : List Char} {n : ℕ}
    (h : ∀ s', c = '\x7b' → s ≠ '\x7d' :: s') :
    pieces placeholder n (c :: s) = (pieces placeholder n s).modifyHead (c :: ·) := by
  apply pieces_cons
  rintro ⟨rest, heq⟩
  simp only [placeholder, List.cons_append, List.nil_append, List.cons.injEq] at heq
  exact h rest heq.1.symm heq.2.symm

theorem pieces_placeholder (n : ℕ) (s : List Char) :
    pieces placeholder (n + 1) ('\x7b' :: '\x7d' :: s) = [] :: pieces placeholder n s :=
  pieces_of_isPrefix ⟨s, rfl⟩

theorem length_pieces_placeholder (n : ℕ) (s : List Char) :
    (pieces placeholder n s).length = min n (placeholders s) + 1 := by
  fun_induction placeholders s generalizing n with
  | case1 s ih =>
    cases n with
    | zero => simp
    | succ n =>
      rw [pieces_placeholder, List.length_cons, ih]
      omega
  | case2 c s hno ih =>
    rw [pieces_placeholder_cons fun s' hc hs => hno s' hc hs, List.length_modifyHead, ih]
  | case3 => rw [pieces_of_none (by rfl), List.length_singleton, Nat.min_zero]

@[simp] theorem interleave_nil_right (array : List (List Char)) :
    interleave array [] = array.flatten := by
  cases array <;> rfl

@[simp] theorem interleave_nil_left (args : List (List Char)) :
    interleave [] args = args.flatten := by
  cases args <;> rfl

theorem interleave_modifyHead {array : List (List Char)} (h : array ≠ []) (c : Char)
    (args : List (List Char)) :
    interleave (array.modifyHead (c :: ·)) args = c :: interleave array args := by
  cases array with
  | nil => exact absurd rfl h
  | cons piece array => cases args <;> simp [interleave]

/-- Empty pieces at the end print nothing. -/
theorem interleave_replicate (array : List (List Char)) (k : ℕ) (args : List (List Char)) :
    interleave (array ++ List.replicate k []) args = interleave array args := by
  induction array generalizing args with
  | nil =>
    rw [List.nil_append, interleave_nil_left]
    induction k generalizing args with
    | zero => rw [List.replicate_zero, interleave_nil_left]
    | succ k ih =>
      cases args with
      | nil => simp
      | cons arg args =>
        rw [List.replicate_succ, interleave, ih, List.flatten_cons, List.nil_append]
  | cons piece array ih =>
    cases args with
    | nil => simp
    | cons arg args => rw [List.cons_append, interleave, interleave, ih]

/-- The reference prints the pieces and the arguments in turn. -/
theorem reference_eq (expr : List Char) (args : List (List Char)) :
    reference expr args = interleave (pieces placeholder args.length expr) args := by
  fun_induction reference expr args with
  | case1 s arg args ih =>
    rw [List.length_cons, pieces_placeholder, interleave, List.nil_append, ih]
  | case2 c s args hno ih =>
    rw [ih]
    cases args with
    | nil => simp
    | cons arg args =>
      rw [pieces_placeholder_cons fun s' hc hs => hno s' arg args rfl hc hs,
        interleave_modifyHead pieces_ne_nil]
  | case3 args =>
    rw [pieces_of_none (by rfl)]
    cases args <;> simp [interleave]

/-! ## What is printed -/

/-- Print into a text. -/
def append (text view : List Char) : List Char := text ++ view

/-- The operators for arguments that are texts. -/
def printers {S : Type*} (put : S → List Char → S) (args : List (List Char)) : List (S → S) :=
  args.map fun arg os => put os arg

theorem printTupleImpl_append {array args : List (List Char)} (h : array.length = args.length + 1)
    (text : List Char) :
    printTupleImpl append array (printers append args) text = text ++ interleave array args := by
  induction args generalizing array text with
  | nil =>
    obtain ⟨piece, rfl⟩ := List.length_eq_one_iff.1 h
    simp [printTupleImpl, printers, append]
  | cons arg args ih =>
    cases array with
    | nil => simp at h
    | cons piece array =>
      rw [List.length_cons, List.length_cons, Nat.add_right_cancel_iff] at h
      have hrest := ih h (text ++ piece ++ arg)
      have hne : array ≠ [] := List.ne_nil_of_length_eq_add_one h
      obtain ⟨piece', array, rfl⟩ := List.exists_cons_of_ne_nil hne
      rw [interleave, ← List.append_assoc, ← List.append_assoc, ← hrest]
      rfl

/-- Streams on which a text can be printed in the place of another kind of stream. -/
theorem printTupleImpl_hom {S S' : Type*} {put : S → List Char → S} {put' : S' → List Char → S'}
    {f : S → S'} (hf : ∀ os view, f (put os view) = put' (f os) view)
    (array args : List (List Char)) (os : S) :
    f (printTupleImpl put array (printers put args) os) =
      printTupleImpl put' array (printers put' args) (f os) := by
  unfold printTupleImpl
  simp only [hf]
  congr 1
  generalize array = cells
  induction args generalizing cells os with
  | nil => simp [printers]
  | cons arg args ih =>
    cases cells with
    | nil => simp
    | cons piece cells =>
      have hrest := ih (put (put os piece) arg) cells
      rw [hf, hf] at hrest
      exact hrest

namespace OStringStream

/-- The stream with more text. -/
def addText (os : OStringStream) (text : List Char) : OStringStream :=
  { os with str := os.str ++ String.ofList text }

/-- A good stream takes a text as it is when no width is set. -/
theorem insert_addText {os : OStringStream} (hstate : os.state = 0) (hwidth : os.width = 0)
    (text view : List Char) : (os.addText text).insert view = os.addText (text ++ view) := by
  have hpadded : (os.addText text).padded view = view := by
    simp [padded, addText, hwidth]
  unfold insert
  rw [if_pos (show (os.addText text).state = 0 from hstate), hpadded]
  simp [addText, hwidth, String.append_assoc]

end OStringStream

end Split

/-! ## The count -/

section Count

variable {view : List Char} {i : ℕ}

theorem placeholders_of_none (h : occurrence placeholder view = none) : placeholders view = 0 := by
  have hlen := length_pieces_placeholder (placeholders view) view
  rw [pieces_of_none h, List.length_singleton, Nat.min_self] at hlen
  omega

theorem placeholders_of_some (h : occurrence placeholder view = some i) :
    placeholders view = placeholders (view.drop (i + 2)) + 1 := by
  have hlen :=
    length_pieces_placeholder (placeholders view + placeholders (view.drop (i + 2)) + 1) view
  rw [pieces_of_some h, List.length_cons, length_pieces_placeholder, length_placeholder] at hlen
  omega

theorem countLoop_eq {fuel res pos : ℕ} (hpos : pos ≤ view.length)
    (hfuel : view.length < fuel + pos) :
    countLoop view placeholder fuel res pos = some (res + placeholders (view.drop pos)) := by
  induction fuel generalizing res pos with
  | zero => omega
  | succ fuel ih =>
    rw [countLoop, find_of_le hpos]
    cases hi : occurrence placeholder (view.drop pos) with
    | none =>
      rw [placeholders_of_none hi]
      rfl
    | some i =>
      have hlen := length_le_of_occurrence hi
      rw [List.length_drop, length_placeholder] at hlen
      simp only [Option.map_some, length_placeholder]
      rw [ih (by omega) (by omega), placeholders_of_some hi, List.drop_drop]
      congr 1
      rw [Nat.add_assoc pos i 2]
      omega

/-- The loop of the compile time counts the placeholders. -/
theorem compiletimePlaceholdersCount_eq (view : List Char) :
    compiletimePlaceholdersCount view placeholder = some (placeholders view) := by
  rw [compiletimePlaceholdersCount, countLoop_eq (Nat.zero_le _) (by omega), List.drop_zero,
    Nat.zero_add]

end Count

/-! ## Formats and arguments -/

theorem split_count_eq (expr : List Char) (tupleSize : ℕ) :
    (split expr tupleSize).2.1 = min tupleSize (placeholders expr) := by
  have hcount := split_count expr tupleSize
  rw [length_pieces_placeholder] at hcount
  omega

theorem printTuple_append (expr text : List Char) (args : List (List Char)) :
    printTuple append expr (printers append args) text = text ++ reference expr args := by
  have hlen : (printers append args).length = args.length := List.length_map _
  rw [printTuple, hlen, printTupleImpl_append (length_cells expr _), cells_eq, interleave_replicate,
    reference_eq]

theorem printTuple_insert {os : OStringStream} (hstate : os.state = 0) (hwidth : os.width = 0)
    (expr : List Char) (args : List (List Char)) :
    printTuple .insert expr (printers .insert args) os = os.addText (reference expr args) := by
  have htext := printTuple_append expr [] args
  have hlen : (printers OStringStream.insert args).length = args.length := List.length_map _
  have hlen' : (printers append args).length = args.length := List.length_map _
  have hnil : os.addText [] = os := by simp [OStringStream.addText]
  rw [printTuple, hlen'] at htext
  rw [← List.nil_append (reference expr args), ← htext, printTuple, hlen]
  have hhom : ∀ text view, os.addText (append text view) = (os.addText text).insert view :=
    fun text view => (OStringStream.insert_addText hstate hwidth text view).symm
  rw [printTupleImpl_hom hhom, hnil]

/-- How a format and arguments are printed. -/
structure Formats (expr : List Char) (args : List (List Char)) : Prop where
  text : ∀ text, printTuple append expr (printers append args) text = text ++ reference expr args
  /-- The same on a stream that is good and has no width set. -/
  stream : ∀ os : OStringStream, os.state = 0 → os.width = 0 →
    printTuple .insert expr (printers .insert args) os = os.addText (reference expr args)
  replaced : (split expr args.length).2.1 = min args.length (placeholders expr)
  /-- A format that passed the check of the compile time is cut at all its placeholders, and all
  arguments are printed between the pieces. -/
  checked : compiletimePlaceholdersCount expr placeholder = some args.length →
    (split expr args.length).2.1 = args.length ∧ ∃ array : List (List Char),
      array.length = args.length + 1 ∧ (∀ piece ∈ array, ¬ placeholder <:+: piece) ∧
      expr = placeholder.intercalate array ∧ reference expr args = interleave array args

/-- `print_tuple` prints what the reference says, for every format and all arguments. -/
theorem printTuple_formats (expr : List Char) (args : List (List Char)) : Formats expr args where
  text text := printTuple_append expr text args
  stream os hstate hwidth := printTuple_insert hstate hwidth expr args
  replaced := split_count_eq expr args.length
  checked hcount := by
    rw [compiletimePlaceholdersCount_eq, Option.some.injEq] at hcount
    have hlen := length_pieces_placeholder args.length expr
    rw [hcount, Nat.min_self] at hlen
    refine ⟨by rw [split_count_eq, hcount, Nat.min_self], pieces placeholder args.length expr, hlen,
      ?_, intercalate_pieces.symm, reference_eq expr args⟩
    -- one more piece would be possible, were there one more placeholder
    have hmore := length_pieces_placeholder (args.length + 1) expr
    have hsame : pieces placeholder (args.length + 1) expr = pieces placeholder args.length expr :=
      pieces_eq_of_length_le (by rw [hmore, hcount]; omega)
    rw [← hsame]
    apply not_infix_of_mem_pieces (by simp [placeholder])
    rw [hmore, hcount]
    omega

example : reference "'\x7b\x7d' and \x7b\x7d.".toList ["a".toList, "b".toList, "c".toList] =
    "'a' and b.c".toList := by decide

end Ihft.Logger
