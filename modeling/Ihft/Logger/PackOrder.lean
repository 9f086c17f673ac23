import Ihft.Lib.Placement
import Ihft.Logger.LoggerExtraData

/-!
# The order in which the arguments are packed

The arguments of the constructor of a `logger_event` are packed in an order that is the compiler's.
The order decides which texts find room, and so what is printed, as soon as the texts that fit one
by one do not fit together (`orderFree_iff`).
-/

namespace Ihft.Logger

open Bytes Placement

/-- The characters of an argument that is a text. -/
def LogArg.origin : LogArg → Option (List Char)
  | text origin => some origin
  | _ => none

/-- The text of an event does not depend on the order in which its arguments are packed. -/
def OrderFree (bufferSize : ℕ) (tupleBytes : List Char) (memory : ℕ → Char)
    (args : List LogArg) : Prop :=
  ∀ formatExpr order order', order.Perm (List.range args.length) →
    order'.Perm (List.range args.length) → ∀ printPointer os,
      ((EventContent.new bufferSize tupleBytes memory formatExpr args order).printArgsTo
        printPointer os).str =
      ((EventContent.new bufferSize tupleBytes memory formatExpr args order').printArgsTo
        printPointer os).str

/-- The bytes that an argument asks for, by its text. -/
def textSize (text : Option (List Char)) : ℕ := (text.map List.length).getD 0

/-- A text that is printed in the same way when it is truncated. -/
def readsTruncated (text : Option (List Char)) : Bool := text = some truncated

/-- The bytes that the texts of the arguments may need: those of every text that fits into the
capacity, and of as many texts that read like a truncated one as fit into it together. -/
def textDemand (capacity : ℕ) (texts : List (Option (List Char))) : ℕ :=
  demand textSize capacity readsTruncated truncated.length texts

/-! ## Room in an order -/

section Order

variable {bufferSize tupleSize : ℕ} {tupleBytes : List Char} {memory : ℕ → Char}
  {formatExpr : List Char} {args : List LogArg} {order : List ℕ}

/-- The text of the argument `i`. -/
def originAt (args : List LogArg) (i : ℕ) : Option (List Char) := args[i]?.bind LogArg.origin

theorem originAt_eq_some {i : ℕ} {origin : List Char} :
    originAt args i = some origin ↔ args[i]? = some (.text origin) := by
  unfold originAt
  cases harg : args[i]? with
  | none => simp
  | some arg => cases arg <;> simp [LogArg.origin]

theorem map_originAt_range (args : List LogArg) :
    (List.range args.length).map (originAt args) = args.map LogArg.origin := by
  apply List.ext_getElem (by simp)
  intro i hi hi'
  rw [List.length_map] at hi'
  simp [originAt, hi']

/-- The calls of `pack` put the texts one after the other into the room behind the tuple. -/
theorem room_eq_rest (done : List ℕ) : room bufferSize tupleSize memory args done =
    rest (textSize ∘ originAt args) (bufferSize - tupleSize) done := by
  induction done using List.reverseRecOn with
  | nil => rfl
  | append_singleton done i ih =>
    rw [rest_append, ← ih, room, packAll_concat, rest, rest_nil, room]
    generalize packAll bufferSize tupleSize memory args done = s
    have hother : originAt args i = none → s.ctx.size =
        if (textSize ∘ originAt args) i ≤ s.ctx.size then
          s.ctx.size - (textSize ∘ originAt args) i else s.ctx.size := fun hnone => by
      simp [hnone, textSize]
    have hpack := packStep_cases args s i
    generalize packStep args s i = s' at hpack
    cases hpack with
    | none harg => exact hother (by simp [originAt, harg])
    | placed origin harg hroom =>
      rw [← originAt_eq_some] at harg
      simp [harg, textSize, hroom, LoggerExtraData.seekBuff]
    | truncated origin harg hroom =>
      rw [← originAt_eq_some] at harg
      simp [harg, textSize, hroom]
    | value print harg => exact hother (by simp [originAt, harg, LogArg.origin])
    | pointer address pointee harg => exact hother (by simp [originAt, harg, LogArg.origin])

/-- Every text that could be placed is placed in every order, up to those that look truncated
anyway. -/
def AllPlaced (capacity : ℕ) (args : List LogArg) : Prop :=
  AlwaysRoom (textSize ∘ originAt args) capacity (readsTruncated ∘ originAt args)
    (List.range args.length)

theorem allPlaced_iff {capacity : ℕ} : AllPlaced capacity args ↔
    textDemand capacity (args.map LogArg.origin) ≤ capacity := by
  have hw : ∀ i ∈ List.range args.length, (readsTruncated ∘ originAt args) i = true →
      (textSize ∘ originAt args) i = truncated.length := by
    intro i _ hi
    have hi : originAt args i = some truncated := of_decide_eq_true hi
    simp [hi, textSize]
  rw [AllPlaced, alwaysRoom_iff hw, demand_map, map_originAt_range, textDemand]

/-- The operator for an argument whose text is placed if it fits. -/
def LogArg.printPlaced (capacity : ℕ) (printPointer : ℕ → OStringStream → OStringStream) :
    LogArg → OStringStream → OStringStream
  | text origin => fun os => os.insert (if origin.length ≤ capacity then origin else truncated)
  | arg => arg.printAddress printPointer

/-- A text is placed if it fits at all, or looks truncated in any case. -/
theorem print_text_of_allPlaced (hsize : tupleBytes.length ≤ bufferSize)
    (h : order.Perm (List.range args.length))
    (hplaced : AllPlaced (bufferSize - tupleBytes.length) args)
    (printPointer : ℕ → OStringStream → OStringStream) {i : ℕ} {origin : List Char}
    {packed : Packed} (harg : args[i]? = some (.text origin))
    (hpacked : (EventContent.new bufferSize tupleBytes memory formatExpr args order).tuple[i]? =
      some packed) :
    packed.print printPointer
        (EventContent.new bufferSize tupleBytes memory formatExpr args order).data =
      LogArg.printPlaced (bufferSize - tupleBytes.length) printPointer (.text origin) := by
  obtain ⟨l, l', horder⟩ := List.append_of_mem (mem_order h harg)
  have horigin := originAt_eq_some.2 harg
  have hrest : room bufferSize tupleBytes.length memory args l =
      rest (textSize ∘ originAt args) (bufferSize - tupleBytes.length) l := room_eq_rest l
  have hle := rest_le (textSize ∘ originAt args) (bufferSize - tupleBytes.length) l
  by_cases hroom : origin.length ≤ room bufferSize tupleBytes.length memory args l
  · obtain ⟨data, hdata, hread⟩ := new_placed memory formatExpr hsize h horder harg hroom
    rw [hdata, Option.some.injEq] at hpacked
    rw [← hpacked]
    simp only [Packed.print, StringView.read, hread, LogArg.printPlaced,
      if_pos (hroom.trans (hrest.trans_le hle))]
  · have hturn := new_turn memory formatExpr hsize h horder
    rw [packStep_of_no_room harg (not_le.1 hroom), hpacked] at hturn
    obtain rfl := Option.some.inj (hturn.trans (Function.update_self ..))
    have hprint : (if origin.length ≤ bufferSize - tupleBytes.length then origin
        else truncated) = truncated := by
      split_ifs with hfits
      · -- a text that fits and finds no room is one that looks truncated
        by_contra hne
        have := hplaced l i l' (horder ▸ h) (by simp [readsTruncated, horigin, hne])
          (by simpa [textSize, horigin] using hfits)
        rw [← hrest, Function.comp_apply, horigin] at this
        exact hroom this
      · rfl
    simp only [Packed.print, StringView.read, LogArg.printPlaced, hprint]

variable (memory formatExpr) in
/-- What is printed then has nothing to do with the order. -/
theorem new_print_of_allPlaced (hsize : tupleBytes.length ≤ bufferSize)
    (h : order.Perm (List.range args.length))
    (hplaced : AllPlaced (bufferSize - tupleBytes.length) args)
    (printPointer : ℕ → OStringStream → OStringStream) (os : OStringStream) :
    (EventContent.new bufferSize tupleBytes memory formatExpr args order).printArgsTo
        printPointer os =
      printTuple .insert formatExpr
        (args.map (LogArg.printPlaced (bufferSize - tupleBytes.length) printPointer)) os := by
  apply new_print_eq hsize h
  intro i arg packed harg hpacked hshows
  cases arg with
  | value print =>
    refine print_of_shows hshows ?_ printPointer
    rintro text rfl
    exact hshows
  | pointer address pointee =>
    refine print_of_shows hshows ?_ printPointer
    rintro text rfl
    exact hshows
  | text origin => exact print_text_of_allPlaced hsize h hplaced printPointer harg hpacked

variable (memory) in
theorem orderFree_of_allPlaced (hsize : tupleBytes.length ≤ bufferSize)
    (h : AllPlaced (bufferSize - tupleBytes.length) args) :
    OrderFree bufferSize tupleBytes memory args := by
  intro formatExpr order order' horder horder' printPointer os
  rw [new_print_of_allPlaced memory formatExpr hsize horder h,
    new_print_of_allPlaced memory formatExpr hsize horder' h]

end Order

/-! ## A format that tells texts apart -/

/-- As many placeholders, and `c` behind each of them. -/
def spread (c : Char) : ℕ → List Char
  | 0 => []
  | n + 1 => '\x7b' :: '\x7d' :: c :: spread c n

theorem reference_cons {c : Char} (hc : c ≠ '\x7b') (expr : List Char) (args : List (List Char)) :
    reference (c :: expr) args = c :: reference expr args := by
  rw [reference]
  rintro rest arg args' - heq -
  exact absurd heq hc

theorem reference_spread {c : Char} (hc : c ≠ '\x7b') (args : List (List Char)) :
    reference (spread c args.length) args = args.flatMap (· ++ [c]) := by
  induction args with
  | nil => rfl
  | cons arg args ih =>
    rw [List.length_cons, spread, reference, reference_cons hc, ih, List.flatMap_cons]
    simp

section Separators

variable {α : Type*} {a b : α}

theorem eq_of_append_cons (hab : a ≠ b) {x y r r' s s' : List α} (ha : x ++ a :: r = y ++ a :: r')
    (hb : x ++ b :: s = y ++ b :: s') : x = y := by
  induction x generalizing y with
  | nil =>
    cases y with
    | nil => rfl
    | cons z y => exact absurd ((List.cons.inj ha).1.trans (List.cons.inj hb).1.symm) hab
  | cons z x ih =>
    cases y with
    | nil => exact absurd ((List.cons.inj ha).1.symm.trans (List.cons.inj hb).1) hab
    | cons z' y =>
      obtain ⟨hz, hrest⟩ := List.cons.inj ha
      rw [hz, ih hrest (List.cons.inj hb).2]

/-- Texts that look alike with either of two separators are the same. -/
theorem eq_of_flatMap_append (hab : a ≠ b) {xs ys : List (List α)} (hlen : xs.length = ys.length)
    (ha : xs.flatMap (· ++ [a]) = ys.flatMap (· ++ [a]))
    (hb : xs.flatMap (· ++ [b]) = ys.flatMap (· ++ [b])) : xs = ys := by
  induction xs generalizing ys with
  | nil => exact (List.eq_nil_of_length_eq_zero hlen.symm).symm
  | cons x xs ih =>
    cases ys with
    | nil => cases hlen
    | cons y ys =>
      simp only [List.flatMap_cons, List.append_assoc, List.singleton_append] at ha hb
      obtain rfl := eq_of_append_cons hab ha hb
      rw [ih (by simpa using hlen) (List.cons.inj (List.append_cancel_left ha)).2
        (List.cons.inj (List.append_cancel_left hb)).2]

end Separators

/-! ## Orders that can be told apart -/

/-- An argument with this text, or one that prints nothing. -/
def LogArg.ofOrigin : Option (List Char) → LogArg
  | some origin => .text origin
  | none => .value fun os => os.insert []

/-- The characters that an element of the tuple shows. -/
def Packed.shown (memory : ℕ → Char) : Packed → List Char
  | view origin => origin.read memory
  | _ => []

section Apart

variable {bufferSize : ℕ} {tupleBytes : List Char} {memory : ℕ → Char} {formatExpr : List Char}
  {texts : List (Option (List Char))} {order order' : List ℕ}

@[simp] theorem origin_ofOrigin (text : Option (List Char)) :
    (LogArg.ofOrigin text).origin = text := by
  cases text <;> rfl

theorem map_origin_ofOrigin (texts : List (Option (List Char))) :
    (texts.map LogArg.ofOrigin).map LogArg.origin = texts := by
  rw [List.map_map]
  exact (List.map_congr_left fun text _ => origin_ofOrigin text).trans (List.map_id _)

theorem print_of_shows_ofOrigin {text : Option (List Char)} {packed : Packed}
    (h : Shows memory (LogArg.ofOrigin text) packed)
    (printPointer : ℕ → OStringStream → OStringStream) :
    packed.print printPointer memory = fun os => os.insert (packed.shown memory) := by
  cases text with
  | none =>
    cases packed with
    | value print =>
      obtain rfl : print = fun os => os.insert [] := h
      rfl
    | view view | pointer address => exact absurd h id
  | some origin =>
    cases packed with
    | view view => rfl
    | value print | pointer address => exact absurd h id

/-- What an event with such arguments shows of them, one after the other. -/
def shownIn (bufferSize : ℕ) (tupleBytes : List Char) (memory : ℕ → Char)
    (texts : List (Option (List Char))) (order : List ℕ) : List (List Char) :=
  let event := EventContent.new bufferSize tupleBytes memory [] (texts.map .ofOrigin) order
  event.tuple.map (Packed.shown event.data)

variable (memory) in
theorem length_shownIn (hsize : tupleBytes.length ≤ bufferSize)
    (h : order.Perm (List.range (texts.map LogArg.ofOrigin).length)) :
    (shownIn bufferSize tupleBytes memory texts order).length = texts.length := by
  rw [shownIn, List.length_map, length_new_tuple memory [] hsize h, List.length_map]

variable (memory formatExpr) in
/-- The text that a good stream gets of such arguments. -/
theorem new_print_ofOrigin (hsize : tupleBytes.length ≤ bufferSize)
    (h : order.Perm (List.range (texts.map LogArg.ofOrigin).length))
    (printPointer : ℕ → OStringStream → OStringStream) {os : OStringStream} (hstate : os.state = 0)
    (hwidth : os.width = 0) :
    (EventContent.new bufferSize tupleBytes memory formatExpr (texts.map .ofOrigin)
        order).printArgsTo printPointer os =
      os.addText (reference formatExpr (shownIn bufferSize tupleBytes memory texts order)) := by
  rw [← printTuple_insert hstate hwidth]
  change printTuple _ formatExpr _ _ = _
  congr 1
  rw [printers, shownIn, List.map_map]
  apply List.map_congr_left
  intro packed hmem
  obtain ⟨i, hi⟩ := List.getElem?_of_mem hmem
  have hlt := (List.getElem?_eq_some_iff.1 hi).1
  rw [length_new_tuple memory formatExpr hsize h, List.length_map] at hlt
  obtain ⟨packed', hpacked', hshows⟩ := new_shows memory formatExpr hsize h
    (show (texts.map LogArg.ofOrigin)[i]? = some (.ofOrigin texts[i]) by simp [hlt])
  obtain rfl := Option.some.inj (hi.symm.trans hpacked')
  exact print_of_shows_ofOrigin hshows printPointer

/-- In all orders the same texts are shown: there are formats that tell them apart. -/
theorem OrderFree.shownIn_eq (hsize : tupleBytes.length ≤ bufferSize)
    (h : OrderFree bufferSize tupleBytes memory (texts.map .ofOrigin))
    (horder : order.Perm (List.range (texts.map LogArg.ofOrigin).length))
    (horder' : order'.Perm (List.range (texts.map LogArg.ofOrigin).length)) :
    shownIn bufferSize tupleBytes memory texts order =
      shownIn bufferSize tupleBytes memory texts order' := by
  have hlen := length_shownIn memory hsize horder
  have hlen' := length_shownIn memory hsize horder'
  have hflat : ∀ c, c ≠ '\x7b' →
      (shownIn bufferSize tupleBytes memory texts order).flatMap (· ++ [c]) =
        (shownIn bufferSize tupleBytes memory texts order').flatMap (· ++ [c]) := by
    intro c hc
    rw [← reference_spread hc, ← reference_spread hc, hlen, hlen']
    have hsame := h (spread c texts.length) order order' horder horder' (fun _ os => os)
      ⟨0, 0, 0, ' ', 0, ""⟩
    rw [new_print_ofOrigin memory _ hsize horder _ rfl rfl,
      new_print_ofOrigin memory _ hsize horder' _ rfl rfl] at hsame
    simpa [OStringStream.addText, String.ofList_inj] using hsame
  exact eq_of_flatMap_append (a := 'a') (b := 'b') (by decide) (hlen.trans hlen'.symm)
    (hflat 'a' (by decide)) (hflat 'b' (by decide))

/-- A text that finds no room in some order is placed where it comes first. -/
theorem OrderFree.allPlaced (hsize : tupleBytes.length ≤ bufferSize)
    (h : OrderFree bufferSize tupleBytes memory (texts.map .ofOrigin)) :
    AllPlaced (bufferSize - tupleBytes.length) (texts.map .ofOrigin) := by
  intro l i l' hperm hlight hfits
  by_contra hlt
  obtain ⟨origin, horigin⟩ : ∃ origin, originAt (texts.map .ofOrigin) i = some origin := by
    cases hi : originAt (texts.map .ofOrigin) i with
    | none =>
      rw [Function.comp_apply, hi] at hlt
      exact absurd (Nat.zero_le _) hlt
    | some origin => exact ⟨origin, rfl⟩
  have harg := originAt_eq_some.1 horigin
  have hrest : room bufferSize tupleBytes.length memory (texts.map .ofOrigin) l =
      rest (textSize ∘ originAt (texts.map .ofOrigin)) (bufferSize - tupleBytes.length) l :=
    room_eq_rest l
  rw [← hrest] at hlt
  rw [Function.comp_apply, horigin] at hlight hfits hlt
  have hperm' : (i :: (l ++ l')).Perm (List.range (texts.map LogArg.ofOrigin).length) :=
    List.perm_middle.symm.trans hperm
  have hturn := new_turn memory [] hsize hperm rfl
  rw [packStep_of_no_room harg (not_le.1 hlt)] at hturn
  replace hturn := hturn.trans (Function.update_self ..)
  obtain ⟨data, hdata, hread⟩ := new_placed memory [] hsize hperm' (l := []) rfl harg hfits
  have hshown := congrArg (·[i]?) (h.shownIn_eq hsize hperm hperm')
  simp only [shownIn, List.getElem?_map, hturn, hdata, Option.map_some, Packed.shown,
    StringView.read, hread, Option.some.injEq] at hshown
  simp [readsTruncated, ← hshown] at hlight

end Apart

/-! ## When the order does not matter -/

/-- The texts of the arguments decide whether the order matters: it does not, whatever the other
arguments are, exactly where all texts that can be placed one by one can be placed together. -/
theorem orderFree_iff {bufferSize : ℕ} {tupleBytes : List Char}
    (hsize : tupleBytes.length ≤ bufferSize) (memory : ℕ → Char)
    (texts : List (Option (List Char))) :
    (∀ args : List LogArg, args.map LogArg.origin = texts →
      OrderFree bufferSize tupleBytes memory args) ↔
    textDemand (bufferSize - tupleBytes.length) texts ≤ bufferSize - tupleBytes.length := by
  constructor
  · intro h
    have hplaced := (h _ (map_origin_ofOrigin texts)).allPlaced hsize
    rwa [allPlaced_iff, map_origin_ofOrigin] at hplaced
  · rintro h args rfl
    exact orderFree_of_allPlaced memory hsize (allPlaced_iff.2 h)

/-- Two texts and a number in a buffer with room for both. -/
theorem orderFree_two : OrderFree 16 "........".toList (fun _ => ' ')
    [.text "abcd".toList, .value fun os => os.insert "1".toList, .text "efg".toList] :=
  (orderFree_iff (by decide) _ [some "abcd".toList, none, some "efg".toList]).2 (by decide) _ rfl

/-- Two texts that fit one by one into the room behind the tuple, and not together. -/
theorem not_orderFree_of_two {bufferSize : ℕ} {tupleBytes : List Char} (memory : ℕ → Char)
    (hsize : tupleBytes.length ≤ bufferSize) {u v : List Char} (hu : u ≠ truncated)
    (hv : v ≠ truncated) (hu' : u.length ≤ bufferSize - tupleBytes.length)
    (hv' : v.length ≤ bufferSize - tupleBytes.length)
    (h : bufferSize - tupleBytes.length < u.length + v.length) :
    ¬ OrderFree bufferSize tupleBytes memory [.text u, .text v] := by
  intro hfree
  have hplaced : AllPlaced (bufferSize - tupleBytes.length) ([some u, some v].map .ofOrigin) :=
    OrderFree.allPlaced hsize hfree
  rw [allPlaced_iff, map_origin_ofOrigin] at hplaced
  have hdemand : textDemand (bufferSize - tupleBytes.length) [some u, some v] =
      u.length + v.length := by
    simp [textDemand, Placement.demand, need, heavy, readsTruncated, textSize, hu, hv, hu', hv']
  omega

/-- In the buffer of an event, behind a tuple of two views. -/
theorem not_orderFree_long : ¬ OrderFree 3968 (List.replicate 32 ' ') (fun _ => ' ')
    [.text (List.replicate 2000 'a'), .text (List.replicate 2000 'b')] := by
  have hne : ∀ c, List.replicate 2000 c ≠ truncated := fun c heq => by
    have hlen := congrArg List.length heq
    rw [List.length_replicate] at hlen
    exact absurd hlen (by decide)
  apply not_orderFree_of_two _ _ (hne 'a') (hne 'b')
  all_goals simp only [List.length_replicate]
  all_goals decide

end Ihft.Logger
