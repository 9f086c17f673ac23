import Ihft.Lib.Decimal
import Ihft.Logger.Dispatch
import Ihft.Logger.PrintTuple

/-!
# The time in front of an event

`time_point_to_stream` prints the whole seconds of a time point with `put_time`, and the rest as a
number of microseconds.  What `gmtime` and `put_time` make of the seconds is a parameter.
-/

namespace Ihft.Logger

open Decimal

/-- `time_point_t`: the nanoseconds since the epoch. -/
abbrev TimePoint := Int64

namespace OStringStream

/-- `os << v` for a `long`, with flags for decimal numbers without a plus sign. -/
def insertLong (os : OStringStream) (v : ℤ) : OStringStream :=
  os.insert ((if v < 0 then ['-'] else []) ++ Nat.toDigits 10 v.natAbs)

/-- `os << std::put_time(tm, ..)`. -/
def insertTime (os : OStringStream) (tm : List Char) : OStringStream :=
  if os.state = 0 then os.addText tm else os

end OStringStream

/-- `time_point_to_stream`; `putTime` has the text of the seconds, if `gmtime` knows them. -/
def timePointToStream (putTime : ℤ → Option (List Char)) (os : OStringStream) (tp : TimePoint) :
    OStringStream :=
  let durS := tp.toInt.tdiv 1000000000
  match putTime durS with
  | none => os
  | some tm =>
    let os := os.insertTime tm
    let durMs := tp.toInt.tdiv 1000
    let os := { os with width := 3, fill := '0' }.insertLong (durMs - durS * 1000000)
    os.insert " ".toList

/-! ## What is printed -/

/-- A stream as `dispatch` has it for the next event, without an error. -/
structure OStringStream.Plain (os : OStringStream) : Prop where
  flags : os.flags = 0x1002
  state : os.state = 0
  str : os.str = ""

/-- The seconds of the time points at or after the epoch. -/
def Seconds (s : ℤ) : Prop := 0 ≤ s ∧ s ≤ 9223372036

/-- The seconds are rendered up to a dot, in texts of one length and in their order. -/
structure Faithful (putTime : ℤ → Option (List Char)) : Prop where
  dot : ∀ s, Seconds s → ∃ text, putTime s = some (text ++ ['.'])
  length : ∀ s s' text text', Seconds s → Seconds s' → putTime s = some text →
    putTime s' = some text' → text.length = text'.length
  mono : ∀ s s' text text', Seconds s → Seconds s' → putTime s = some text →
    putTime s' = some text' → s < s' → text < text'

/-- The microseconds since the epoch. -/
def micros (tp : TimePoint) : ℕ := tp.toInt.toNat / 1000

section Print

variable {putTime : ℤ → Option (List Char)} {os : OStringStream} {tp : TimePoint}

theorem seconds_micros (tp : TimePoint) : Seconds (micros tp / 1000000 : ℕ) := by
  have hlt := tp.toInt_lt
  unfold micros
  constructor <;> omega

/-- A number that is not negative is filled up with zeros. -/
theorem insertLong_pad (os : OStringStream) (hflags : os.flags = 0x1002) (hstate : os.state = 0)
    (w n : ℕ) : { os with width := w, fill := '0' }.insertLong n =
      { os with width := 0, fill := '0', str := os.str ++ String.ofList (pad w n) } := by
  have hadjust : ¬ (0x1002 : ℕ) &&& 0xb0 = 0x20 := by decide
  have hneg : ¬ (n : ℤ) < 0 := by omega
  simp only [OStringStream.insertLong, OStringStream.insert, OStringStream.padded, hstate, hflags,
    if_neg hadjust, if_neg hneg, List.nil_append, Int.natAbs_natCast, Int.toNat_natCast, if_true,
    pad]

theorem str_timePointToStream (hos : os.Plain) (h : 0 ≤ tp.toInt) {text : List Char}
    (htext : putTime (micros tp / 1000000 : ℕ) = some text) :
    (timePointToStream putTime os tp).str =
      String.ofList (text ++ pad 3 (micros tp % 1000000) ++ [' ']) := by
  have hsecs : tp.toInt.tdiv 1000000000 = (micros tp / 1000000 : ℕ) := by
    rw [Int.tdiv_eq_ediv_of_nonneg h, micros]
    omega
  have hfrac : tp.toInt.tdiv 1000 - (micros tp / 1000000 : ℕ) * 1000000 =
      (micros tp % 1000000 : ℕ) := by
    rw [Int.tdiv_eq_ediv_of_nonneg h, micros]
    omega
  have hlong := insertLong_pad (os.addText text) hos.flags hos.state 3 (micros tp % 1000000)
  unfold timePointToStream
  simp only [hsecs, htext, hfrac, OStringStream.insertTime, if_pos hos.state]
  rw [show (3 : ℤ) = (3 : ℕ) from rfl, hlong]
  simp [OStringStream.insert, OStringStream.padded, OStringStream.addText, hos.state, hos.str,
    String.append_assoc]

/-- The digits behind the last dot. -/
def fractionDigits (out : String) : List Char :=
  ((out.toList.reverse.takeWhile (· ≠ '.')).reverse).takeWhile Char.isDigit

theorem fractionDigits_ofList {text : List Char} {w n : ℕ} :
    fractionDigits (String.ofList (text ++ ['.'] ++ pad w n ++ [' '])) = pad w n := by
  have hdot : ∀ c ∈ (pad w n ++ [' ']).reverse, decide (c ≠ '.') = true := by
    intro c hc
    rw [List.mem_reverse, List.mem_append, List.mem_singleton] at hc
    rcases hc with hc | rfl
    · have hdigit := digits_pad c hc
      refine decide_eq_true ?_
      rintro rfl
      exact absurd hdigit (by decide)
    · decide
  have hreverse : (text ++ ['.'] ++ pad w n ++ [' ']).reverse =
      (pad w n ++ [' ']).reverse ++ '.' :: text.reverse := by simp
  rw [fractionDigits, String.toList_ofList, hreverse, List.takeWhile_append_of_pos hdot,
    List.takeWhile_cons_of_neg (by decide), List.append_nil, List.reverse_reverse,
    List.takeWhile_append_of_pos digits_pad, List.takeWhile_cons_of_neg (by decide),
    List.append_nil]

/-- The microseconds of the second are none, or a number of six digits. -/
def Readable (tp : TimePoint) : Prop :=
  micros tp % 1000000 = 0 ∨ 100000 ≤ micros tp % 1000000

theorem length_pad_micros {n : ℕ} (h : n < 1000000) : (pad 3 n).length = 6 ↔ 100000 ≤ n := by
  constructor
  · intro hlen
    by_contra hlt
    have hle := length_pad_le (k := 5) (not_le.1 hlt) (by decide) (by decide : 3 ≤ 5)
    omega
  · intro hge
    have hle := length_pad_le (k := 6) h (by decide) (by decide : 3 ≤ 6)
    have hlt := lt_length_pad (w := 3) (k := 5) hge
    omega

theorem reads_iff : fraction (pad 3 (micros tp % 1000000)) = (micros tp % 1000000 : ℕ) / 10 ^ 6 ↔
    Readable tp := by
  have hiff := fraction_eq_iff (l := pad 3 (micros tp % 1000000)) (k := 6)
  rw [value_pad] at hiff
  rw [hiff, length_pad_micros (Nat.mod_lt _ (by decide)), Readable]

end Print

/-! ## The order of the texts -/

section Order

variable {putTime : ℤ → Option (List Char)} {os : OStringStream} {t₁ t₂ : TimePoint}

/-- Numbers that are readable as fractions are in the order of their texts. -/
theorem pad_lt_pad_iff {m n : ℕ} (hm : m < 1000000) (hn : n < 1000000) (hm' : m = 0 ∨ 100000 ≤ m)
    (hn' : n = 0 ∨ 100000 ≤ n) : pad 3 m ++ [' '] < pad 3 n ++ [' '] ↔ m < n := by
  have hsame (hlen : (pad 3 m).length = (pad 3 n).length) :
      pad 3 m ++ [' '] < pad 3 n ++ [' '] ↔ m < n := by
    rw [pad_append_lt_iff hlen]
    simp
  have hzero {k : ℕ} (hk : k < 1000000) (hge : 100000 ≤ k) :
      pad 3 0 ++ [' '] < pad 3 k ++ [' '] := by
    refine zero_lt_append digits_pad ?_ _ _
    rw [(length_pad_micros hk).2 hge, value_pad]
    omega
  rcases hm' with rfl | hm' <;> rcases hn' with rfl | hn'
  · exact hsame rfl
  · exact iff_of_true (hzero hn hn') (by omega)
  · exact iff_of_false (hzero hm hm').asymm (by omega)
  · exact hsame (((length_pad_micros hm).2 hm').trans ((length_pad_micros hn).2 hn').symm)

section Seconds

variable {s s' : ℤ} {text text' : List Char}

theorem Faithful.lt_iff (h : Faithful putTime) (hs : Seconds s) (hs' : Seconds s')
    (htext : putTime s = some text) (htext' : putTime s' = some text') :
    text < text' ↔ s < s' := by
  rcases lt_trichotomy s s' with hlt | rfl | hgt
  · exact iff_of_true (h.mono _ _ _ _ hs hs' htext htext' hlt) hlt
  · cases htext.symm.trans htext'
    exact iff_of_false (lt_irrefl _) (lt_irrefl _)
  · exact iff_of_false (h.mono _ _ _ _ hs' hs htext' htext hgt).asymm hgt.asymm

theorem Faithful.eq_iff (h : Faithful putTime) (hs : Seconds s) (hs' : Seconds s')
    (htext : putTime s = some text) (htext' : putTime s' = some text') :
    text = text' ↔ s = s' := by
  have hlt := h.lt_iff hs hs' htext htext'
  have hgt := h.lt_iff hs' hs htext' htext
  constructor
  · rintro rfl
    exact le_antisymm (not_lt.1 (hgt.not.1 (lt_irrefl _))) (not_lt.1 (hlt.not.1 (lt_irrefl _)))
  · rintro rfl
    exact Option.some.inj (htext.symm.trans htext')

end Seconds

/-- The text of a time point is that of its seconds and that of its microseconds. -/
theorem toList_timePointToStream (h : Faithful putTime) (hos : os.Plain) {tp : TimePoint}
    (htp : 0 ≤ tp.toInt) : ∃ text, putTime (micros tp / 1000000 : ℕ) = some (text ++ ['.']) ∧
      (timePointToStream putTime os tp).str.toList =
        (text ++ ['.']) ++ (pad 3 (micros tp % 1000000) ++ [' ']) := by
  obtain ⟨text, htext⟩ := h.dot _ (seconds_micros tp)
  refine ⟨text, htext, ?_⟩
  rw [str_timePointToStream hos htp htext, String.toList_ofList, List.append_assoc]

/-- The texts of two time points are the same exactly if the microseconds are. -/
theorem str_eq_iff (h : Faithful putTime) (hos : os.Plain) (h₁ : 0 ≤ t₁.toInt)
    (h₂ : 0 ≤ t₂.toInt) :
    (timePointToStream putTime os t₁).str = (timePointToStream putTime os t₂).str ↔
      micros t₁ = micros t₂ := by
  have hs₁ := seconds_micros t₁
  have hs₂ := seconds_micros t₂
  obtain ⟨text₁, htext₁, hstr₁⟩ := toList_timePointToStream h hos h₁
  obtain ⟨text₂, htext₂, hstr₂⟩ := toList_timePointToStream h hos h₂
  have hlength := h.length _ _ _ _ hs₁ hs₂ htext₁ htext₂
  have hseconds := h.eq_iff hs₁ hs₂ htext₁ htext₂
  rw [← String.toList_inj, hstr₁, hstr₂]
  constructor
  · intro heq
    obtain ⟨htext, hrest⟩ := List.append_inj heq hlength
    have hfrac := pad_inj.1 (List.append_cancel_right hrest)
    have hsecs := hseconds.1 htext
    omega
  · intro heq
    rw [heq, hseconds.2 (by rw [heq])]

/-- The texts of readable time points are in the order of the microseconds. -/
theorem str_lt_iff (h : Faithful putTime) (hos : os.Plain) (h₁ : 0 ≤ t₁.toInt)
    (h₂ : 0 ≤ t₂.toInt) (hread₁ : Readable t₁) (hread₂ : Readable t₂) :
    (timePointToStream putTime os t₁).str < (timePointToStream putTime os t₂).str ↔
      micros t₁ < micros t₂ := by
  have hs₁ := seconds_micros t₁
  have hs₂ := seconds_micros t₂
  obtain ⟨text₁, htext₁, hstr₁⟩ := toList_timePointToStream h hos h₁
  obtain ⟨text₂, htext₂, hstr₂⟩ := toList_timePointToStream h hos h₂
  have hlength := h.length _ _ _ _ hs₁ hs₂ htext₁ htext₂
  have hmod : ∀ n : ℕ, n % 1000000 < 1000000 := fun n => Nat.mod_lt n (by decide)
  rw [String.lt_iff_toList_lt, hstr₁, hstr₂, append_lt_append_iff hlength,
    h.lt_iff hs₁ hs₂ htext₁ htext₂, h.eq_iff hs₁ hs₂ htext₁ htext₂,
    pad_lt_pad_iff (hmod _) (hmod _) hread₁ hread₂]
  omega

/-- The text of a time point has its microseconds as a fraction. -/
def Reads (putTime : ℤ → Option (List Char)) (os : OStringStream) (tp : TimePoint) : Prop :=
  fraction (fractionDigits (timePointToStream putTime os tp).str) =
    (micros tp % 1000000 : ℕ) / 10 ^ 6

/-- The texts of two time points have their microseconds, and compare as they do. -/
structure Determines (putTime : ℤ → Option (List Char)) (os : OStringStream)
    (t₁ t₂ : TimePoint) : Prop where
  reads₁ : Reads putTime os t₁
  reads₂ : Reads putTime os t₂
  same : (timePointToStream putTime os t₁).str = (timePointToStream putTime os t₂).str ↔
    micros t₁ = micros t₂
  order : (timePointToStream putTime os t₁).str < (timePointToStream putTime os t₂).str ↔
    micros t₁ < micros t₂

theorem reads_iff_readable (h : Faithful putTime) (hos : os.Plain) {tp : TimePoint}
    (htp : 0 ≤ tp.toInt) : Reads putTime os tp ↔ Readable tp := by
  obtain ⟨text, htext⟩ := h.dot _ (seconds_micros tp)
  rw [Reads, str_timePointToStream hos htp htext, fractionDigits_ofList, reads_iff]

/-- The printed time determines the time exactly for time points whose microseconds need no zero in
front of them.  Different times always have different texts. -/
theorem determines_iff_readable (h : Faithful putTime) (hos : os.Plain) (h₁ : 0 ≤ t₁.toInt)
    (h₂ : 0 ≤ t₂.toInt) :
    (Determines putTime os t₁ t₂ ↔ Readable t₁ ∧ Readable t₂) ∧
    ((timePointToStream putTime os t₁).str = (timePointToStream putTime os t₂).str ↔
      micros t₁ = micros t₂) := by
  have hreads₁ := reads_iff_readable h hos h₁
  have hreads₂ := reads_iff_readable h hos h₂
  have hsame := str_eq_iff h hos h₁ h₂
  refine ⟨⟨fun hdet => ⟨hreads₁.1 hdet.reads₁, hreads₂.1 hdet.reads₂⟩, fun hread => ?_⟩, hsame⟩
  exact ⟨hreads₁.2 hread.1, hreads₂.2 hread.2, hsame, str_lt_iff h hos h₁ h₂ hread.1 hread.2⟩

end Order

/-! ## A calendar -/

/-- A date, as if all months had 31 days; so January 1970 is as it is. -/
def calendarDate (n : ℕ) : List Char :=
  let days := n / 86400
  pad 4 (1970 + days / 372) ++ '-' :: (pad 2 (1 + days / 31 % 12) ++ '-' ::
    (pad 2 (1 + days % 31) ++ ' ' :: (pad 2 (n / 3600 % 24) ++ ':' :: (pad 2 (n / 60 % 60) ++ ':' ::
      pad 2 (n % 60)))))

def calendar (s : ℤ) : Option (List Char) := some ("GMT ".toList ++ calendarDate s.toNat ++ ['.'])

section Calendar

variable {m n : ℕ}

theorem length_calendarDate (h : n ≤ 9223372036) : (calendarDate n).length = 19 := by
  have hyear : (pad 4 (1970 + n / 86400 / 372)).length = 4 :=
    length_pad_of_lt (by omega) (by decide)
  have htwo {k : ℕ} (hk : k < 10 ^ 2) : (pad 2 k).length = 2 := length_pad_of_lt hk (by decide)
  simp only [calendarDate, List.length_append, List.length_cons, hyear]
  rw [htwo (by omega), htwo (by omega), htwo (by omega), htwo (by omega), htwo (by omega)]

/-- A field of the date. -/
theorem field_lt_iff {w : ℕ} {c : Char} {x y : List Char} (hw : 0 < w) (hm : m < 10 ^ w)
    (hn : n < 10 ^ w) : pad w m ++ c :: x < pad w n ++ c :: y ↔ m < n ∨ m = n ∧ x < y := by
  rw [pad_append_lt_iff ((length_pad_of_lt hm hw).trans (length_pad_of_lt hn hw).symm)]
  simp

theorem calendarDate_lt (hm : m ≤ 9223372036) (hn : n ≤ 9223372036) (h : m < n) :
    calendarDate m < calendarDate n := by
  unfold calendarDate
  have hlast : (pad 2 (m % 60)).length = (pad 2 (n % 60)).length :=
    (length_pad_of_lt (by omega) (by decide)).trans (length_pad_of_lt (by omega) (by decide)).symm
  rw [field_lt_iff (by decide) (by omega) (by omega), field_lt_iff (by decide) (by omega) (by omega),
    field_lt_iff (by decide) (by omega) (by omega), field_lt_iff (by decide) (by omega) (by omega),
    field_lt_iff (by decide) (by omega) (by omega), pad_lt_iff hlast]
  have hminutes : ∀ k : ℕ, k / 60 / 60 = k / 3600 := fun k => Nat.div_div_eq_div_mul k 60 60
  have hhours : ∀ k : ℕ, k / 3600 / 24 = k / 86400 := fun k => Nat.div_div_eq_div_mul k 3600 24
  have hmonths : ∀ k : ℕ, k / 31 / 12 = k / 372 := fun k => Nat.div_div_eq_div_mul k 31 12
  have hm₁ := hminutes m
  have hm₂ := hhours m
  have hm₃ := hmonths (m / 86400)
  have hn₁ := hminutes n
  have hn₂ := hhours n
  have hn₃ := hmonths (n / 86400)
  omega

end Calendar

theorem calendar_faithful : Faithful calendar where
  dot s _ := ⟨_, rfl⟩
  length s s' text text' hs hs' htext htext' := by
    cases htext
    cases htext'
    rw [List.length_append, List.length_append, List.length_append, List.length_append,
      length_calendarDate (Int.toNat_le.2 hs.2), length_calendarDate (Int.toNat_le.2 hs'.2)]
  mono s s' text text' hs hs' htext htext' hlt := by
    cases htext
    cases htext'
    have hlength : (calendarDate s.toNat).length = (calendarDate s'.toNat).length := by
      rw [length_calendarDate (Int.toNat_le.2 hs.2), length_calendarDate (Int.toNat_le.2 hs'.2)]
    have hdate := calendarDate_lt (Int.toNat_le.2 hs.2) (Int.toNat_le.2 hs'.2)
      ((Int.toNat_lt_toNat (hs.1.trans_lt hlt)).2 hlt)
    rw [append_lt_append_iff (by simp [hlength]), append_lt_append_iff rfl]
    exact .inl (.inr ⟨rfl, hdate⟩)

theorem plainStream_plain : plainStream.Plain := ⟨rfl, rfl, rfl⟩

/-- A quarter and a half of a second. -/
theorem determines_iff_readable_half : Determines calendar plainStream 250000000 500000000 := by
  refine (determines_iff_readable calendar_faithful plainStream_plain (by decide) (by decide)).1.2 ?_
  exact ⟨.inr (by decide), .inr (by decide)⟩

/-- Five milliseconds are printed as half a second, and behind forty milliseconds. -/
theorem timePoint_misread : Faithful calendar ∧
    (timePointToStream calendar plainStream 5000000).str = "GMT 1970-01-01 00:00:00.5000 " ∧
    (timePointToStream calendar plainStream 40000000).str = "GMT 1970-01-01 00:00:00.40000 " ∧
    ¬ Determines calendar plainStream 5000000 40000000 := by
  refine ⟨calendar_faithful, by decide, by decide, fun hdet => ?_⟩
  have hread := (reads_iff_readable calendar_faithful plainStream_plain (by decide)).1 hdet.reads₁
  exact absurd hread (by unfold Readable; decide)

end Ihft.Logger
