import Ihft.Logger.Dispatch
import Ihft.Logger.PrintTuple

/-!
# The stream between two events

Before an event is formatted, `dispatch` resets the flags, the precision, the width and the text of
the stream, but neither its fill character nor its error state.  The printer of an event may do
anything to the stream.  The texts do not depend on the events before them as long as these leave
the fill character and the error state as they were (`independent_of_harmless`).
-/

namespace Ihft.Logger

open Observe GuardedBroadcast Channel

/-- What printing an event does to the stream. -/
abbrev Printer := OStringStream → OStringStream

/-- On the stream as it was at first, the printer leaves what is not reset. -/
def Harmless (sstream : OStringStream) (p : Printer) : Prop :=
  (p { sstream with str := "" }).fill = sstream.fill ∧
    (p { sstream with str := "" }).state = sstream.state

/-- The events that were formatted, in order. -/
def takenContents {δ ε : Type*} (log : List (AdapterObs δ ε)) : List ε :=
  log.filterMap fun
    | .taken _ _ event _ => event.map fun x => x.value.content
    | _ => none

/-- Every text passed on is the one of its event on the stream as it was at first. -/
def Independent {δ ε : Type*} (print : ε → Printer) (sstream : OStringStream)
    (log : List (AdapterObs δ ε)) : Prop :=
  ∀ d c event listener text, .notified d c event listener text ∈ log →
    IsFreshText print sstream event text

/-! ## Printers -/

section Printers

variable {sstream os : OStringStream}

/-- The printer leaves the fill character and the error state of every stream. -/
def Keeps (p : Printer) : Prop := ∀ os, (p os).fill = os.fill ∧ (p os).state = os.state

theorem Keeps.harmless {p : Printer} (h : Keeps p) (sstream : OStringStream) :
    Harmless sstream p := h _

theorem Keeps.comp {p q : Printer} (hp : Keeps p) (hq : Keeps q) : Keeps fun os => q (p os) :=
  fun os => ⟨(hq (p os)).1.trans (hp os).1, (hq (p os)).2.trans (hp os).2⟩

theorem keeps_insert (view : List Char) : Keeps fun os => os.insert view := by
  intro os
  dsimp only [OStringStream.insert]
  split <;> exact ⟨rfl, rfl⟩

theorem keeps_foldl (cells : List (List Char)) {t : List Printer} (h : ∀ p ∈ t, Keeps p) :
    Keeps fun os => (cells.zip t).foldl (fun os x => x.2 (os.insert x.1)) os := by
  induction cells generalizing t with
  | nil => exact fun os => ⟨rfl, rfl⟩
  | cons cell cells ih =>
    cases t with
    | nil => exact fun os => ⟨rfl, rfl⟩
    | cons p t =>
      rw [List.forall_mem_cons] at h
      exact ((keeps_insert cell).comp h.1).comp (ih h.2)

/-- An event whose arguments are harmless is harmless. -/
theorem keeps_printTuple (expr : List Char) {t : List Printer} (h : ∀ p ∈ t, Keeps p) :
    Keeps (printTuple .insert expr t) :=
  (keeps_foldl (cells expr t.length) h).comp (keeps_insert _)

end Printers

/-! ## Runs -/

section Runs

variable {δ ε : Type*} {print : ε → Printer} {sstream : OStringStream} {listener : ℕ}
  {s s' : LoggerAdapter δ ε} {log os : List (AdapterObs δ ε)} {i : AdapterInput δ ε}

@[simp] theorem takenContents_append (l l' : List (AdapterObs δ ε)) :
    takenContents (l ++ l') = takenContents l ++ takenContents l' :=
  List.filterMap_append

@[simp] theorem takenContents_map (c : ℕ) (os : List (ClientObs 1 ε)) :
    takenContents (os.map (AdapterObs.client (δ := δ) c)) = [] := by
  simp [takenContents, List.filterMap_map]

/-- What holds of the stream, as long as the events were harmless. -/
structure ResetOk (print : ε → Printer) (sstream : OStringStream) (s : LoggerAdapter δ ε)
    (log : List (AdapterObs δ ε)) : Prop where
  flags : s.flags = sstream.flags
  precision : s.precision = sstream.precision
  width : s.width = sstream.width
  kept : (∀ e ∈ takenContents log, Harmless sstream (print e)) →
    s.sstream.fill = sstream.fill ∧ s.sstream.state = sstream.state
  fresh : (∀ e ∈ (takenContents log).dropLast, Harmless sstream (print e)) →
    ∀ d c x text, .taken d c (some x) text ∈ log → IsFreshText print sstream (some x) text

theorem ResetOk.resetStream (h : ResetOk print sstream s log)
    (hlog : ∀ e ∈ takenContents log, Harmless sstream (print e)) :
    s.resetStream = { sstream with str := "" } := by
  simp only [LoggerAdapter.resetStream, h.flags, h.precision, h.width, h.kept hlog]

/-- A step that formats no event. -/
theorem ResetOk.of_eq (h : ResetOk print sstream s log) (hflags : s'.flags = s.flags)
    (hprecision : s'.precision = s.precision) (hwidth : s'.width = s.width)
    (hstream : s'.sstream = s.sstream) (hos : takenContents os = []) :
    ResetOk print sstream s' (log ++ os) := by
  have hno : ∀ d c x text, .taken d c (some x) text ∉ os := by
    intro d c x text hmem
    have hcontent : x.value.content ∈ takenContents os := List.mem_filterMap.2 ⟨_, hmem, rfl⟩
    rw [hos] at hcontent
    exact absurd hcontent List.not_mem_nil
  have hsame : takenContents (log ++ os) = takenContents log := by
    rw [takenContents_append, hos, List.append_nil]
  refine ⟨hflags.trans h.flags, hprecision.trans h.precision, hwidth.trans h.width, ?_, ?_⟩
  · rw [hsame, hstream]
    exact h.kept
  · rw [hsame]
    intro hlog d c x text hmem
    exact h.fresh hlog d c x text ((List.mem_append.1 hmem).resolve_right (hno d c x text))

variable [DecidableEq δ]

theorem ResetOk.step (h : ResetOk print sstream s log) (hs : AdapterStep print s i s' os) :
    ResetOk print sstream s' (log ++ os) := by
  cases hs with
  | registered | replaced | called | empty | missed | notified | finished =>
    apply h.of_eq <;> rfl
  | client | released => exact h.of_eq rfl rfl rfl rfl (takenContents_map ..)
  | taken d k n hpc hk x x' event hx hstep =>
    cases event with
    | none =>
      have hsame : takenContents (log ++ [.client (s.source k) (.queue (.read 0 none)),
          .taken d (s.source k) none (s.format print none).str]) = takenContents log := by
        simp [takenContents]
      refine ⟨h.flags, h.precision, h.width, ?_, ?_⟩
      · rw [hsame]
        exact h.kept
      · rw [hsame]
        intro hlog d' c y text hmem
        simp only [List.mem_append, List.mem_cons, reduceCtorEq, AdapterObs.taken.injEq,
          List.not_mem_nil, or_false, false_and, and_false] at hmem
        exact h.fresh hlog d' c y text hmem
    | some y =>
      have hsame : takenContents (log ++ [.client (s.source k) (.queue (.read 0 (some y))),
          .taken d (s.source k) (some y) (s.format print (some y)).str]) =
          takenContents log ++ [y.value.content] := by
        simp [takenContents]
      have hformat : (∀ e ∈ takenContents log, Harmless sstream (print e)) →
          s.format print (some y) = print y.value.content { sstream with str := "" } := by
        intro hlog
        rw [← h.resetStream hlog]
        rfl
      refine ⟨h.flags, h.precision, h.width, ?_, ?_⟩
      · rw [hsame]
        intro hlog
        rw [List.forall_mem_append] at hlog
        change (s.format print (some y)).fill = _ ∧ (s.format _ (some y)).state = _
        rw [hformat hlog.1]
        exact hlog.2 _ (List.mem_singleton_self _)
      · rw [hsame, List.dropLast_concat]
        intro hlog d' c z text hmem
        rcases List.mem_append.1 hmem with hmem | hmem
        · exact h.fresh (fun p hp => hlog p (List.mem_of_mem_dropLast hp)) d' c z text hmem
        · simp only [List.mem_cons, reduceCtorEq, AdapterObs.taken.injEq, List.not_mem_nil,
            or_false, false_or, Option.some.injEq] at hmem
          obtain ⟨-, -, rfl, rfl⟩ := hmem
          exact ⟨z, rfl, by rw [hformat hlog]⟩

theorem resetOk_of_reaches
    (h : (adapterMachine print).Reaches (.start sstream listener) s log) :
    ResetOk print sstream s log :=
  h.invariant (I := ResetOk print sstream) ⟨rfl, rfl, rfl, fun _ => ⟨rfl, rfl⟩,
    fun _ _ _ _ _ hmem => by cases hmem⟩ fun _ _ _ _ _ hi hs => hi.step (adapterStep_of_step hs)

/-- If all events but the last were harmless, every text passed on is fresh. -/
theorem independent_of_harmless
    (h : (adapterMachine print).ReachesWhile Undisturbed (.start sstream listener) s log)
    (hlog : ∀ e ∈ (takenContents log).dropLast, Harmless sstream (print e)) :
    Independent print sstream log := by
  intro d c event listener' text hmem
  have htaken := taken_of_notified h hmem
  obtain ⟨x, rfl⟩ := exists_of_taken h.reaches htaken
  exact (resetOk_of_reaches h.reaches).fresh hlog d c x text htaken

end Runs

/-! ## Events that change the stream -/

/-- `print_args_to` of an event, by its format and its arguments. -/
def printEvent (event : List Char × List Printer) : Printer := printTuple .insert event.1 event.2

/-- An argument that is written in hexadecimal digits and leaves the stream so. -/
def hexArgument : Printer := fun os =>
  OStringStream.insert { os with flags := 0x1008, precision := 2 } "ff".toList

/-- An argument whose printer fails. -/
def failingArgument : Printer := fun os => { os with state := 4 }

theorem keeps_hexArgument : Keeps hexArgument := fun os =>
  keeps_insert "ff".toList { os with flags := 0x1008, precision := 2 }

/-- Flags and precision may be changed, and the event that comes last may do to the stream what it
likes. -/
theorem independent_of_harmless_hex :
    ∃ (s : LoggerAdapter Unit (List Char × List Printer)) (log : List _),
      (adapterMachine printEvent).Reaches (.start plainStream 0) s log ∧
        Independent printEvent plainStream log ∧
        (notices () log).map (fun x => x.2.2) = ["x = ff", "second", ""] := by
  have hrun := Machine.Reaches.of_run (show
    (adapterMachine printEvent).run (LoggerAdapter.start (δ := Unit) plainStream 0)
      ([("x = ".toList ++ placeholder, [hexArgument]), ("second".toList, []),
        (placeholder, [failingArgument])].flatMap fun event =>
          logCall 0 event ++ .dispatch () :: List.replicate 5 (.resume ())) = some (_, _) from rfl)
  have hindependent := independent_of_harmless
    (hrun.reachesWhile fun s i _ _ _ => undisturbed_of_subsingleton s i) (by
      intro e he
      rcases List.mem_pair.1 he with rfl | rfl
      · exact (keeps_printTuple _ (List.forall_mem_singleton.2 keeps_hexArgument)).harmless _
      · exact (keeps_printTuple _ (List.forall_mem_nil _)).harmless _)
  exact ⟨_, _, hrun, hindependent, rfl⟩

/-- Print an event that is a text, or fail. -/
def printOrFail (text : String) (stream : OStringStream) : OStringStream :=
  if text = "fail" then { stream with state := 4 } else stream.insert text.toList

/-- Two events that are logged, and two calls of `dispatch`. -/
def twoEvents (first second : String) : List (AdapterInput Unit String) :=
  logCall 0 first ++ logCall 0 second ++ .dispatch () :: List.replicate 5 (.resume ()) ++
    .dispatch () :: List.replicate 2 (.resume ())

/-- An event whose printer fails leaves the stream in its error state, and the text of the next
event is lost. -/
theorem messages_lost : ∃ (s : LoggerAdapter Unit String) (log : List _),
    (adapterMachine printOrFail).ReachesWhile Undisturbed (.start plainStream 0) s log ∧
      (notices () log).map (fun x => x.2.2) = ["", ""] ∧
      ¬ Independent printOrFail plainStream log := by
  have hrun := Machine.Reaches.of_run (show
    (adapterMachine printOrFail).run (LoggerAdapter.start plainStream 0)
      (twoEvents "fail" "second") = some (_, _) from rfl)
  refine ⟨_, _, hrun.reachesWhile fun s i _ _ _ => undisturbed_of_subsingleton s i, rfl, ?_⟩
  intro h
  obtain ⟨x, hx, htext⟩ := h () 0 (some ⟨1, ⟨1, "second"⟩⟩) 0 "" (by decide)
  obtain rfl := Option.some.inj hx
  exact absurd htext (by decide)

end Ihft.Logger
