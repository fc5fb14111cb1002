import CommonCpp.Lib.Guard
import CommonCpp.Lib.Run
import CommonCpp.Text.Format

/-!
# `common::print_debug` and `common::print_info`

Both print one line to `std::cout` while they have `print_mtx`. The monitor's thread
prints to `std::cout` too, past the lock. The standard promises no more than that
single characters arrive whole, so a piece of output is a byte here, and the threads
are those of `Lib.Guard`.

Lines printed under the lock stay whole, whatever the threads' order (`console_orderly`).
What is printed past it can stand anywhere, in the middle of such a line too.
-/

namespace CommonCpp.Text

open CommonCpp.Lib CommonCpp.Lib.Guard

/-- The line for `str`, and how the call ends. -/
def printLine (level : CString) (str : Bytes) : Exit Bytes :=
  match stringFormat (ascii "%s>%s") [.str level, .str (.ofBytes str)] with
  | some line => .returned (line ++ ascii "\n")
  | none => formatFailure (ascii "%s>%s") [.str level, .str (.ofBytes str)]

def printDebug (str : Bytes) : Exit Bytes := printLine ⟨ascii "DEBUG", by decide⟩ str

def printInfo (str : Bytes) : Exit Bytes := printLine ⟨ascii "INFO", by decide⟩ str

/-- What a thread prints. -/
inductive Print where
  | debug (str : Bytes)
  | info (str : Bytes)
  /-- `std::cout << text << std::endl`, as the monitor's thread has it. -/
  | cout (text : Bytes)

def Print.exit : Print → Exit Bytes
  | .debug str => printDebug str
  | .info str => printInfo str
  | .cout text => .returned (text ++ ascii "\n")

/-- A call that does nothing undefined. -/
structure Call where
  print : Print
  defined : ∀ fault, print.exit ≠ .undefined fault

/-- What a call prints. When `string_format` throws nothing has been printed, and the
lock is given back on the way out. -/
def Call.text (c : Call) : Bytes :=
  match c.print.exit with
  | .returned text => text
  | .exception _ | .systemError | .undefined _ => []

def Call.guarded (c : Call) : Bool :=
  match c.print with
  | .debug _ | .info _ => true
  | .cout _ => false

/-- The console and its lock. -/
def console : Style Call UInt8 := ⟨Call.guarded, Call.text⟩

/-- The console when every thread is through. `taken` has the calls of `print_debug` and
`print_info`, each with its thread, in the order in which they got the lock. -/
structure Orderly (calls : List (List Call)) (s : State Call UInt8) : Prop where
  /-- Each line stands there once and whole, with only other threads' bare texts between. -/
  lines : s.guarded = s.taken.flatMap (tagged console)
  /-- Every thread's calls are among them, in the thread's order. -/
  order : ∀ i js, calls[i]? = some js → s.takenBy i = js.filter console.guarded
  known : ∀ x ∈ s.taken, x.1 < calls.length
  /-- A thread's own output, bare or not, is all its texts. -/
  own : ∀ i js, calls[i]? = some js → s.byThread i = js.flatMap console.pieces
  /-- When nobody prints past the lock, the lines are all there is. -/
  alone : (∀ js ∈ calls, ∀ c ∈ js, console.guarded c = true) →
    s.written.map Mark.piece = s.taken.flatMap fun x => console.pieces x.2

/-! ## The line -/

theorem snprintf_line (level str : CString) :
    snprintf (ascii "%s>%s") [.str level, .str str]
      = some (level.bytes ++ 0x3E :: str.bytes) := by
  have hformat : ascii "%s>%s" = 0x25 :: 0x73 :: (ascii ">" ++ 0x25 :: 0x73 :: []) := by decide
  have hrest : snprintf (ascii ">" ++ 0x25 :: 0x73 :: []) [.str str]
      = some (0x3E :: str.bytes) := by
    rw [snprintf_append (by decide), snprintf_str, snprintf, Option.map_some, Option.map_some,
      List.append_nil]
    rfl
  rw [hformat, snprintf_str, hrest, Option.map_some]

/-- A line is the level and the text up to its first NUL; without a line there is an
exception, or undefined behaviour for one length alone. -/
theorem printLine_eq (level : CString) (str : Bytes) :
    printLine level str =
      if level.bytes.length + (strlen str + 1) < INT_MAX then
        .returned (level.bytes ++ 0x3E :: cStr str ++ ascii "\n")
      else if level.bytes.length + (strlen str + 1) = INT_MAX then .undefined .overflow
      else .systemError := by
  have hlength : (level.bytes ++ 0x3E :: (CString.ofBytes str).bytes).length
      = level.bytes.length + (strlen str + 1) := List.length_append
  unfold printLine stringFormat formatFailure
  rw [snprintf_line, Option.bind_some, hlength]
  dsimp only
  by_cases hlt : level.bytes.length + (strlen str + 1) < INT_MAX
  · rw [if_pos hlt, if_pos hlt]
    rfl
  · rw [if_neg hlt, if_neg hlt, hlength]

/-! ## The console -/

/-- What holds while the threads are at it. -/
structure Printing.Inv (calls : List (List Call)) (s : State Call UInt8) : Prop where
  guard : Guard.Inv console calls s
  own : Own console calls s
  closed : (∀ js ∈ calls, ∀ c ∈ js, console.guarded c = true) → Sealed console s

theorem start_printing (calls : List (List Call)) : Printing.Inv calls (start calls) :=
  ⟨start_inv calls, start_own calls, start_sealed⟩

theorem printing_step {calls : List (List Call)} {s s' : State Call UInt8} {i : Nat}
    (hs : Printing.Inv calls s) (h : step console s i = some s') : Printing.Inv calls s' :=
  ⟨inv_step hs.guard h, own_step hs.own h, fun hall => sealed_step (hs.closed hall) h⟩

theorem flatMap_tagged (taken : List (Nat × Call)) :
    (taken.flatMap (tagged console)).map Prod.snd
      = taken.flatMap fun x => console.pieces x.2 := by
  rw [List.map_flatMap]
  refine List.flatMap_congr fun x _ => ?_
  unfold tagged
  rw [List.map_map]
  exact List.map_id _

theorem Printing.Inv.orderly {calls : List (List Call)} {s : State Call UInt8}
    (hs : Printing.Inv calls s) (hdone : s.Done) : Orderly calls s := by
  obtain ⟨-, hlines, horder⟩ := hs.guard.done hdone
  refine ⟨hlines, horder, hs.guard.known, fun i js hjs => ?_, fun hall => ?_⟩
  · exact hs.own.done hs.guard.length hdone hjs
  · rw [← (hs.closed hall).guarded, hlines, flatMap_tagged]

/-- **The lines on the console.** For all threads and all their calls, after any steps the
threads have taken in any order: what is there of the lines is, up to what the holder of
the lock has still to print, whole lines in the order in which the lock was taken; only so
many steps were possible; and the threads can all come to their end. Where everybody is
through the console is as it should be. -/
theorem console_orderly {calls : List (List Call)} {is : List Nat} {s : State Call UInt8}
    (h : run (step console) (start calls) is = some s) :
    s.guarded ++ s.rest = s.taken.flatMap (tagged console) ∧
      is.length ≤ work console (start calls) ∧
      (∃ js t, run (step console) s js = some t ∧ t.Done) ∧ (s.Done → Orderly calls s) := by
  have hinv : Printing.Inv calls s := run_invariant printing_step (start_printing calls) h
  refine ⟨hinv.guard.written, ?_, ?_, hinv.orderly⟩
  · have hbound := run_length_le (P := fun _ => True) printing_step
      (fun _ _ hstep => work_step hstep) (start_printing calls) (fun _ _ => trivial) h
    exact Nat.le_trans (Nat.le_add_left _ _) hbound
  · obtain ⟨js, t, -, hrun, hrest⟩ := exists_run_to_rest (P := fun _ => True) printing_step
      (fun _ _ hstep => work_step hstep) hinv
    have htinv : Printing.Inv calls t := run_invariant printing_step hinv hrun
    exact ⟨js, t, hrun, exists_step htinv.guard fun i => hrest i trivial⟩

/-- `print_debug("a")` and the bare text `x` of another thread. -/
def debugAndBare : List (List Call) :=
  [[⟨.debug (ascii "a"), by
      intro fault h
      have hline := printLine_eq ⟨ascii "DEBUG", by decide⟩ (ascii "a")
      rw [if_pos (by decide +kernel)] at hline
      cases hline.symm.trans h⟩],
    [⟨.cout (ascii "x"), nofun⟩]]

/-- Thread 1 comes in behind the first byte of thread 0. -/
def bareBetween : List Nat := [0, 0, 1, 1, 0, 0, 0, 0, 0, 0, 0, 0, 1, 1]

theorem console_orderly_bare_between :
    ∃ s, run (step console) (start debugAndBare) bareBetween = some s ∧
      s.written.map Mark.piece = ascii "DxEBUG>a\n\n" ∧ Orderly debugAndBare s := by
  have heval : (run (step console) (start debugAndBare) bareBetween).map
      (fun s => (s.written.map Mark.piece,
        s.threads.all fun t => t.current.isNone && t.jobs.isEmpty))
      = some (ascii "DxEBUG>a\n\n", true) := by decide +kernel
  obtain ⟨s, hrun, hs⟩ := Option.map_eq_some_iff.mp heval
  obtain ⟨htext, hdone⟩ := Prod.mk.inj hs
  refine ⟨s, hrun, htext, (console_orderly hrun).2.2.2 fun t ht => ?_⟩
  have hidle := List.all_eq_true.mp hdone t ht
  rw [Bool.and_eq_true, Option.isNone_iff_eq_none, List.isEmpty_iff] at hidle
  exact hidle

end CommonCpp.Text
