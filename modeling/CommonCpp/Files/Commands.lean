import CommonCpp.Lib.Regex
import CommonCpp.Text.ExecCmd

/-!
# `common::movebycmd` and `common::file_md5`

Both run a command through `exec_cmd` and judge it by its output. A command that
cannot be started is announced twice, by a null pointer and through `err`; both
functions use the pointer first (`movebycmd_of_fails`, `fileMd5_of_fails`).

What they do with the output of a command that was started is in
`movebycmd_of_prints` and `fileMd5_of_prints`.
-/

namespace CommonCpp.Files

open CommonCpp.Lib CommonCpp.Text

/-- A C string made of the returned pointer. -/
def readResult (r : CmdResult) : Exit Bytes :=
  match r.result with
  | none => .undefined .nullPointer
  | some buffer =>
    match buffer.text with
    | none => .undefined .outOfBounds
    | some text => .returned text

/-- What `move` prints on Windows. -/
def movedText : Bytes := ascii "        1 file(s) moved.\n"

/-- `movebycmd`, once the command has been run. -/
def judgeMove (r : CmdResult) : Exit Unit :=
  -- std::string cmd_result = std::unique_ptr<char[]>{exec_cmd(...)}.get()
  match readResult r with
  | .returned cmd_result =>
    match r.err with
    | some err => .exception err.bytes
    | none =>
      if movedText ≠ cmd_result ∧ [] ≠ cmd_result then .exception (ascii "ERROR:" ++ cmd_result)
      else .returned ()
  | .exception what => .exception what
  | .systemError => .systemError
  | .undefined fault => .undefined fault

/-- `movebycmd` -/
def movebycmd {σ : Type} (popen : Popen σ) (source destination : Bytes) (s : σ) : Exit Unit × σ :=
  match movebycmdCommand source destination with
  | none =>
    (formatFailure (ascii "mv '%s' '%s' -f")
      [.str (.ofBytes (formalizePath source)), .str (.ofBytes (formalizePath destination))], s)
  | some cmd =>
    match execCmd popen cmd none s with
    | none => (.undefined .outOfBounds, s)
    | some (r, s) => (judgeMove r, s)

/-- What `std::filesystem::exists` and `file_size` find. -/
inductive FileStatus where
  | missing
  | size (n : Nat)
  /-- One of them throws. -/
  | error

/-- `[a-z\d]` -/
def isDigestChar (c : UInt8) : Bool := (0x61 ≤ c && c ≤ 0x7A) || (0x30 ≤ c && c ≤ 0x39)

/-- `([a-z\d]{32})` -/
def digestRe : Regex.Re := .group 1 (.times 32 isDigestChar)

/-- `file_md5`, once the command has been run. -/
def judgeMd5 (r : CmdResult) : Exit Bytes :=
  match readResult r with
  | .returned cmd_resut =>
    match Regex.searchStart digestRe cmd_resut with
    | some m => .returned (Regex.capture 1 m)
    | none =>
      match stringFormat (ascii "getting uuid failed.%s") [.str (.ofBytes cmd_resut)] with
      | some e_str => .exception e_str
      | none => formatFailure (ascii "getting uuid failed.%s") [.str (.ofBytes cmd_resut)]
  | .exception what => .exception what
  | .systemError => .systemError
  | .undefined fault => .undefined fault

/-- `file_md5` on Linux -/
def fileMd5 {σ : Type} (popen : Popen σ) (status : FileStatus) (filename : CString) (s : σ) :
    Exit Bytes × σ :=
  match status with
  | .error => (.systemError, s)
  | .missing =>
    (.exception (ascii "failed to calculate md5 due to the file does not exist."), s)
  | .size 0 => (.returned (ascii "d41d8cd98f00b204e9800998ecf8427e"), s)
  | .size (_ + 1) =>
    match fileMd5Command filename with
    | none => (formatFailure (ascii "md5sum '%s'") [.str filename], s)
    | some cmd =>
      match execCmd popen cmd none s with
      | none => (.undefined .outOfBounds, s)
      | some (r, s) => (judgeMd5 r, s)

/-! ## The two ways a command can go -/

section

variable {σ : Type}

/-- There is a command, and it cannot be started. -/
def Fails (popen : Popen σ) (command : Option Bytes) (s : σ) : Prop :=
  ∃ cmd, command = some cmd ∧ (popen (execCmdLine (cStr cmd)) s).2 = none

/-- There is a command, it leaves the state `s'` behind, and this is what `exec_cmd` reads
of its output. -/
def Prints (popen : Popen σ) (command : Option Bytes) (s s' : σ) (text : Bytes) : Prop :=
  ∃ cmd stream, command = some cmd ∧ popen (execCmdLine (cStr cmd)) s = (s', some stream) ∧
    text = (pieces Text.bufferSize stream).flatMap cStr

variable {popen : Popen σ} {s s' : σ} {source destination : Bytes} {filename : CString} {n : Nat}

/-- Without a text to run, or with a command that fails, or with one that prints something:
there is no other way. -/
theorem fails_or_prints (popen : Popen σ) (command : Option Bytes) (s : σ) :
    command = none ∨ Fails popen command s ∨ ∃ s' text, Prints popen command s s' text := by
  cases command with
  | none => exact Or.inl rfl
  | some cmd =>
    right
    cases hpopen : popen (execCmdLine (cStr cmd)) s with
    | mk s' out =>
      cases out with
      | none => exact Or.inl ⟨cmd, rfl, by rw [hpopen]⟩
      | some stream => exact Or.inr ⟨s', _, cmd, stream, rfl, hpopen, rfl⟩

theorem Fails.exec {command : Option Bytes} (h : Fails popen command s) :
    ∃ cmd err s', command = some cmd ∧ execCmd popen cmd none s = some (⟨none, some err⟩, s') := by
  obtain ⟨cmd, hcmd, hpopen⟩ := h
  have hpair : popen (execCmdLine (cStr cmd)) s = ((popen (execCmdLine (cStr cmd)) s).1, none) :=
    Prod.ext rfl hpopen
  exact ⟨cmd, _, _, hcmd, execCmd_of_failure hpair none⟩

theorem Prints.exec {command : Option Bytes} {text : Bytes} (h : Prints popen command s s' text) :
    ∃ cmd result, command = some cmd ∧
      execCmd popen cmd none s = some (⟨some result, none⟩, s') ∧ result.Reads text := by
  obtain ⟨cmd, stream, hcmd, hpopen, rfl⟩ := h
  obtain ⟨result, hexec, hreads⟩ := execCmd_reads hpopen none
  exact ⟨cmd, result, hcmd, hexec, hreads⟩

theorem readResult_of_reads {result : Buffer} {text : Bytes} (h : result.Reads text)
    (err : Option CString) : readResult ⟨some result, err⟩ = .returned text := by
  unfold readResult
  dsimp only
  rw [h.text]

theorem movebycmd_of_exec {cmd : Bytes} {r : CmdResult}
    (hcmd : movebycmdCommand source destination = some cmd)
    (hexec : execCmd popen cmd none s = some (r, s')) :
    movebycmd popen source destination s = (judgeMove r, s') := by
  unfold movebycmd
  rw [hcmd]
  dsimp only
  rw [hexec]

theorem fileMd5_of_exec {cmd : Bytes} {r : CmdResult} (hcmd : fileMd5Command filename = some cmd)
    (hexec : execCmd popen cmd none s = some (r, s')) :
    fileMd5 popen (.size (n + 1)) filename s = (judgeMd5 r, s') := by
  unfold fileMd5
  rw [hcmd]
  dsimp only
  rw [hexec]

/-- A string is constructed from the null pointer. -/
theorem movebycmd_of_fails (h : Fails popen (movebycmdCommand source destination) s) :
    (movebycmd popen source destination s).1 = .undefined .nullPointer := by
  obtain ⟨cmd, err, s', hcmd, hexec⟩ := h.exec
  rw [movebycmd_of_exec hcmd hexec]
  rfl

/-- Anything but silence, or what `move` says on Windows, is taken for an error. -/
theorem movebycmd_of_prints {text : Bytes}
    (h : Prints popen (movebycmdCommand source destination) s s' text) :
    movebycmd popen source destination s
      = (if movedText ≠ text ∧ [] ≠ text then .exception (ascii "ERROR:" ++ text)
          else .returned (), s') := by
  obtain ⟨cmd, result, hcmd, hexec, hreads⟩ := h.exec
  rw [movebycmd_of_exec hcmd hexec]
  unfold judgeMove
  rw [readResult_of_reads hreads]

/-- The null pointer is searched. -/
theorem fileMd5_of_fails (h : Fails popen (fileMd5Command filename) s) :
    (fileMd5 popen (.size (n + 1)) filename s).1 = .undefined .nullPointer := by
  obtain ⟨cmd, err, s', hcmd, hexec⟩ := h.exec
  rw [fileMd5_of_exec hcmd hexec]
  rfl

theorem fileMd5_of_prints {text : Bytes} (h : Prints popen (fileMd5Command filename) s s' text) :
    ∃ result : Buffer, result.Reads text ∧
      fileMd5 popen (.size (n + 1)) filename s = (judgeMd5 ⟨some result, none⟩, s') := by
  obtain ⟨cmd, result, hcmd, hexec, hreads⟩ := h.exec
  exact ⟨result, hreads, fileMd5_of_exec hcmd hexec⟩

theorem movebycmd_of_none (h : movebycmdCommand source destination = none) :
    movebycmd popen source destination s
      = (formatFailure (ascii "mv '%s' '%s' -f")
        [.str (.ofBytes (formalizePath source)), .str (.ofBytes (formalizePath destination))], s) := by
  unfold movebycmd
  rw [h]

theorem fileMd5_of_none (h : fileMd5Command filename = none) :
    fileMd5 popen (.size (n + 1)) filename s
      = (formatFailure (ascii "md5sum '%s'") [.str filename], s) := by
  unfold fileMd5
  rw [h]

/-! ## A command that cannot be started -/

/-- No null pointer is used, and a failure is reported. -/
def Reports {α : Type} (failed : Prop) (Report : Exit α → Prop) (e : Exit α) : Prop :=
  e ≠ .undefined .nullPointer ∧ (failed → Report e)

theorem formatFailure_ne {α : Type} (format : Bytes) (args : List Arg) :
    (formatFailure format args : Exit α) ≠ .undefined .nullPointer := by
  unfold formatFailure
  split
  · nofun
  · split <;> nofun

theorem formatFailure_ne_returned {α : Type} {format : Bytes} {args : List Arg} {a : α} :
    formatFailure format args ≠ .returned a := by
  unfold formatFailure
  split
  · nofun
  · split <;> nofun

theorem judgeMd5_ne {result : Buffer} {text : Bytes} (h : result.Reads text) :
    judgeMd5 ⟨some result, none⟩ ≠ .undefined .nullPointer := by
  unfold judgeMd5
  rw [readResult_of_reads h]
  dsimp only
  split
  · nofun
  · split
    · nofun
    · exact formatFailure_ne _ _

theorem reports_iff {α : Type} {failed : Prop} {Report : Exit α → Prop} {e : Exit α}
    (hfails : failed → e = .undefined .nullPointer)
    (hnot : ¬ failed → e ≠ .undefined .nullPointer) : Reports failed Report e ↔ ¬ failed :=
  ⟨fun h hfailed => h.1 (hfails hfailed), fun h => ⟨hnot h, fun hfailed => absurd hfailed h⟩⟩

theorem movebycmd_ne (h : ¬ Fails popen (movebycmdCommand source destination) s) :
    (movebycmd popen source destination s).1 ≠ .undefined .nullPointer := by
  rcases fails_or_prints popen (movebycmdCommand source destination) s with
    hnone | hfails | ⟨s', text, hprints⟩
  · rw [movebycmd_of_none hnone]
    dsimp only
    exact formatFailure_ne _ _
  · exact absurd hfails h
  · rw [movebycmd_of_prints hprints]
    dsimp only
    split <;> nofun

theorem fileMd5_ne (h : ¬ Fails popen (fileMd5Command filename) s) :
    (fileMd5 popen (.size (n + 1)) filename s).1 ≠ .undefined .nullPointer := by
  rcases fails_or_prints popen (fileMd5Command filename) s with
    hnone | hfails | ⟨s', text, hprints⟩
  · rw [fileMd5_of_none hnone]
    dsimp only
    exact formatFailure_ne _ _
  · exact absurd hfails h
  · obtain ⟨result, hreads, hmd5⟩ := fileMd5_of_prints (n := n) hprints
    rw [hmd5]
    exact judgeMd5_ne hreads

/-- **When a failing command is reported.** For every outcome of `popen` and all
paths: `movebycmd`, and `file_md5` on a file that is there and not empty, use no null pointer
and report the failure, if and only if there is none. -/
theorem failures_reported_iff (popen : Popen σ) (s : σ) (source destination : Bytes)
    (filename : CString) (n : Nat) :
    (Reports (Fails popen (movebycmdCommand source destination) s)
        (fun e => e = .exception (ascii "popen failed!")) (movebycmd popen source destination s).1 ↔
      ¬ Fails popen (movebycmdCommand source destination) s) ∧
    (Reports (Fails popen (fileMd5Command filename) s) (fun e => ∃ what, e = .exception what)
        (fileMd5 popen (.size (n + 1)) filename s).1 ↔
      ¬ Fails popen (fileMd5Command filename) s) :=
  ⟨reports_iff movebycmd_of_fails movebycmd_ne, reports_iff fileMd5_of_fails fileMd5_ne⟩

/-- Where nothing can be started, `mv 'a' 'b' -f` and `md5sum 'a'` cannot either. -/
theorem not_reported :
    ¬ ∀ (popen : Popen Unit) (source destination : Bytes) (filename : CString) (n : Nat),
      Reports (Fails popen (movebycmdCommand source destination) ())
          (fun e => e = .exception (ascii "popen failed!"))
          (movebycmd popen source destination ()).1 ∧
        Reports (Fails popen (fileMd5Command filename) ()) (fun e => ∃ what, e = .exception what)
          (fileMd5 popen (.size (n + 1)) filename ()).1 := by
  intro h
  have hmove := (h (fun _ s => (s, none)) (ascii "a") (ascii "b") ⟨ascii "a", by decide⟩ 0).1
  have hcmd : movebycmdCommand (ascii "a") (ascii "b") = some (ascii "mv 'a' 'b' -f") := by
    decide +kernel
  exact hmove.1 (movebycmd_of_fails ⟨_, hcmd, rfl⟩)

end

end CommonCpp.Files
