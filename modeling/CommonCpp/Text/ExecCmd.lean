import CommonCpp.Lib.Buffer
import CommonCpp.Text.ShellCommand

/-!
# `common::exec_cmd`

The command's output is read piece by piece into a buffer of 128 bytes, and
every piece is put behind what was read so far, in a new array of exactly the
size needed. Both are taken for C strings on the way, so a NUL in the output
hides the rest of its piece and nothing else (`readPipe_reads`).

The two results of a call are the returned pointer and what it leaves in
`*err`. Every access is checked against the bounds of its array: `none` would be
a call that leaves one.
-/

namespace CommonCpp.Text

open CommonCpp.Lib

/-- `buffer_size` -/
def bufferSize : Nat := 128

theorem two_le_bufferSize : 2 ≤ bufferSize := by decide

/-- What `popen` makes of a command line: the state the command leaves behind, and all
that can be read from the pipe; `none` where it fails. -/
abbrev Popen (σ : Type) := Bytes → σ → σ × Option Bytes

/-- The returned pointer, null or to the start of an array, and `*err`. -/
structure CmdResult where
  result : Option Buffer
  err : Option CString

/-- The array that replaces `result`: its text, with that of `buffer` behind it. -/
def appendPiece (result buffer : Buffer) : Option Buffer := do
  let len ← result.strlen
  let added ← buffer.strlen
  let newsize := len + added + 1
  let temp := Buffer.new newsize
  let temp ← temp.memcpy 0 result len
  let temp ← temp.memcpy len buffer added
  temp.store (newsize - 1) [0]

/-- `while (fgets(buffer, buffer_size, pipe) != NULL)` -/
def readPipe (buffer result : Buffer) (stream : Bytes) : Option Buffer :=
  match h : fgets bufferSize stream with
  | none => some result
  | some (piece, rest) =>
    have := fgets_length two_le_bufferSize h
    (buffer.store 0 (piece ++ [0])).bind fun buffer =>
      (appendPiece result buffer).bind fun temp => readPipe buffer temp rest
termination_by stream.length

/-- `exec_cmd(command, &err)` -/
def execCmd {σ : Type} (popen : Popen σ) (command : Bytes) (err : Option CString) (s : σ) :
    Option (CmdResult × σ) :=
  match popen (execCmdLine (cStr command)) s with
  | (s, none) =>
    (strcpy ⟨ascii "popen failed!", by decide⟩).map fun err => (⟨none, some err⟩, s)
  | (s, some stream) =>
    -- new char[1]{}
    (readPipe (Buffer.new bufferSize) [some 0] stream).map fun result => (⟨some result, err⟩, s)

/-! ## The loop -/

/-- The two texts, one behind the other, in an array that has just room for them. -/
theorem appendPiece_reads {result buffer : Buffer} {acc piece : Bytes} (hr : result.Reads acc)
    (hb : buffer.Reads piece) :
    ∃ temp, appendPiece result buffer = some temp ∧ temp.Reads (acc ++ piece) := by
  have hlen : (acc ++ piece).length = acc.length + piece.length := List.length_append
  have hacc : (Buffer.new (acc.length + piece.length + 1)).memcpy 0 result acc.length
      = some (acc.map some ++ Buffer.new (piece.length + 1)) := by
    have hstore := store_new [] (s := acc) (n := acc.length + piece.length + 1) (by omega)
    unfold Buffer.memcpy
    rw [hr.load, Option.bind_some]
    rwa [show acc.length + piece.length + 1 - acc.length = piece.length + 1 by omega] at hstore
  have hpiece : Buffer.memcpy (acc.map some ++ Buffer.new (piece.length + 1)) acc.length buffer
      piece.length = some ((acc ++ piece).map some ++ Buffer.new 1) := by
    have hstore := store_new acc (s := piece) (n := piece.length + 1) (by omega)
    unfold Buffer.memcpy
    rw [hb.load, Option.bind_some]
    rwa [show piece.length + 1 - piece.length = 1 by omega] at hstore
  have hnul : Buffer.store ((acc ++ piece).map some ++ Buffer.new 1)
      (acc.length + piece.length + 1 - 1) [0] = some ((acc ++ piece ++ [0]).map some) := by
    have hstore := store_new (acc ++ piece) (s := [0]) (n := 1) (Nat.le_refl 1)
    rw [hlen] at hstore
    exact hstore.trans (congrArg some (List.append_nil _))
  refine ⟨(acc ++ piece ++ [0]).map some, ?_, ?_, [], ?_⟩
  · unfold appendPiece
    rw [hr.strlen, hb.strlen]
    show ((Buffer.new (acc.length + piece.length + 1)).memcpy 0 result acc.length).bind _ = _
    rw [hacc, Option.bind_some]
    show (Buffer.memcpy _ acc.length buffer piece.length).bind _ = _
    rw [hpiece, Option.bind_some, hnul]
  · exact nulFree_append.mpr ⟨hr.1, hb.1⟩
  · rw [List.map_append]
    rfl

/-- What the loop leaves: the text it started with, and of every piece what is in front
of its first NUL. -/
theorem readPipe_reads (stream : Bytes) :
    ∀ {buffer result : Buffer} {acc : Bytes}, buffer.length = bufferSize → result.Reads acc →
      ∃ result', readPipe buffer result stream = some result' ∧
        result'.Reads (acc ++ (pieces bufferSize stream).flatMap cStr) := by
  induction stream using pieces.induct bufferSize with
  | case1 stream hend =>
    intro buffer result acc _ hr
    refine ⟨result, ?_, ?_⟩
    · rw [readPipe]
      split
      · rfl
      · next h => cases hend.symm.trans h
    · rw [pieces_of_end hend, List.flatMap_nil, List.append_nil]
      exact hr
  | case2 stream piece rest h hlen ih =>
    intro buffer result acc hb hr
    have hroom : piece.length < buffer.length := by
      have hle := (fgets_eq_some h).2
      rw [hb]
      unfold bufferSize at hle ⊢
      omega
    obtain ⟨buffer', hstore, hlen', hreads⟩ := store_reads hroom
    obtain ⟨temp, happend, htemp⟩ := appendPiece_reads hr hreads
    obtain ⟨result', hrest, hresult⟩ := ih (hlen'.trans hb) htemp
    refine ⟨result', ?_, ?_⟩
    · rw [readPipe]
      split
      · next hnone => cases h.symm.trans hnone
      · next piece' rest' h' =>
        cases h.symm.trans h'
        rw [hstore, Option.bind_some, happend, Option.bind_some, hrest]
    · rw [pieces_of_fgets two_le_bufferSize h, List.flatMap_cons, ← List.append_assoc]
      exact hresult
  | case3 stream piece rest h hlen => exact absurd (fgets_length two_le_bufferSize h) hlen

/-! ## What is lost -/

/-- Taking the text of every part loses nothing exactly where no part has a NUL. -/
theorem flatMap_cStr_eq_iff (parts : List Bytes) :
    parts.flatMap cStr = parts.flatten ↔ NulFree parts.flatten := by
  constructor
  · intro h
    rw [← h]
    intro b hb
    obtain ⟨piece, -, hb⟩ := List.mem_flatMap.mp hb
    exact nulFree_cStr piece b hb
  · intro h
    have hmap : parts.map cStr = parts := by
      refine (List.map_congr_left fun piece hpiece => cStr_of_nulFree fun b hb => h b ?_).trans
        (List.map_id parts)
      exact List.mem_flatten.mpr ⟨piece, hpiece, hb⟩
    rw [List.flatMap_def, hmap]

/-- A stream without a NUL is read as it is. -/
theorem text_of_nulFree {stream : Bytes} (h : NulFree stream) :
    (pieces bufferSize stream).flatMap cStr = stream := by
  have hflatten := flatten_pieces two_le_bufferSize stream
  exact ((flatMap_cStr_eq_iff _).mpr (by rwa [hflatten])).trans hflatten

/-! ## The call -/

section

variable {σ : Type} {popen : Popen σ} {command : Bytes} {s s' : σ}

/-- A command that could be started: all of its output is read. -/
theorem execCmd_reads {stream : Bytes} (h : popen (execCmdLine (cStr command)) s = (s', some stream))
    (err : Option CString) :
    ∃ result : Buffer, execCmd popen command err s = some (⟨some result, err⟩, s') ∧
      result.Reads ((pieces bufferSize stream).flatMap cStr) := by
  have hempty : Buffer.Reads [some 0] [] := ⟨List.forall_mem_nil _, [], rfl⟩
  have hlen : (Buffer.new bufferSize).length = bufferSize := List.length_replicate
  obtain ⟨result, hread, hreads⟩ := readPipe_reads stream hlen hempty
  refine ⟨result, ?_, hreads⟩
  unfold execCmd
  rw [h]
  dsimp only
  rw [hread, Option.map_some]

/-- A command that could not be started. -/
theorem execCmd_of_failure (h : popen (execCmdLine (cStr command)) s = (s', none))
    (err : Option CString) :
    execCmd popen command err s
      = some (⟨none, some ⟨ascii "popen failed!", by decide⟩⟩, s') := by
  have hcopy : strcpy ⟨ascii "popen failed!", by decide⟩
      = some ⟨ascii "popen failed!", by decide⟩ := by decide
  unfold execCmd
  rw [h]
  dsimp only
  rw [hcopy]
  rfl

/-- **All of a command's output.** Whatever a started command prints, the loop
stays inside its arrays and returns, for the pieces in which `fgets` reads the output, what is
in front of their first NULs; which is the output itself if and only if there is no NUL in it. -/
theorem execCmd_output {stream : Bytes}
    (h : popen (execCmdLine (cStr command)) s = (s', some stream)) (err : Option CString) :
    ∃ result : Buffer, execCmd popen command err s = some (⟨some result, err⟩, s') ∧
      result.text = some ((pieces bufferSize stream).flatMap cStr) ∧
      (result.text = some stream ↔ NulFree stream) := by
  obtain ⟨result, hexec, hreads⟩ := execCmd_reads h err
  refine ⟨result, hexec, hreads.text, ?_⟩
  have hflatten := flatten_pieces two_le_bufferSize stream
  have hiff := flatMap_cStr_eq_iff (pieces bufferSize stream)
  rw [hflatten] at hiff
  rw [hreads.text, Option.some.injEq]
  exact hiff

end

/-- A NUL in the first of two lines. -/
theorem execCmd_output_nul :
    ∃ result : Buffer,
      execCmd (fun _ s => (s, some [0x61, 0, 0x62, 0x0A, 0x63])) (ascii "ls") none ()
        = some (⟨some result, none⟩, ()) ∧
      result.text = some ((pieces bufferSize [0x61, 0, 0x62, 0x0A, 0x63]).flatMap cStr) ∧
      (result.text = some [0x61, 0, 0x62, 0x0A, 0x63] ↔ NulFree [0x61, 0, 0x62, 0x0A, 0x63]) :=
  execCmd_output rfl none

end CommonCpp.Text
