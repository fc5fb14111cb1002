import CommonCpp.Files.Commands
import CommonCpp.Lib.Heap

/-!
# What `exec_cmd` and its callers allocate

`exec_cmd` makes a new block for every piece it reads and frees the one before; the last
one is its caller's, and where the command could not be started there is one for the
error text instead. `movebycmd` keeps both in `unique_ptr`s, `file_md5` frees them by
hand. Everything is given back, unless an exception of the standard library or something
undefined comes in between (`commands_balanced`).

The functions here are those of `Text.ExecCmd` and `Files.Commands` with pointers for
buffers: they do the same (`readPipeAt_gained`), and `none` is an access to a block that
is not there.
-/

namespace CommonCpp.Files

open CommonCpp.Lib CommonCpp.Text

/-- `while (fgets(buffer, buffer_size, pipe) != NULL)`, with `result` a pointer. -/
def readPipeAt (buffer : Buffer) (result : Addr) (stream : Bytes) (h : Heap Buffer) :
    Option (Addr × Heap Buffer) :=
  match hread : fgets Text.bufferSize stream with
  | none => some (result, h)
  | some (piece, rest) =>
    have := fgets_length two_le_bufferSize hread
    (buffer.store 0 (piece ++ [0])).bind fun buffer =>
      (h.read result).bind fun old =>
        (appendPiece old buffer).bind fun temp =>
          -- result.reset(temp)
          ((h.alloc temp).2.free result).bind fun h' =>
            readPipeAt buffer (h.alloc temp).1 rest h'
termination_by stream.length

/-- The returned pointer and `*err`. -/
structure CmdPointers where
  result : Option Addr
  err : Option Addr

/-- The block `common::strcpy("popen failed!")` makes. -/
def errText : Buffer := (ascii "popen failed!").map some ++ [some 0]

/-- `exec_cmd(command, &err)` with a null `err`. -/
def execCmdAt {σ : Type} (popen : Popen σ) (command : Bytes) (s : σ) (h : Heap Buffer) :
    Option (CmdPointers × σ × Heap Buffer) :=
  -- new char[1]{}
  let (result, h) := h.alloc [some 0]
  match popen (execCmdLine (cStr command)) s with
  | (s, none) =>
    let (err, h) := h.alloc errText
    -- the end of `result`
    (h.free result).map fun h => (⟨none, some err⟩, s, h)
  | (s, some stream) =>
    (readPipeAt (Buffer.new Text.bufferSize) result stream h).map fun (result, h) =>
      (⟨some result, none⟩, s, h)

/-- `movebycmd`. The `unique_ptr` around the result ends with the statement it is in. -/
def movebycmdAt {σ : Type} (popen : Popen σ) (source destination : Bytes) (s : σ)
    (h : Heap Buffer) : Option ((Exit Unit × σ) × Heap Buffer) :=
  match movebycmdCommand source destination with
  | none =>
    some ((formatFailure (ascii "mv '%s' '%s' -f")
      [.str (.ofBytes (formalizePath source)), .str (.ofBytes (formalizePath destination))], s), h)
  | some cmd =>
    (execCmdAt popen cmd s h).bind fun (p, s, h) =>
      match p.result with
      | none => some ((.undefined .nullPointer, s), h)
      | some a =>
        (h.read a).bind fun buffer => (h.free a).map fun h =>
          ((judgeMove ⟨some buffer, none⟩, s), h)

/-- `file_md5`. Where the text of its exception cannot be built, another one leaves it in
front of `delete[]`. -/
def fileMd5At {σ : Type} (popen : Popen σ) (status : FileStatus) (filename : CString) (s : σ)
    (h : Heap Buffer) : Option ((Exit Bytes × σ) × Heap Buffer) :=
  match status with
  | .error => some ((.systemError, s), h)
  | .missing =>
    some ((.exception (ascii "failed to calculate md5 due to the file does not exist."), s), h)
  | .size 0 => some ((.returned (ascii "d41d8cd98f00b204e9800998ecf8427e"), s), h)
  | .size (_ + 1) =>
    match fileMd5Command filename with
    | none => some ((formatFailure (ascii "md5sum '%s'") [.str filename], s), h)
    | some cmd =>
      (execCmdAt popen cmd s h).bind fun (p, s, h) =>
        match p.result with
        | none => some ((.undefined .nullPointer, s), h)
        | some a =>
          (h.read a).bind fun buffer =>
            match judgeMd5 ⟨some buffer, none⟩ with
            | .returned md5 => (h.free a).map fun h => ((.returned md5, s), h)
            | .exception e_str => (h.free a).map fun h => ((.exception e_str, s), h)
            | .systemError => some ((.systemError, s), h)
            | .undefined fault => some ((.undefined fault, s), h)

/-- The call has touched no block of the caller's, and has left at most one of its own, and
none if it returned or threw the library's exception. -/
def Balanced {α : Type} (h : Heap Buffer) (as : List Addr) (e : Exit α) (h' : Heap Buffer) : Prop :=
  ∃ leaked, h'.Owned (leaked ++ as) ∧ (∀ a ∈ as, h'.read a = h.read a) ∧
    (leaked = [] ∨ leaked.length = 1 ∧ (e = .systemError ∨ ∃ fault, e = .undefined fault))

/-! ## The loop -/

/-- The loop does with blocks what it does with buffers, and ends up with one block. -/
theorem readPipeAt_gained {h₀ : Heap Buffer} {as : List Addr} (buffer result : Buffer)
    (stream : Bytes) {result' : Buffer} (hrun : readPipe buffer result stream = some result') :
    ∀ {a : Addr} {h : Heap Buffer}, h₀.Gained as a result h →
      ∃ a' h', readPipeAt buffer a stream h = some (a', h') ∧ h₀.Gained as a' result' h' := by
  fun_induction readPipe buffer result stream with
  | case1 buffer result stream hend =>
    intro a h hg
    cases hrun
    refine ⟨a, h, ?_, hg⟩
    rw [readPipeAt]
    split
    · rfl
    · next hsome => cases hend.symm.trans hsome
  | case2 buffer result stream piece rest hread hlen ih =>
    intro a h hg
    obtain ⟨buffer', hstore, hrun⟩ := Option.bind_eq_some_iff.mp hrun
    obtain ⟨temp, happend, hrun⟩ := Option.bind_eq_some_iff.mp hrun
    obtain ⟨h₁, hfree, hg₁⟩ := hg.replace temp
    obtain ⟨a', h', hrest, hg'⟩ := ih buffer' temp hrun hg₁
    refine ⟨a', h', ?_, hg'⟩
    rw [readPipeAt]
    split
    · next hnone => cases hread.symm.trans hnone
    · next piece' rest' hsome =>
      cases hread.symm.trans hsome
      rw [hstore, Option.bind_some, hg.holds, Option.bind_some, happend, Option.bind_some, hfree,
        Option.bind_some, hrest]

/-! ## The calls -/

section

variable {σ : Type} {popen : Popen σ} {h : Heap Buffer} {as : List Addr} {s s' : σ}

/-- A command that could be started leaves its caller one block, with its output. -/
theorem execCmdAt_prints {command stream : Bytes} (ho : h.Owned as)
    (hpopen : popen (execCmdLine (cStr command)) s = (s', some stream)) :
    ∃ a h' result, execCmdAt popen command s h = some (⟨some a, none⟩, s', h') ∧
      execCmd popen command none s = some (⟨some result, none⟩, s') ∧ h.Gained as a result h' := by
  obtain ⟨result, hexec, -⟩ := execCmd_reads hpopen none
  have hread : readPipe (Buffer.new Text.bufferSize) [some 0] stream = some result := by
    unfold execCmd at hexec
    rw [hpopen] at hexec
    obtain ⟨result', hread, heq⟩ := Option.map_eq_some_iff.mp hexec
    cases heq
    exact hread
  obtain ⟨a, h', hrun, hg⟩ := readPipeAt_gained _ _ _ hread (ho.gained [some 0])
  refine ⟨a, h', result, ?_, hexec, hg⟩
  unfold execCmdAt
  dsimp only
  rw [hpopen]
  dsimp only
  rw [hrun]
  rfl

/-- One that could not leaves the block of the error text. -/
theorem execCmdAt_fails {command : Bytes} (ho : h.Owned as)
    (hpopen : popen (execCmdLine (cStr command)) s = (s', none)) :
    ∃ e h', execCmdAt popen command s h = some (⟨none, some e⟩, s', h') ∧
      h.Gained as e errText h' := by
  obtain ⟨h', hfree, hg⟩ := (ho.gained [some 0]).replace errText
  refine ⟨_, h', ?_, hg⟩
  unfold execCmdAt
  dsimp only
  rw [hpopen]
  dsimp only
  rw [hfree]
  rfl

theorem balanced_refl {α : Type} (ho : h.Owned as) (e : Exit α) : Balanced h as e h :=
  ⟨[], ho, fun _ _ => rfl, Or.inl rfl⟩

/-- The block is left where nobody can free it any more. -/
theorem Balanced.lost {α : Type} {a : Addr} {b : Buffer} {h' : Heap Buffer} {e : Exit α}
    (hg : h.Gained as a b h') (he : e = .systemError ∨ ∃ fault, e = .undefined fault) :
    Balanced h as e h' :=
  ⟨[a], hg.owned, hg.others, Or.inr ⟨rfl, he⟩⟩

/-- The block is freed. -/
theorem Balanced.freed {α : Type} {a : Addr} {b : Buffer} {h' : Heap Buffer}
    (hg : h.Gained as a b h') (e : Exit α) :
    ∃ h'', h'.free a = some h'' ∧ Balanced h as e h'' := by
  obtain ⟨h'', hfree, howned, hkept⟩ := hg.free
  exact ⟨h'', hfree, [], howned, hkept, Or.inl rfl⟩

theorem movebycmdAt_balanced (ho : h.Owned as) (source destination : Bytes) :
    ∃ h', movebycmdAt popen source destination s h
        = some (movebycmd popen source destination s, h') ∧
      Balanced h as (movebycmd popen source destination s).1 h' := by
  unfold movebycmdAt movebycmd
  cases movebycmdCommand source destination with
  | none => exact ⟨h, rfl, balanced_refl ho _⟩
  | some cmd =>
    dsimp only
    cases hpopen : popen (execCmdLine (cStr cmd)) s with
    | mk s' out =>
      cases out with
      | none =>
        obtain ⟨e, h', hexec, hg⟩ := execCmdAt_fails ho hpopen
        rw [hexec, execCmd_of_failure hpopen none]
        exact ⟨h', rfl, .lost hg (Or.inr ⟨_, rfl⟩)⟩
      | some stream =>
        obtain ⟨a, h', result, hexec, hexec', hg⟩ := execCmdAt_prints ho hpopen
        obtain ⟨h'', hfree, hbal⟩ := Balanced.freed hg (judgeMove ⟨some result, none⟩)
        rw [hexec, hexec', Option.bind_some]
        dsimp only
        rw [hg.holds, Option.bind_some, hfree]
        exact ⟨h'', rfl, hbal⟩

theorem fileMd5At_balanced (ho : h.Owned as) (status : FileStatus) (filename : CString) :
    ∃ h', fileMd5At popen status filename s h = some (fileMd5 popen status filename s, h') ∧
      Balanced h as (fileMd5 popen status filename s).1 h' := by
  unfold fileMd5At fileMd5
  match status with
  | .error | .missing | .size 0 => exact ⟨h, rfl, balanced_refl ho _⟩
  | .size (n + 1) =>
    cases fileMd5Command filename with
    | none => exact ⟨h, rfl, balanced_refl ho _⟩
    | some cmd =>
      dsimp only
      cases hpopen : popen (execCmdLine (cStr cmd)) s with
      | mk s' out =>
        cases out with
        | none =>
          obtain ⟨e, h', hexec, hg⟩ := execCmdAt_fails ho hpopen
          rw [hexec, execCmd_of_failure hpopen none]
          exact ⟨h', rfl, .lost hg (Or.inr ⟨_, rfl⟩)⟩
        | some stream =>
          obtain ⟨a, h', result, hexec, hexec', hg⟩ := execCmdAt_prints ho hpopen
          rw [hexec, hexec', Option.bind_some]
          dsimp only
          rw [hg.holds, Option.bind_some]
          cases hjudge : judgeMd5 ⟨some result, none⟩ with
          | returned md5 | exception e_str =>
            obtain ⟨h'', hfree, hbal⟩ := Balanced.freed hg (judgeMd5 ⟨some result, none⟩)
            rw [hjudge] at hbal
            dsimp only
            rw [hfree]
            exact ⟨h'', rfl, hbal⟩
          | systemError => exact ⟨h', rfl, .lost hg (Or.inl rfl)⟩
          | undefined fault => exact ⟨h', rfl, .lost hg (Or.inr ⟨fault, rfl⟩)⟩

/-- **Blocks are given back.** Whatever the caller has allocated, for every command, its
output of any length or its failure to start: `movebycmd` and `file_md5` use no block that
is not there and free none twice, end as they do without pointers, leave the caller's blocks
alone and none of their own, or one at most if they end in another exception than the
library's or in something undefined. -/
theorem commands_balanced (ho : h.Owned as) (source destination : Bytes) (status : FileStatus)
    (filename : CString) :
    (∃ h', movebycmdAt popen source destination s h
        = some (movebycmd popen source destination s, h') ∧
      Balanced h as (movebycmd popen source destination s).1 h') ∧
    ∃ h', fileMd5At popen status filename s h = some (fileMd5 popen status filename s, h') ∧
      Balanced h as (fileMd5 popen status filename s).1 h' :=
  ⟨movebycmdAt_balanced ho source destination, fileMd5At_balanced ho status filename⟩

end

/-- Every command prints `no`. -/
def printsNo : Popen Unit := fun _ s => (s, some (ascii "no\n"))

/-- A heap with a block of the caller's. -/
def callerHeap : Heap Buffer := (Heap.empty.alloc [some 0x78]).2

theorem commands_balanced_no :
    (∃ h', movebycmdAt printsNo (ascii "a") (ascii "b") () callerHeap
        = some (movebycmd printsNo (ascii "a") (ascii "b") (), h') ∧
      Balanced callerHeap [0] (movebycmd printsNo (ascii "a") (ascii "b") ()).1 h') ∧
    ∃ h', fileMd5At printsNo (.size 1) (.ofBytes (ascii "a")) () callerHeap
        = some (fileMd5 printsNo (.size 1) (.ofBytes (ascii "a")) (), h') ∧
      Balanced callerHeap [0] (fileMd5 printsNo (.size 1) (.ofBytes (ascii "a")) ()).1 h' :=
  commands_balanced (Heap.owned_empty.alloc [some 0x78]) (ascii "a") (ascii "b") (.size 1)
    (.ofBytes (ascii "a"))

end CommonCpp.Files
