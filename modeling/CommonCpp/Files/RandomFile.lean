import CommonCpp.Lib.Buffer
import CommonCpp.Lib.Sink
import Mathlib.Algebra.Group.Nat.Defs

/-!
# `common::create_random_file` and `common::file_size`

The file is written in blocks of one megabyte from a single buffer. Each round fills
as much of the buffer as is left to write, one draw of the generator for each byte,
and hands that part to the stream. The bytes behind it are those of the round before
and are not written. Nothing is reported: a file that cannot be opened is left as it
is, and a write that fails cuts the file.

`fill_spec` is the inner loop, `writeLoop_spec` the outer one. `random_file` puts them
together and says when `file_size` shows that something was lost.
-/

namespace CommonCpp.Files

open CommonCpp.Lib

/-- `1024 * 1024` -/
def chunk : UInt64 := 1024 * 1024

theorem toNat_chunk : chunk.toNat = 1048576 := rfl

/-- `std::min(chunk, size - written)` -/
def toWrite (size written : UInt64) : UInt64 := min chunk (size - written)

theorem toNat_left {size written : UInt64} (h : written ≤ size) :
    (size - written).toNat = size.toNat - written.toNat :=
  UInt64.toNat_sub_of_le size written h

theorem toNat_toWrite {size written : UInt64} (h : written ≤ size) :
    (toWrite size written).toNat = min 1048576 (size.toNat - written.toNat) := by
  rw [← toNat_left h, ← toNat_chunk]
  show (if chunk ≤ size - written then chunk else size - written).toNat = _
  by_cases hle : chunk ≤ size - written
  · rw [if_pos hle, Nat.min_eq_left (UInt64.le_iff_toNat_le.mp hle)]
  · have hlt := UInt64.lt_iff_toNat_lt.mp (UInt64.not_le.mp hle)
    rw [if_neg hle, Nat.min_eq_right (Nat.le_of_lt hlt)]

/-- `written += to_write` does not wrap. -/
theorem toNat_written {size written : UInt64} (h : written ≤ size) :
    (written + toWrite size written).toNat = written.toNat + (toWrite size written).toNat := by
  have hlt := size.toNat_lt
  have hle := UInt64.le_iff_toNat_le.mp h
  rw [UInt64.toNat_add, Nat.mod_eq_of_lt]
  rw [toNat_toWrite h]
  omega

section Generator

variable {Rng : Type} (dist : Rng → UInt8 × Rng)

/-- The inner loop: `buffer[i] = dist(rng)` for `i` up to `to_write`. -/
def fill (toWrite i : Nat) (buffer : Buffer) (rng : Rng) : Option (Buffer × Rng) :=
  if i < toWrite then
    match buffer.store i [(dist rng).1] with
    | none => none
    | some buffer => fill toWrite (i + 1) buffer (dist rng).2
  else some (buffer, rng)
termination_by toWrite - i

/-- The outer loop. No result where the buffer is left. -/
def writeLoop (taken : Nat → Nat) (size written : UInt64) (buffer : Buffer) (rng : Rng)
    (out : Sink) : Option Sink :=
  if written < size then
    match fill dist (toWrite size written).toNat 0 buffer rng with
    | none => none
    | some (buffer, rng) =>
      (buffer.load (toWrite size written).toNat).bind fun block =>
        writeLoop taken size (written + toWrite size written) buffer rng (out.write taken block)
  else some out
termination_by size.toNat - written.toNat
decreasing_by
  have hlt : written.toNat < size.toNat := UInt64.lt_iff_toNat_lt.mp ‹written < size›
  have hle : written ≤ size := UInt64.le_iff_toNat_le.mpr (Nat.le_of_lt hlt)
  rw [toNat_written hle, toNat_toWrite hle]
  omega

/-- `create_random_file`, with what is found at the path before: whether the stream
opens, and what of each write reaches the file. Yields what is at the path then. -/
def createRandomFile (opens : Bool) (taken : Nat → Nat) (old : Option Bytes) (size : UInt64)
    (rng : Rng) : Option (Option Bytes × Sink) :=
  let out := if opens then Sink.opened else Sink.refused
  let buffer := List.replicate chunk.toNat (some 0)
  (writeLoop dist taken size 0 buffer rng out).map fun out =>
    (if opens then some out.file else old, out)

end Generator

/-- `file_size`: the position at the end, or `-1` where there is no file to open. -/
def fileSize (file : Option Bytes) : UInt64 :=
  file.elim (-1) fun content => UInt64.ofNat content.length

/-- The size of a file tells its length as long as there are enough sizes. -/
theorem fileSize_eq_iff {content : Bytes} {size : UInt64} (h : content.length ≤ size.toNat) :
    fileSize (some content) = size ↔ content.length = size.toNat := by
  show UInt64.ofNat content.length = size ↔ _
  have hlt := Nat.lt_of_le_of_lt h size.toNat_lt
  rw [← UInt64.toNat_inj, UInt64.toNat_ofNat', Nat.mod_eq_of_lt hlt]

/-! ## What is drawn -/

section Drawn

variable {Rng : Type} (dist : Rng → UInt8 × Rng)

/-- The next `n` bytes of the generator. -/
def draws : Nat → Rng → Bytes
  | 0, _ => []
  | n + 1, rng => (dist rng).1 :: draws n (dist rng).2

/-- The generator behind them. -/
def later : Nat → Rng → Rng
  | 0, rng => rng
  | n + 1, rng => later n (dist rng).2

theorem length_draws (n : Nat) (rng : Rng) : (draws dist n rng).length = n := by
  induction n generalizing rng with
  | zero => rfl
  | succ n ih =>
    show (draws dist n (dist rng).2).length + 1 = n + 1
    rw [ih]

theorem draws_add (m n : Nat) (rng : Rng) :
    draws dist (m + n) rng = draws dist m rng ++ draws dist n (later dist m rng) := by
  induction m generalizing rng with
  | zero =>
    rw [Nat.zero_add]
    rfl
  | succ m ih =>
    rw [Nat.succ_add]
    show (dist rng).1 :: draws dist (m + n) (dist rng).2 = _
    rw [ih]
    rfl

end Drawn

/-! ## The loops -/

section Loops

variable {Rng : Type} (dist : Rng → UInt8 × Rng)

/-- The inner loop stores the next draws behind those it has stored, and nowhere else. -/
theorem fill_spec (toWrite : Nat) (front : Bytes) (b : Buffer) (rng : Rng)
    (hfront : front.length ≤ toWrite) (hfit : toWrite - front.length ≤ b.length) :
    fill dist toWrite front.length (front.map some ++ b) rng
      = some ((front ++ draws dist (toWrite - front.length) rng).map some
          ++ b.drop (toWrite - front.length), later dist (toWrite - front.length) rng) := by
  generalize hn : toWrite - front.length = n at hfit
  induction n generalizing front b rng with
  | zero =>
    unfold fill
    rw [if_neg (by omega)]
    show _ = some ((front ++ []).map some ++ b.drop 0, rng)
    rw [List.append_nil, List.drop_zero]
  | succ n ih =>
    have hstore : Buffer.store (front.map some ++ b) front.length [(dist rng).1]
        = some ((front ++ [(dist rng).1]).map some ++ b.drop 1) :=
      store_append front (s := [(dist rng).1]) (Nat.le_trans (Nat.le_add_left 1 n) hfit)
    have hlen : (front ++ [(dist rng).1]).length = front.length + 1 := List.length_append
    have hstep := ih (front ++ [(dist rng).1]) (b.drop 1) (dist rng).2 (by omega) (by omega)
      (by rw [List.length_drop]; omega)
    rw [hlen, List.drop_drop, List.append_assoc, Nat.add_comm 1 n] at hstep
    unfold fill
    rw [if_pos (by omega), hstore]
    exact hstep

/-- One round: the buffer keeps its size, and the block is what was drawn. -/
theorem round_spec (n : Nat) (b : Buffer) (rng : Rng) (hfit : n ≤ b.length) :
    ∃ b', fill dist n 0 b rng = some (b', later dist n rng) ∧ b'.length = b.length ∧
      b'.load n = some (draws dist n rng) := by
  have hfill := fill_spec dist n [] b rng (Nat.zero_le n) hfit
  refine ⟨_, hfill, ?_, ?_⟩
  · rw [List.length_append, List.length_map, List.nil_append, length_draws, List.length_drop]
    exact Nat.add_sub_cancel' hfit
  · have hload := load_append (draws dist n rng) (b.drop n)
    rwa [length_draws] at hload

/-- The outer loop hands the stream the rest of the bytes in full blocks and a short one. -/
theorem writeLoop_spec (taken : Nat → Nat) (size written : UInt64) (b : Buffer) (rng : Rng)
    (out : Sink) (hle : written ≤ size) (hb : b.length = 1048576) :
    ∃ blocks, writeLoop dist taken size written b rng out = some (out.writes taken blocks) ∧
      blocks.flatten = draws dist (size.toNat - written.toNat) rng ∧
      blocks.map List.length = blockSizes 1048576 (size.toNat - written.toNat) := by
  have hround (written : UInt64) (b : Buffer) (rng : Rng) (hlt : written < size)
      (hb : b.length = 1048576) :
      ∃ b', fill dist (toWrite size written).toNat 0 b rng
          = some (b', later dist (toWrite size written).toNat rng) ∧ b'.length = 1048576 ∧
        b'.load (toWrite size written).toNat
          = some (draws dist (toWrite size written).toNat rng) := by
    have hfit : (toWrite size written).toNat ≤ b.length := by
      rw [hb, toNat_toWrite (UInt64.le_of_lt hlt)]
      exact Nat.min_le_left ..
    obtain ⟨b', hfill, hlen, hload⟩ := round_spec dist _ b rng hfit
    exact ⟨b', hfill, hlen.trans hb, hload⟩
  fun_induction writeLoop dist taken size written b rng out with
  | case1 written b rng out hlt hfill =>
    obtain ⟨b', hfill', -⟩ := hround written b rng hlt hb
    rw [hfill] at hfill'
    cases hfill'
  | case2 written b rng out hlt b' rng' hfill ih =>
    obtain ⟨b'', hfill', hlen, hload⟩ := hround written b rng hlt hb
    rw [hfill] at hfill'
    cases hfill'
    have hnext := toNat_written (UInt64.le_of_lt hlt)
    have hsize := toNat_toWrite (UInt64.le_of_lt hlt)
    have hnat := UInt64.lt_iff_toNat_lt.mp hlt
    obtain ⟨blocks, hloop, hflatten, hlengths⟩ :=
      ih _ (UInt64.le_iff_toNat_le.mpr (by omega)) hlen
    rw [hnext, Nat.sub_add_eq] at hflatten hlengths
    rw [hload, Option.bind_some]
    refine ⟨_ :: blocks, hloop, ?_, ?_⟩
    · rw [List.flatten_cons, hflatten, ← draws_add]
      congr 1
      omega
    · rw [List.map_cons, length_draws, hlengths, hsize, ← blockSizes_of_pos (by decide) (by omega)]
  | case3 written b rng out hnot =>
    have hnone : size.toNat - written.toNat = 0 :=
      Nat.sub_eq_zero_of_le (UInt64.le_iff_toNat_le.mp (UInt64.not_lt.mp hnot))
    rw [hnone, blockSizes_zero]
    exact ⟨[], rfl, rfl, rfl⟩

/-- **A random file is as long as it should be, or it is cut.** For every generator, size,
path and pattern of failures: no byte is stored outside the buffer or read from it before
it was drawn; the stream is asked for the drawn bytes, each once and in order, in blocks of a
megabyte and a shorter last one. Where the stream opens, the file holds a prefix of these
bytes, and `file_size` answers the size if and only if no block was cut. Where it does not
open, what was at the path stays. -/
theorem random_file (opens : Bool) (taken : Nat → Nat) (old : Option Bytes) (size : UInt64)
    (rng : Rng) :
    ∃ file out, createRandomFile dist opens taken old size rng = some (file, out) ∧
      out.asked.flatten = draws dist size.toNat rng ∧
      out.lengths = blockSizes 1048576 size.toNat ∧
      (opens = true ∧
          (∃ content, file = some content ∧ content <+: draws dist size.toNat rng) ∧
          (fileSize file = size ↔ Sink.Whole taken (blockSizes 1048576 size.toNat)) ∨
        opens = false ∧ file = old) := by
  have hasked : (if opens then Sink.opened else Sink.refused).asked = [] := by
    cases opens <;> rfl
  have hsound : opens = true → Sink.Sound taken (if opens then Sink.opened else Sink.refused) := by
    intro hopens
    rw [if_pos hopens]
    exact Sink.sound_opened taken
  unfold createRandomFile
  dsimp only
  generalize (if opens then Sink.opened else Sink.refused) = out at hasked hsound
  obtain ⟨blocks, hloop, hflatten, hlengths⟩ := writeLoop_spec dist taken size 0
    (List.replicate chunk.toNat (some 0)) rng out (UInt64.le_iff_toNat_le.mpr (Nat.zero_le _))
    List.length_replicate
  have hblocks : (out.writes taken blocks).asked = blocks := by
    rw [Sink.asked_writes, hasked, List.nil_append]
  have hall : size.toNat - (0 : UInt64).toNat = size.toNat := Nat.sub_zero _
  rw [← hblocks, hall] at hflatten hlengths
  rw [hloop, Option.map_some]
  refine ⟨_, _, rfl, hflatten, hlengths, ?_⟩
  cases opens with
  | false => exact Or.inr ⟨rfl, rfl⟩
  | true =>
    have hend := (hsound rfl).writes blocks
    have hpre := hflatten ▸ hend.pre
    refine Or.inl ⟨rfl, ⟨_, rfl, hpre⟩, ?_⟩
    rw [if_pos rfl, fileSize_eq_iff (by simpa [length_draws] using hpre.length_le)]
    calc (out.writes taken blocks).file.length = size.toNat
        ↔ (out.writes taken blocks).file.length
            = (out.writes taken blocks).asked.flatten.length := by rw [hflatten, length_draws]
      _ ↔ (out.writes taken blocks).good = true := hend.full.symm
      _ ↔ Sink.Whole taken (blockSizes 1048576 size.toNat) := hlengths ▸ hend.whole

end Loops

end CommonCpp.Files
