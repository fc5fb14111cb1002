import CommonCpp.Lib.Bytes

/-!
# Output streams that may stop early

A stream on a file that was opened, and the blocks it was asked to write, in order.
Of the `i`-th block `taken i` bytes at most reach the file. Where that is not the
whole block the stream is bad, and what it is asked from then on is lost without a
word. `taken` counts what has arrived once the stream is closed, so the last block
may have been in the stream's own buffer until then.

`Sink.Sound` is what every write keeps: the file is a prefix of what was asked, and
it is all of it exactly where no block was cut. `blockSizes` are the lengths of the
blocks of a file that is written through a buffer of a fixed size.
-/

namespace CommonCpp.Lib

structure Sink where
  /-- Nothing was lost so far. -/
  good : Bool
  file : Bytes
  asked : List Bytes

namespace Sink

/-- A stream that was just opened, on a file it has truncated. -/
def opened : Sink := ⟨true, [], []⟩

/-- A stream that could not be opened. -/
def refused : Sink := ⟨false, [], []⟩

def write (taken : Nat → Nat) (s : Sink) (block : Bytes) : Sink :=
  if s.good then
    { good := block.length ≤ taken s.asked.length
      file := s.file ++ block.take (taken s.asked.length)
      asked := s.asked ++ [block] }
  else { s with asked := s.asked ++ [block] }

/-- No block of these lengths is cut. -/
def Whole (taken : Nat → Nat) (lengths : List Nat) : Prop :=
  ∀ i n, lengths[i]? = some n → n ≤ taken i

theorem whole_nil (taken : Nat → Nat) : Whole taken [] := by
  intro i n h
  rw [List.getElem?_nil] at h
  cases h

theorem whole_concat {taken : Nat → Nat} {lengths : List Nat} {n : Nat} :
    Whole taken (lengths ++ [n]) ↔ Whole taken lengths ∧ n ≤ taken lengths.length := by
  constructor
  · intro h
    refine ⟨fun i m hm => h i m ?_, h lengths.length n List.getElem?_concat_length⟩
    rwa [List.getElem?_append_left (List.getElem?_eq_some_iff.mp hm).1]
  · intro ⟨h, hlast⟩ i m hm
    by_cases hi : i < lengths.length
    · rw [List.getElem?_append_left hi] at hm
      exact h i m hm
    · have heq : i = lengths.length := by
        have hlt := (List.getElem?_eq_some_iff.mp hm).1
        rw [List.length_append] at hlt
        exact Nat.le_antisymm (Nat.le_of_lt_succ hlt) (Nat.le_of_not_lt hi)
      rw [heq, List.getElem?_concat_length] at hm
      cases hm
      rwa [heq]

/-- The lengths of the blocks the stream was asked to write. -/
def lengths (s : Sink) : List Nat := s.asked.map List.length

/-- The file is what was asked, up to where the first block was cut. -/
structure Sound (taken : Nat → Nat) (s : Sink) : Prop where
  pre : s.file <+: s.asked.flatten
  whole : s.good = true ↔ Whole taken s.lengths
  full : s.good = true ↔ s.file.length = s.asked.flatten.length

theorem sound_opened (taken : Nat → Nat) : Sound taken opened where
  pre := List.nil_prefix
  whole := ⟨fun _ => whole_nil taken, fun _ => rfl⟩
  full := ⟨fun _ => rfl, fun _ => rfl⟩

theorem asked_write (taken : Nat → Nat) (s : Sink) (block : Bytes) :
    (s.write taken block).asked = s.asked ++ [block] := by
  unfold write
  split <;> rfl

theorem lengths_write (taken : Nat → Nat) (s : Sink) (block : Bytes) :
    (s.write taken block).lengths = s.lengths ++ [block.length] := by
  unfold lengths
  rw [asked_write, List.map_append]
  rfl

theorem flatten_write (taken : Nat → Nat) (s : Sink) (block : Bytes) :
    (s.write taken block).asked.flatten = s.asked.flatten ++ block := by
  rw [asked_write, List.flatten_append, List.flatten_singleton]

theorem Sound.file_eq {taken : Nat → Nat} {s : Sink} (h : Sound taken s) (hgood : s.good = true) :
    s.file = s.asked.flatten :=
  h.pre.eq_of_length (h.full.mp hgood)

theorem Sound.write {taken : Nat → Nat} {s : Sink} (h : Sound taken s) (block : Bytes) :
    Sound taken (s.write taken block) := by
  have hcount : s.lengths.length = s.asked.length := List.length_map _
  constructor
  case pre =>
    rw [flatten_write]
    unfold Sink.write
    by_cases hgood : s.good = true
    · rw [if_pos hgood, h.file_eq hgood]
      exact (List.prefix_append_right_inj _).mpr (List.take_prefix _ _)
    · rw [if_neg hgood]
      exact h.pre.trans (List.prefix_append _ _)
  case whole =>
    rw [lengths_write, whole_concat, hcount, ← h.whole]
    unfold Sink.write
    by_cases hgood : s.good = true
    · rw [if_pos hgood]
      simp [hgood]
    · rw [if_neg hgood]
      exact ⟨fun hg => absurd hg hgood, fun hg => absurd hg.1 hgood⟩
  case full =>
    rw [flatten_write, List.length_append]
    unfold Sink.write
    by_cases hgood : s.good = true
    · rw [if_pos hgood, h.file_eq hgood]
      dsimp only
      rw [List.length_append, List.length_take, decide_eq_true_iff]
      omega
    · rw [if_neg hgood]
      have hlt : s.file.length < s.asked.flatten.length :=
        Nat.lt_of_le_of_ne h.pre.length_le fun heq => hgood (h.full.mpr heq)
      exact ⟨fun hg => absurd hg hgood, fun heq => absurd heq (by dsimp only; omega)⟩

/-- Writing block after block. -/
def writes (taken : Nat → Nat) (s : Sink) (blocks : List Bytes) : Sink :=
  blocks.foldl (Sink.write taken) s

theorem Sound.writes {taken : Nat → Nat} {s : Sink} (h : Sound taken s) (blocks : List Bytes) :
    Sound taken (s.writes taken blocks) := by
  induction blocks generalizing s with
  | nil => exact h
  | cons block blocks ih => exact ih (h.write block)

theorem asked_writes (taken : Nat → Nat) (s : Sink) (blocks : List Bytes) :
    (s.writes taken blocks).asked = s.asked ++ blocks := by
  induction blocks generalizing s with
  | nil => exact (List.append_nil _).symm
  | cons block blocks ih =>
    show ((s.write taken block).writes taken blocks).asked = _
    rw [ih, asked_write, List.append_assoc]
    rfl

end Sink

/-! ## Full blocks and a rest -/

/-- The lengths of the blocks that `n` bytes make, at most `size` in each. -/
def blockSizes (size n : Nat) : List Nat :=
  List.replicate (n / size) size ++ if n % size = 0 then [] else [n % size]

theorem blockSizes_zero (size : Nat) : blockSizes size 0 = [] := by
  unfold blockSizes
  rw [Nat.zero_div, Nat.zero_mod, if_pos rfl]
  rfl

theorem blockSizes_of_pos {size n : Nat} (hsize : 0 < size) (hn : 0 < n) :
    blockSizes size n = min size n :: blockSizes size (n - min size n) := by
  by_cases hlong : size ≤ n
  · unfold blockSizes
    rw [Nat.min_eq_left hlong, Nat.div_eq_sub_div hsize hlong, Nat.mod_eq_sub_mod hlong,
      List.replicate_succ]
    rfl
  · have hlt : n < size := Nat.lt_of_not_le hlong
    rw [Nat.min_eq_right (Nat.le_of_lt hlt), Nat.sub_self, blockSizes_zero]
    unfold blockSizes
    rw [Nat.div_eq_of_lt hlt, Nat.mod_eq_of_lt hlt, if_neg (Nat.ne_of_gt hn)]
    rfl

end CommonCpp.Lib
