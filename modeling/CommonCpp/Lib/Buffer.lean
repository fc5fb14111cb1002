import CommonCpp.Lib.Bytes

/-!
# C buffers

Arrays of `char` with their bounds. A byte nothing was stored in is `none`;
an access past the end, or the reading of such a byte, has no result. So an
operation that yields a buffer stayed inside every array it touched.

`Reads` is what the proofs work with: the C string at the start of a buffer.
`fgets` and the pieces it cuts a stream into are at the end.
-/

namespace CommonCpp.Lib

/-- The bytes of an array. -/
abbrev Buffer := List (Option UInt8)

/-- `new char[n]` -/
def Buffer.new (n : Nat) : Buffer := List.replicate n none

/-- `strlen`, which looks at the bytes up to the first NUL. -/
def Buffer.strlen : Buffer → Option Nat
  | [] => none
  | none :: _ => none
  | some c :: b => if c = 0 then some 0 else (Buffer.strlen b).map (· + 1)

/-- The first `n` bytes. -/
def Buffer.load : Nat → Buffer → Option Bytes
  | 0, _ => some []
  | _ + 1, [] => none
  | _ + 1, none :: _ => none
  | n + 1, some c :: b => (Buffer.load n b).map (c :: ·)

/-- The bytes of `s`, stored from index `i` on. -/
def Buffer.store (b : Buffer) (i : Nat) (s : Bytes) : Option Buffer :=
  if i + s.length ≤ b.length then some (b.take i ++ s.map some ++ b.drop (i + s.length)) else none

/-- `memcpy(dst + i, src, n)` -/
def Buffer.memcpy (dst : Buffer) (i : Nat) (src : Buffer) (n : Nat) : Option Buffer :=
  (src.load n).bind fun s => dst.store i s

/-- The C string a pointer to the start of the buffer stands for. -/
def Buffer.text (b : Buffer) : Option Bytes := b.strlen.bind fun n => b.load n

/-- The buffer starts with the bytes of `s` and a NUL. -/
def Buffer.Reads (b : Buffer) (s : Bytes) : Prop :=
  NulFree s ∧ ∃ behind, b = s.map some ++ some 0 :: behind

/-! ## Buffers that hold a string -/

theorem nulFree_cons {c : UInt8} {s : Bytes} : NulFree (c :: s) ↔ c ≠ 0 ∧ NulFree s :=
  List.forall_mem_cons

theorem nulFree_append {s t : Bytes} : NulFree (s ++ t) ↔ NulFree s ∧ NulFree t :=
  List.forall_mem_append

theorem Buffer.Reads.strlen {b : Buffer} {s : Bytes} (h : b.Reads s) :
    b.strlen = some s.length := by
  obtain ⟨hs, behind, rfl⟩ := h
  induction s with
  | nil => rfl
  | cons c s ih =>
    obtain ⟨hc, hs⟩ := nulFree_cons.mp hs
    rw [List.map_cons, List.cons_append, Buffer.strlen, if_neg hc, ih hs]
    rfl

theorem load_append (s : Bytes) (b : Buffer) :
    Buffer.load s.length (s.map some ++ b) = some s := by
  induction s with
  | nil => rfl
  | cons c s ih =>
    show (Buffer.load s.length (s.map some ++ b)).map (c :: ·) = _
    rw [ih]
    rfl

theorem Buffer.Reads.load {b : Buffer} {s : Bytes} (h : b.Reads s) : b.load s.length = some s := by
  obtain ⟨-, behind, rfl⟩ := h
  exact load_append s _

theorem Buffer.Reads.text {b : Buffer} {s : Bytes} (h : b.Reads s) : b.text = some s := by
  unfold Buffer.text
  rw [h.strlen, Option.bind_some, h.load]

/-- What is stored is found behind what was there before. -/
theorem store_append (front : Bytes) {b : Buffer} {s : Bytes} (h : s.length ≤ b.length) :
    Buffer.store (front.map some ++ b) front.length s
      = some ((front ++ s).map some ++ b.drop s.length) := by
  have hfront : (front.map some).length = front.length := List.length_map _
  have htake : (front.map some ++ b).take front.length = front.map some := by
    rw [← hfront, List.take_left]
  have hdrop : (front.map some ++ b).drop (front.length + s.length) = b.drop s.length := by
    rw [← hfront, List.drop_length_add_append]
  unfold Buffer.store
  rw [if_pos (by rw [List.length_append, hfront]; omega), htake, hdrop, List.map_append]

/-- The same where there is still nothing behind it. -/
theorem store_new (front : Bytes) {s : Bytes} {n : Nat} (h : s.length ≤ n) :
    Buffer.store (front.map some ++ Buffer.new n) front.length s
      = some ((front ++ s).map some ++ Buffer.new (n - s.length)) := by
  have hlen : s.length ≤ (Buffer.new n).length := by
    unfold Buffer.new
    rw [List.length_replicate]
    exact h
  rw [store_append front hlen]
  unfold Buffer.new
  rw [List.drop_replicate]

/-- A string and a NUL start with the string's own text and a NUL. -/
theorem exists_append_nul (s : Bytes) : ∃ behind, s ++ [0] = cStr s ++ 0 :: behind := by
  unfold cStr
  induction s with
  | nil => exact ⟨[], rfl⟩
  | cons c s ih =>
    by_cases hc : c = 0
    · refine ⟨s ++ [0], ?_⟩
      rw [List.takeWhile_cons_of_neg (by simpa using hc), hc]
      rfl
    · obtain ⟨behind, hs⟩ := ih
      refine ⟨behind, ?_⟩
      rw [List.takeWhile_cons_of_pos (by simpa using hc), List.cons_append, hs, List.cons_append]

/-- A string and a NUL, stored at the start, are what the buffer reads from then on. -/
theorem store_reads {b : Buffer} {s : Bytes} (hs : s.length < b.length) :
    ∃ b', b.store 0 (s ++ [0]) = some b' ∧ b'.length = b.length ∧ b'.Reads (cStr s) := by
  have hlen : (s ++ [(0 : UInt8)]).length ≤ b.length := by
    rw [List.length_append]
    exact hs
  refine ⟨_, store_append [] hlen, ?_, nulFree_cStr s, ?_⟩
  · rw [List.nil_append, List.length_append, List.length_map, List.length_drop]
    omega
  · obtain ⟨behind, happ⟩ := exists_append_nul s
    refine ⟨behind.map some ++ b.drop (s ++ [0]).length, ?_⟩
    rw [List.nil_append, happ, List.map_append, List.append_assoc]
    rfl

/-! ## Reading lines -/

/-- `'\n'` -/
def newline : UInt8 := 0x0A

/-- At most `n` bytes of a stream, up to its first newline. -/
def cut : Nat → Bytes → Bytes
  | 0, _ => []
  | _ + 1, [] => []
  | n + 1, c :: s => if c = newline then [c] else c :: cut n s

/-- `fgets(buffer, size, stream)`: the bytes stored in front of the NUL, and what is
left to read; `none` is the null pointer. -/
def fgets (size : Nat) (stream : Bytes) : Option (Bytes × Bytes) :=
  if stream = [] then none
  else some (cut (size - 1) stream, stream.drop (cut (size - 1) stream).length)

theorem cut_append_drop (n : Nat) (s : Bytes) : cut n s ++ s.drop (cut n s).length = s := by
  induction n generalizing s with
  | zero => rfl
  | succ n ih =>
    cases s with
    | nil => rfl
    | cons c s =>
      rw [cut]
      split
      · rfl
      · show c :: (cut n s ++ s.drop (cut n s).length) = c :: s
        rw [ih]

theorem length_cut_le (n : Nat) (s : Bytes) : (cut n s).length ≤ n := by
  induction n generalizing s with
  | zero => exact Nat.le_refl 0
  | succ n ih =>
    cases s with
    | nil => exact Nat.zero_le _
    | cons c s =>
      rw [cut]
      split
      · exact Nat.succ_le_succ (Nat.zero_le n)
      · exact Nat.succ_le_succ (ih s)

theorem fgets_length {size : Nat} {stream piece rest : Bytes} (hsize : 2 ≤ size)
    (h : fgets size stream = some (piece, rest)) : rest.length < stream.length := by
  unfold fgets at h
  split at h
  · cases h
  · next hne =>
    cases h
    obtain ⟨n, hn⟩ : ∃ n, size - 1 = n + 1 := ⟨size - 2, by omega⟩
    cases stream with
    | nil => exact absurd rfl hne
    | cons c s =>
      have hpos : 0 < (cut (size - 1) (c :: s)).length := by
        rw [hn, cut]
        split <;> exact Nat.succ_pos _
      rw [List.length_drop, List.length_cons]
      omega

/-- The pieces in which `fgets` reads a stream into a buffer of `size` bytes. There is
room for nothing in a buffer of one. -/
def pieces (size : Nat) (stream : Bytes) : List Bytes :=
  match fgets size stream with
  | none => []
  | some (piece, rest) =>
    if rest.length < stream.length then piece :: pieces size rest else []
termination_by stream.length

theorem pieces_of_fgets {size : Nat} {stream piece rest : Bytes} (hsize : 2 ≤ size)
    (h : fgets size stream = some (piece, rest)) :
    pieces size stream = piece :: pieces size rest := by
  rw [pieces, h]
  exact if_pos (fgets_length hsize h)

theorem pieces_of_end {size : Nat} {stream : Bytes} (h : fgets size stream = none) :
    pieces size stream = [] := by
  rw [pieces, h]

theorem fgets_eq_none {size : Nat} {stream : Bytes} : fgets size stream = none ↔ stream = [] := by
  unfold fgets
  by_cases hnil : stream = []
  · rw [if_pos hnil]
    exact ⟨fun _ => hnil, fun _ => rfl⟩
  · rw [if_neg hnil]
    exact ⟨nofun, fun h => absurd h hnil⟩

/-- One call takes a piece off the stream that fits its buffer. -/
theorem fgets_eq_some {size : Nat} {stream piece rest : Bytes}
    (h : fgets size stream = some (piece, rest)) :
    stream = piece ++ rest ∧ piece.length ≤ size - 1 := by
  unfold fgets at h
  split at h
  · cases h
  · cases h
    exact ⟨(cut_append_drop _ _).symm, length_cut_le _ _⟩

/-- All of the stream is read. -/
theorem flatten_pieces {size : Nat} (hsize : 2 ≤ size) (stream : Bytes) :
    (pieces size stream).flatten = stream := by
  induction stream using pieces.induct size with
  | case1 stream hend => rw [pieces_of_end hend, fgets_eq_none.mp hend, List.flatten_nil]
  | case2 stream piece rest h hlen ih =>
    rw [pieces_of_fgets hsize h, List.flatten_cons, ih, (fgets_eq_some h).1]
  | case3 stream piece rest h hlen => exact absurd (fgets_length hsize h) hlen

end CommonCpp.Lib
