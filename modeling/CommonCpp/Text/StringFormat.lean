import CommonCpp.Text.Format
import CommonCpp.Lib.Buffer
import Mathlib.Algebra.Ring.Int.Defs

/-!
# `common::string_format`, step by step

`Format` says what a call yields. Here is the arithmetic behind that: the `int`
that the first `snprintf` returns, the `+ 1` made in `int`, the conversion to
`size_t`, the test `size <= 0` on an unsigned number, and the buffer that the
second `snprintf` fills.

The test catches -1 alone. What any other negative result becomes is a size that
no array can have, so `new` throws where the test does not (`format_negative`).
`format_measured` is the connection to `Format`.
-/

namespace CommonCpp.Text

open CommonCpp.Lib

/-- What the two calls of `snprintf` have to print: what the first returns and, if it is
no error, a text of that length. -/
structure Printing where
  result : Int32
  text : Bytes
  length : 0 ≤ result → text.length = result.toInt.toNat

/-- `size_t size = n` -/
def sizeOf (n : Int32) : UInt64 := n.toInt64.toUInt64

/-- `size_t size = snprintf(nullptr, 0, ..) + 1` -/
def formatSize (result : Int32) : Except Fault UInt64 :=
  if result = Int32.maxValue then .error .overflow else .ok (sizeOf (result + 1))

/-- `new char[size]`, which throws for more than `PTRDIFF_MAX` bytes. -/
def newChars (size : UInt64) : Option Buffer :=
  if size ≤ 0x7FFFFFFFFFFFFFFF then some (.new size.toNat) else none

/-- `snprintf(buf, size, ..)`: what fits in front of the NUL. -/
def printInto (buf : Buffer) (size : UInt64) (text : Bytes) : Option Buffer :=
  if size = 0 then some buf else buf.store 0 (text.take (size.toNat - 1) ++ [0])

/-- `string_format` -/
def formatPrinting (p : Printing) : Exit Bytes :=
  match formatSize p.result with
  | .error fault => .undefined fault
  | .ok size =>
    -- the comparison is unsigned
    if size ≤ 0 then .systemError
    else
      match newChars size with
      | none => .systemError
      | some buf =>
        match (printInto buf size p.text).bind fun buf => buf.load (size.toNat - 1) with
        | none => .undefined .outOfBounds
        | some s => .returned s

/-! ## The size -/

theorem toNat_sizeOf (n : Int32) : ((sizeOf n).toNat : Int) = n.toInt % 2 ^ 64 := by
  have hint : n.toInt64.toInt = n.toInt := Int32.toInt_toInt64 n
  have hnat : (sizeOf n).toNat = n.toInt64.toBitVec.toNat := rfl
  have hbits : n.toInt64.toInt = n.toInt64.toBitVec.toInt := rfl
  rw [hbits, BitVec.toInt_eq_toNat_cond] at hint
  have hlt := n.toInt64.toBitVec.isLt
  rw [hnat]
  split at hint
  · omega
  · omega

theorem toInt_succ {n : Int32} (h : n ≠ Int32.maxValue) : (n + 1).toInt = n.toInt + 1 := by
  have hle := n.toInt_le
  have hge := n.le_toInt
  have hne : n.toInt ≠ 2147483647 := fun he => h (Int32.toInt_inj.mp he)
  rw [Int32.toInt_maxValue] at hle
  rw [Int32.toInt_add, Int32.toInt_one]
  exact Int.bmod_eq_of_le (by omega) (by omega)

/-- Every other result is converted with its `+ 1`. -/
theorem formatSize_eq {n : Int32} (h : n ≠ Int32.maxValue) :
    formatSize n = .ok (sizeOf (n + 1)) ∧
      ((sizeOf (n + 1)).toNat : Int) = (n.toInt + 1) % 2 ^ 64 := by
  refine ⟨if_neg h, ?_⟩
  rw [toNat_sizeOf, toInt_succ h]

theorem newChars_eq (size : UInt64) :
    newChars size = if size.toNat ≤ 9223372036854775807 then some (.new size.toNat) else none := by
  unfold newChars
  simp only [UInt64.le_iff_toNat_le]
  rfl

/-- An error of `snprintf` ends in an exception, if not by the test then by `new`. -/
theorem format_negative {p : Printing} (h : p.result < 0) : formatPrinting p = .systemError := by
  have hneg : p.result.toInt < 0 := Int32.lt_iff_toInt_lt.mp h
  have hge := p.result.le_toInt
  have hne : p.result ≠ Int32.maxValue := by
    intro he
    rw [he, Int32.toInt_maxValue] at hneg
    omega
  obtain ⟨hsize, hvalue⟩ := formatSize_eq hne
  unfold formatPrinting
  rw [hsize]
  dsimp only
  by_cases hguard : sizeOf (p.result + 1) ≤ 0
  · rw [if_pos hguard]
  · have hlarge : newChars (sizeOf (p.result + 1)) = none := by
      rw [UInt64.le_iff_toNat_le] at hguard
      have hzero : (0 : UInt64).toNat = 0 := rfl
      rw [newChars_eq, if_neg (by omega)]
    rw [if_neg hguard, hlarge]

/-! ## The text -/

/-- What the function does with a text whose length is below `INT_MAX`: the steps, with
the size, the buffer and what is in it. -/
theorem format_steps {p : Printing} (h : 0 ≤ p.result) (hne : p.result ≠ Int32.maxValue) :
    ∃ size, formatSize p.result = .ok size ∧ size.toNat = p.text.length + 1 ∧
      newChars size = some (.new (p.text.length + 1)) ∧
      printInto (.new (p.text.length + 1)) size p.text = some ((p.text ++ [0]).map some) ∧
      formatPrinting p = .returned p.text := by
  obtain ⟨hsize, hvalue⟩ := formatSize_eq hne
  have hlength := p.length h
  have hpos : 0 ≤ p.result.toInt := Int32.le_iff_toInt_le.mp h
  have hle := p.result.toInt_le
  rw [Int32.toInt_maxValue] at hle
  have hnat : (sizeOf (p.result + 1)).toNat = p.text.length + 1 := by omega
  have hguard : ¬ sizeOf (p.result + 1) ≤ 0 := by
    rw [UInt64.le_iff_toNat_le, hnat]
    exact Nat.not_succ_le_zero _
  have hzero : sizeOf (p.result + 1) ≠ 0 := by
    intro he
    exact hguard (by rw [he]; exact UInt64.le_refl 0)
  have hnew : newChars (sizeOf (p.result + 1)) = some (.new (p.text.length + 1)) := by
    rw [newChars_eq, if_pos (by omega), hnat]
  have hprint : printInto (.new (p.text.length + 1)) (sizeOf (p.result + 1)) p.text
      = some ((p.text ++ [0]).map some) := by
    have hstore := store_new [] (s := p.text ++ [0]) (n := p.text.length + 1)
      (by rw [List.length_append]; exact Nat.le_refl _)
    have hrest : p.text.length + 1 - (p.text ++ [(0 : UInt8)]).length = 0 := by
      rw [List.length_append]
      exact Nat.sub_self _
    rw [hrest] at hstore
    rw [printInto, if_neg hzero, hnat, Nat.add_sub_cancel, List.take_length]
    exact hstore.trans (congrArg some (List.append_nil _))
  refine ⟨_, hsize, hnat, hnew, hprint, ?_⟩
  unfold formatPrinting
  rw [hsize]
  dsimp only
  rw [if_neg hguard, hnew]
  dsimp only
  rw [hprint, Option.bind_some, hnat, Nat.add_sub_cancel, List.map_append, load_append]

/-- The `+ 1` on the largest result is undefined. -/
theorem format_overflow {p : Printing} (h : p.result = Int32.maxValue) :
    formatPrinting p = .undefined .overflow := by
  have hsize : formatSize p.result = .error .overflow := if_pos h
  unfold formatPrinting
  rw [hsize]

/-- What is expected of the function for one result of the first `snprintf`. -/
structure SizeRight (p : Printing) : Prop where
  throws : p.result < 0 → formatPrinting p = .systemError
  prints : 0 ≤ p.result → ∃ size buf, formatSize p.result = .ok size ∧
    (size.toNat : Int) = p.result.toInt + 1 ∧ newChars size = some buf ∧
    (buf.length : Int) = p.result.toInt + 1 ∧
    printInto buf size p.text = some ((p.text ++ [0]).map some) ∧
    formatPrinting p = .returned p.text ∧ (p.text.length : Int) = p.result.toInt

/-- **The size arithmetic.** For every result of the first `snprintf` and every text of
that length: an error is thrown, or the size is one more than the result, the buffer
has that many bytes, the second `snprintf` prints all of the text into it and that is
what is returned, if and only if the result is not `INT_MAX`. -/
theorem sizeRight_iff (p : Printing) : SizeRight p ↔ p.result ≠ Int32.maxValue := by
  constructor
  · intro h hmax
    have hpos : 0 ≤ p.result := by
      rw [hmax]
      decide
    obtain ⟨size, buf, hsize, -⟩ := h.prints hpos
    cases hsize.symm.trans (if_pos hmax)
  · intro hne
    refine ⟨fun hneg => format_negative hneg, fun hpos => ?_⟩
    obtain ⟨size, hsize, hnat, hnew, hprint, hcall⟩ := format_steps hpos hne
    have hlength := p.length hpos
    have hnonneg : 0 ≤ p.result.toInt := Int32.le_iff_toInt_le.mp hpos
    refine ⟨size, _, hsize, by omega, hnew, ?_, hprint, hcall, by omega⟩
    rw [Buffer.new, List.length_replicate]
    omega

/-- A text of exactly `INT_MAX` bytes. -/
def longestPrinting : Printing where
  result := Int32.maxValue
  text := List.replicate INT_MAX 0x61
  length := fun _ => List.length_replicate

theorem longestPrinting_not_right : ¬ ∀ p : Printing, SizeRight p := by
  intro h
  obtain ⟨size, buf, hsize, -⟩ := (h longestPrinting).prints (by decide)
  cases hsize

/-! ## The calls of the library -/

/-- What `snprintf` returns for a text: its length, or an error where that is no `int`. -/
def returnedFor (text : Bytes) : Int32 :=
  if text.length ≤ INT_MAX then Int32.ofNat text.length else -1

theorem toInt_returnedFor {text : Bytes} (h : text.length ≤ INT_MAX) :
    (returnedFor text).toInt = text.length := by
  have hlt : text.length < 2 ^ 31 := by
    unfold INT_MAX at h
    omega
  rw [returnedFor, if_pos h]
  exact Int32.toInt_ofNat_of_lt hlt

def measured (text : Bytes) : Printing where
  result := returnedFor text
  text := text
  length := by
    intro h
    by_cases hfits : text.length ≤ INT_MAX
    · rw [toInt_returnedFor hfits]
      rfl
    · rw [returnedFor, if_neg hfits] at h
      cases h

/-- Step by step the function does what `Format` says of it. -/
theorem format_measured {format : Bytes} {args : List Arg} {text : Bytes}
    (h : snprintf format args = some text) :
    formatPrinting (measured text) = match stringFormat format args with
      | some text => .returned text
      | none => formatFailure format args := by
  rw [stringFormat, formatFailure, h, Option.bind_some]
  dsimp only
  have hresult : (measured text).result = returnedFor text := rfl
  rcases Nat.lt_trichotomy text.length INT_MAX with hlt | heq | hgt
  · have hint := toInt_returnedFor (Nat.le_of_lt hlt)
    have hpos : 0 ≤ (measured text).result := by
      rw [Int32.le_iff_toInt_le, hresult, hint]
      exact Int.natCast_nonneg _
    have hne : (measured text).result ≠ Int32.maxValue := by
      intro he
      rw [← hresult, he, Int32.toInt_maxValue] at hint
      unfold INT_MAX at hlt
      omega
    obtain ⟨size, -, -, -, -, hcall⟩ := format_steps hpos hne
    rw [hcall, if_pos hlt]
    rfl
  · have hint := toInt_returnedFor (Nat.le_of_eq heq)
    have hmax : (measured text).result = Int32.maxValue := by
      rw [hresult, ← Int32.toInt_inj, hint, heq, Int32.toInt_maxValue]
      rfl
    rw [format_overflow hmax, if_neg (by omega)]
    dsimp only
    rw [if_pos heq]
  · have hneg : (measured text).result < 0 := by
      rw [hresult, returnedFor, if_neg (by omega)]
      decide
    rw [format_negative hneg, if_neg (by omega)]
    dsimp only
    rw [if_neg (by omega)]

end CommonCpp.Text
