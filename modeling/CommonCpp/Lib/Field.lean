import CommonCpp.Lib.Bytes
import Mathlib.Algebra.Group.Nat.Defs

/-!
# Fields of a binary record

Unsigned integers of a fixed width, least significant byte first, and C
strings, both read at an offset of a buffer. Reading at an offset only depends
on what the buffer holds there, whatever stands in front of it
(`field_append`, `cStringAt_append`).
-/

namespace CommonCpp.Lib

/-- The lowest `width` bytes of `n`, the lowest first. -/
def littleEndian : Nat → Nat → Bytes
  | 0, _ => []
  | width + 1, n => UInt8.ofNat (n % 256) :: littleEndian width (n / 256)

/-- The number some bytes spell. -/
def littleEndianValue : Bytes → Nat
  | [] => 0
  | b :: bs => b.toNat + 256 * littleEndianValue bs

@[simp] theorem length_littleEndian (width n : Nat) : (littleEndian width n).length = width := by
  induction width generalizing n with
  | zero => rfl
  | succ width ih => rw [littleEndian, List.length_cons, ih]

/-- A number that fits is read back. -/
theorem littleEndianValue_littleEndian {width n : Nat} (h : n < 256 ^ width) :
    littleEndianValue (littleEndian width n) = n := by
  induction width generalizing n with
  | zero =>
    have hzero : n = 0 := by simpa using h
    rw [hzero]
    rfl
  | succ width ih =>
    have hdiv : n / 256 < 256 ^ width := by
      refine (Nat.div_lt_iff_lt_mul (by decide)).mpr ?_
      rwa [← Nat.pow_succ]
    have hlow : (UInt8.ofNat (n % 256)).toNat = n % 256 := by
      rw [UInt8.toNat_ofNat']
      omega
    rw [littleEndian, littleEndianValue, ih hdiv, hlow]
    omega

/-- The number in the `width` bytes at `offset`; `none` past the end. -/
def field (width : Nat) (buffer : Bytes) (offset : Nat) : Option Nat :=
  let bytes := (buffer.drop offset).take width
  if bytes.length = width then some (littleEndianValue bytes) else none

/-- The field that stands behind `front`. -/
theorem field_append {width n : Nat} (h : n < 256 ^ width) (front back : Bytes) :
    field width (front ++ (littleEndian width n ++ back)) front.length = some n := by
  have htake : (littleEndian width n ++ back).take width = littleEndian width n :=
    List.take_left' (length_littleEndian width n)
  unfold field
  rw [List.drop_left]
  dsimp only
  rw [htake, length_littleEndian, if_pos rfl, littleEndianValue_littleEndian h]

/-- The C string at `offset`; `none` if no NUL ends it in the buffer. -/
def cStringAt (buffer : Bytes) (offset : Nat) : Option Bytes :=
  let bytes := buffer.drop offset
  if 0 ∈ bytes then some (cStr bytes) else none

theorem cStringAt_append (front bytes : Bytes) :
    cStringAt (front ++ bytes) front.length = if 0 ∈ bytes then some (cStr bytes) else none := by
  unfold cStringAt
  rw [List.drop_left]

theorem cStr_cons {c : UInt8} (hc : c ≠ 0) (s : Bytes) : cStr (c :: s) = c :: cStr s :=
  List.takeWhile_cons_of_pos (by simpa using hc)

/-- What follows the NUL of a C string does not belong to it. -/
theorem cStr_append {s : Bytes} (h : 0 ∈ s) (rest : Bytes) : cStr (s ++ rest) = cStr s := by
  induction s with
  | nil => cases h
  | cons c s ih =>
    by_cases hc : c = 0
    · rw [hc]
      rfl
    · have hmem : 0 ∈ s := (List.mem_cons.mp h).resolve_left fun he => hc he.symm
      rw [List.cons_append, cStr_cons hc, cStr_cons hc, ih hmem]

/-- Only a NUL spells the empty C string. -/
theorem cStr_eq_nil_iff {s : Bytes} (h : 0 ∈ s) : cStr s = [] ↔ s.head? = some 0 := by
  cases s with
  | nil => cases h
  | cons c s =>
    by_cases hc : c = 0
    · rw [hc]
      exact ⟨fun _ => rfl, fun _ => rfl⟩
    · rw [cStr_cons hc]
      simp [hc]

end CommonCpp.Lib
