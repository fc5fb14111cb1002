import Mathlib.Data.List.TakeWhile

/-!
# Byte strings

A C++ `std::string` is a list of bytes; a C string is the part of a byte list
in front of its first NUL. Everything here is about bytes in general: the
program's own functions start in the modules that import this one.

`int32` is the two's-complement narrowing that `int n = s.size()` performs,
so a length of `2 ^ 31` or more turns negative or small exactly as it does in
the compiled code.
-/

namespace CommonCpp.Lib

/-- The bytes of a `std::string`. -/
abbrev Bytes := List UInt8

/-- The bytes of an ASCII literal. -/
def ascii (s : String) : Bytes := s.toList.map fun c => UInt8.ofNat c.toNat

/-- Largest value of a 32-bit signed `int`. -/
def INT_MAX : Nat := 2147483647

/-- Narrowing conversion of a 64-bit size to a 32-bit signed `int`. -/
def int32 (n : Nat) : Int := (BitVec.ofNat 32 n).toInt

/-- A size that fits an `int` survives the conversion. -/
theorem int32_of_lt {n : Nat} (h : n < 2147483648) : int32 n = n := by
  unfold int32
  rw [BitVec.toInt_eq_toNat_cond, BitVec.toNat_ofNat, Nat.mod_eq_of_lt (by omega)]
  rw [if_pos (by omega)]

/-- `strlen`: the number of bytes in front of the first NUL. -/
def strlen (s : Bytes) : Nat := (s.takeWhile (· != 0)).length

/-- Byte by byte along the string, not through all bytes there are. -/
instance (s : Bytes) (P : UInt8 → Prop) [DecidablePred P] : Decidable (∀ b ∈ s, P b) :=
  List.decidableBAll P s

/-- A byte string that can be passed as a C string without being cut. -/
def NulFree (s : Bytes) : Prop := ∀ b ∈ s, b ≠ 0

instance (s : Bytes) : Decidable (NulFree s) :=
  inferInstanceAs (Decidable (∀ b ∈ s, b ≠ 0))

/-- What a callee sees of a `std::string` passed as `c_str()`. -/
def cStr (s : Bytes) : Bytes := s.takeWhile (· != 0)

theorem cStr_of_nulFree {s : Bytes} (h : NulFree s) : cStr s = s := by
  unfold cStr
  rw [List.takeWhile_eq_self_iff]
  intro b hb
  simpa using h b hb

theorem strlen_of_nulFree {s : Bytes} (h : NulFree s) : strlen s = s.length := by
  show (cStr s).length = s.length
  rw [cStr_of_nulFree h]

theorem nulFree_cStr (s : Bytes) : NulFree (cStr s) := by
  intro b hb
  have := List.mem_takeWhile_imp hb
  simpa using this

/-- A C string: the bytes in front of its terminating NUL. -/
@[ext] structure CString where
  bytes : Bytes
  nulFree : NulFree bytes
deriving DecidableEq

/-- `std::string::c_str()`. -/
def CString.ofBytes (s : Bytes) : CString := ⟨cStr s, nulFree_cStr s⟩

/-- A statement about every byte is a statement about the 256 of them. -/
theorem forall_byte (P : UInt8 → Prop) (h : ∀ n : Fin 256, P (UInt8.ofNat n.val)) (c : UInt8) :
    P c := by
  have hc := h ⟨c.toNat, UInt8.toNat_lt c⟩
  rwa [UInt8.ofNat_toNat] at hc

end CommonCpp.Lib
