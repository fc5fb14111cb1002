import CommonCpp.Lib.Percent

/-!
# Hexadecimal text

Two lower-case digits for each byte, and the decoder that reads them back.
-/

namespace CommonCpp.Lib.Hex

/-- A digit of a number below 16. -/
def digit (n : Nat) : UInt8 := UInt8.ofNat (if n < 10 then 0x30 + n else 0x57 + n)

/-- The two digits of a byte. -/
def pair (c : UInt8) : Bytes := [digit (c.toNat / 16), digit (c.toNat % 16)]

def encode (s : Bytes) : Bytes := s.flatMap pair

/-- Two digits give one byte; an odd number of them none. -/
def decode : Bytes → Option Bytes
  | [] => some []
  | [_] => none
  | a :: b :: rest =>
    (Percent.hexVal a).bind fun high =>
      (Percent.hexVal b).bind fun low => (decode rest).map fun s => (16 * high + low) :: s

theorem decode_pair (c : UInt8) (rest : Bytes) :
    decode (pair c ++ rest) = (decode rest).map fun s => c :: s := by
  have hvals : Percent.hexVal (digit (c.toNat / 16)) = some (UInt8.ofNat (c.toNat / 16)) ∧
      Percent.hexVal (digit (c.toNat % 16)) = some (UInt8.ofNat (c.toNat % 16)) ∧
        16 * UInt8.ofNat (c.toNat / 16) + UInt8.ofNat (c.toNat % 16) = c :=
    forall_byte (fun c => Percent.hexVal (digit (c.toNat / 16)) = some (UInt8.ofNat (c.toNat / 16)) ∧
      Percent.hexVal (digit (c.toNat % 16)) = some (UInt8.ofNat (c.toNat % 16)) ∧
        16 * UInt8.ofNat (c.toNat / 16) + UInt8.ofNat (c.toNat % 16) = c) (by decide +kernel) c
  obtain ⟨hhigh, hlow, hsum⟩ := hvals
  rw [pair, List.cons_append, List.cons_append, List.nil_append, decode, hhigh, Option.bind_some,
    hlow, Option.bind_some, hsum]

/-- What was written is read back. -/
theorem decode_encode (s : Bytes) : decode (encode s) = some s := by
  induction s with
  | nil => rfl
  | cons c s ih =>
    show decode (pair c ++ encode s) = some (c :: s)
    rw [decode_pair, ih, Option.map_some]

end CommonCpp.Lib.Hex
