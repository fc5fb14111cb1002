import CommonCpp.Lib.Decimal
import Mathlib.Algebra.Group.Nat.Defs

/-!
# `common::to_size_t`

`sstream >> result` with `result` not initialised. The stream's sentry skips
white space, and where nothing is left behind it the extraction does not start
and `result` keeps what it held. Otherwise `num_get` reads a sign and digits and
always assigns: the value, its negative, zero without a digit, or the largest
value where the accumulator overflows.

`accumulate` is the digit loop with its 64-bit accumulator. `accumulate_spec`
says it holds the digits' value as long as that fits, and knows when it does not.
-/

namespace CommonCpp.Number

open CommonCpp.Lib

/-- `isspace` in the classic locale. -/
def isspace (c : UInt8) : Bool := c == 0x20 || (0x09 ≤ c && c ≤ 0x0D)

/-- The state of the digit loop. -/
structure Extraction where
  /-- The accumulator. -/
  result : UInt64
  testoverflow : Bool
  /-- Whether a digit was read. -/
  found : Bool

def Extraction.start : Extraction := ⟨0, false, false⟩

/-- `numeric_limits<size_t>::max()` -/
def SIZE_MAX : UInt64 := 0xFFFFFFFFFFFFFFFF

theorem toNat_SIZE_MAX : SIZE_MAX.toNat = 18446744073709551615 := rfl

/-- One digit, in base 10. The multiplication is not made where it would wrap. -/
def Extraction.push (e : Extraction) (digit : UInt64) : Extraction :=
  if e.result > SIZE_MAX / 10 then { e with testoverflow := true, found := true }
  else
    { result := e.result * 10 + digit
      testoverflow := e.testoverflow || e.result * 10 > SIZE_MAX - digit
      found := true }

/-- The loop ends at the first byte that is not a digit. -/
def accumulate (e : Extraction) : Bytes → Extraction
  | [] => e
  | c :: s =>
    if Decimal.isDigit c then accumulate (e.push (UInt64.ofNat (Decimal.digit c))) s else e

/-- `num_get::get`: what it assigns to the target. -/
def numGet (s : Bytes) : UInt64 :=
  let negative := s.head? = some 0x2D
  let unsigned := if negative ∨ s.head? = some 0x2B then s.tail else s
  let e := accumulate .start unsigned
  if ¬ e.found then 0
  else if e.testoverflow then SIZE_MAX
  else if negative then 0 - e.result
  else e.result

/-- `to_size_t`, from what the local variable holds. -/
def toSizeT (result : UInt64) (str : Bytes) : UInt64 :=
  match str.dropWhile isspace with
  | [] => result
  | c :: s => numGet (c :: s)

/-! ## The digit loop -/

/-- The loop's invariant: `v` is the value of the digits read. -/
structure Extraction.Holds (e : Extraction) (v : Nat) : Prop where
  fits : e.testoverflow = false → e.result.toNat = v
  overflows : e.testoverflow = true → 2 ^ 64 ≤ v

theorem start_holds : Extraction.start.Holds 0 := ⟨fun _ => rfl, nofun⟩

theorem push_holds {e : Extraction} {v d : Nat} (h : e.Holds v) (hd : d ≤ 9) :
    (e.push (UInt64.ofNat d)).Holds (10 * v + d) := by
  have hdigit : (UInt64.ofNat d).toNat = d := UInt64.toNat_ofNat_of_lt' (by
    show d < 18446744073709551616
    omega)
  have hsmax : (SIZE_MAX / 10).toNat = 1844674407370955161 := by decide
  have hmax : (SIZE_MAX - UInt64.ofNat d).toNat = 18446744073709551615 - d := by
    rw [UInt64.toNat_sub_of_le, hdigit]
    · rfl
    · rw [UInt64.le_iff_toNat_le, hdigit]
      show d ≤ 18446744073709551615
      omega
  unfold Extraction.push
  by_cases hbig : e.result > SIZE_MAX / 10
  · -- the value has more than ten times this bound
    rw [if_pos hbig]
    refine ⟨nofun, fun _ => ?_⟩
    have hlt : (SIZE_MAX / 10).toNat < e.result.toNat := UInt64.lt_iff_toNat_lt.mp hbig
    cases ho : e.testoverflow with
    | true =>
      have hv := h.overflows ho
      omega
    | false =>
      have hv := h.fits ho
      omega
  · rw [if_neg hbig]
    -- ten times the result fits, and only the digit can go too far
    have hle : e.result.toNat ≤ 1844674407370955161 := by
      rw [← hsmax]
      exact UInt64.le_iff_toNat_le.mp (UInt64.not_lt.mp hbig)
    have hmul : (e.result * 10).toNat = e.result.toNat * 10 := by
      rw [UInt64.toNat_mul]
      exact Nat.mod_eq_of_lt (by
        show e.result.toNat * 10 < 18446744073709551616
        omega)
    cases ho : e.testoverflow with
    | true =>
      have hv := h.overflows ho
      exact ⟨nofun, fun _ => by omega⟩
    | false =>
      have hv := h.fits ho
      constructor
      · intro hno
        have hnot : ¬ e.result * 10 > SIZE_MAX - UInt64.ofNat d := by simpa using hno
        have hfit := UInt64.le_iff_toNat_le.mp (UInt64.not_lt.mp hnot)
        rw [hmul, hmax] at hfit
        show (e.result * 10 + UInt64.ofNat d).toNat = 10 * v + d
        rw [UInt64.toNat_add, hmul, hdigit, Nat.mod_eq_of_lt (by omega)]
        omega
      · intro hyes
        have hgt : e.result * 10 > SIZE_MAX - UInt64.ofNat d := by simpa using hyes
        have hfit := UInt64.lt_iff_toNat_lt.mp hgt
        rw [hmul, hmax] at hfit
        omega

/-- The digits in front of the first other byte are read, and no more. -/
theorem accumulate_spec {e : Extraction} {v : Nat} (h : e.Holds v) (s : Bytes) :
    (accumulate e s).Holds (Decimal.valueFrom v (s.takeWhile Decimal.isDigit)) := by
  induction s generalizing e v with
  | nil => exact h
  | cons c s ih =>
    unfold accumulate
    by_cases hc : Decimal.isDigit c = true
    · rw [if_pos hc, List.takeWhile_cons_of_pos hc, Decimal.valueFrom_cons]
      exact ih (push_holds h (Decimal.digit_le hc))
    · rw [if_neg hc, List.takeWhile_cons_of_neg hc]
      exact h

theorem push_found (e : Extraction) (digit : UInt64) : (e.push digit).found = true := by
  unfold Extraction.push
  split <;> rfl

theorem accumulate_found {e : Extraction} (h : e.found = true) (s : Bytes) :
    (accumulate e s).found = true := by
  induction s generalizing e with
  | nil => exact h
  | cons c s ih =>
    unfold accumulate
    by_cases hc : Decimal.isDigit c = true
    · rw [if_pos hc]
      exact ih (push_found _ _)
    · rw [if_neg hc]
      exact h

/-! ## The whole function -/

/-- A sign or white space is no digit. -/
theorem not_isDigit {c : UInt8} (h : isspace c = true ∨ c = 0x2D ∨ c = 0x2B) :
    Decimal.isDigit c = false := by
  rcases h with hspace | rfl | rfl
  · exact forall_byte (fun c => isspace c = true → Decimal.isDigit c = false)
      (by decide +kernel) c hspace
  · rfl
  · rfl

/-- The text of a number, possibly behind white space. -/
def DecimalText (str : Bytes) (n : Nat) : Prop :=
  ∃ space, (∀ c ∈ space, isspace c = true) ∧ str = space ++ Decimal.text n

/-- What is read where no sign stands in front: the value of the digits, or the largest
value if that is smaller. Without digits it is zero. -/
theorem numGet_unsigned {s : Bytes} (hminus : s.head? ≠ some 0x2D) (hplus : s.head? ≠ some 0x2B) :
    (numGet s).toNat = min (Decimal.value (s.takeWhile Decimal.isDigit)) SIZE_MAX.toNat := by
  have hholds : (accumulate .start s).Holds (Decimal.value (s.takeWhile Decimal.isDigit)) :=
    accumulate_spec start_holds s
  have hmax := toNat_SIZE_MAX
  have hunsigned : numGet s = if ¬ (accumulate .start s).found then 0
      else if (accumulate .start s).testoverflow then SIZE_MAX
      else (accumulate .start s).result := by
    unfold numGet
    dsimp only
    rw [if_neg (c := _ ∨ _) fun h => h.elim hminus hplus, if_neg hminus]
  rw [hunsigned]
  cases hf : (accumulate .start s).found with
  | false =>
    have hnone : s.takeWhile Decimal.isDigit = [] := by
      cases s with
      | nil => rfl
      | cons c s =>
        refine List.takeWhile_cons_of_neg fun hc => ?_
        rw [accumulate, if_pos hc, accumulate_found (push_found _ _)] at hf
        cases hf
    rw [hnone]
    rfl
  | true =>
    rw [if_neg fun h => h rfl]
    cases ho : (accumulate .start s).testoverflow with
    | true =>
      have hlarge := hholds.overflows ho
      rw [if_pos rfl]
      omega
    | false =>
      have hvalue := hholds.fits ho
      have hlt := UInt64.toNat_lt (accumulate .start s).result
      rw [if_neg nofun]
      omega

/-- A decimal text has no sign and nothing but digits. -/
theorem numGet_text {n : Nat} (h : n < 2 ^ 64) : (numGet (Decimal.text n)).toNat = n := by
  have hdigits : ∀ b ∈ Decimal.text n, Decimal.isDigit b = true :=
    fun b hb => Decimal.isDigit_of_mem_text hb
  have hsign : ∀ b, b = 0x2D ∨ b = 0x2B → (Decimal.text n).head? ≠ some b := by
    intro b hb he
    have hdigit := hdigits b (List.mem_of_head? he)
    rw [not_isDigit (Or.inr hb)] at hdigit
    cases hdigit
  have hmax := toNat_SIZE_MAX
  rw [numGet_unsigned (hsign _ (Or.inl rfl)) (hsign _ (Or.inr rfl)),
    List.takeWhile_eq_self_iff.mpr hdigits, Decimal.value_text]
  omega

theorem toSizeT_text {str : Bytes} {n : Nat} (hn : n < 2 ^ 64) (h : DecimalText str n)
    (result : UInt64) : (toSizeT result str).toNat = n := by
  obtain ⟨space, hspace, rfl⟩ := h
  have hdrop : (space ++ Decimal.text n).dropWhile isspace = Decimal.text n := by
    rw [List.dropWhile_append_of_pos hspace]
    cases htext : Decimal.text n with
    | nil => rfl
    | cons c s =>
      have hc : Decimal.isDigit c = true :=
        Decimal.isDigit_of_mem_text (n := n) (by rw [htext]; exact List.mem_cons_self ..)
      refine List.dropWhile_cons_of_neg fun hs => ?_
      rw [not_isDigit (Or.inl hs)] at hc
      cases hc
  have hget : toSizeT result (space ++ Decimal.text n) = numGet (Decimal.text n) := by
    unfold toSizeT
    rw [hdrop]
    cases htext : Decimal.text n with
    | nil => exact absurd htext (Decimal.text_ne_nil n)
    | cons c s => rfl
  rw [hget, numGet_text hn]

/-- Where something is left behind the white space, the target is assigned. -/
theorem toSizeT_assigned {str : Bytes} (h : ∃ c ∈ str, isspace c = false)
    (result result' : UInt64) : toSizeT result str = toSizeT result' str := by
  obtain ⟨c, hc, hspace⟩ := h
  unfold toSizeT
  cases hdrop : str.dropWhile isspace with
  | nil =>
    have hall := List.dropWhile_eq_nil_iff.mp hdrop c hc
    rw [hspace] at hall
    cases hall
  | cons c s => rfl

/-- Where nothing is left, it is not. -/
theorem toSizeT_blank {str : Bytes} (h : ∀ c ∈ str, isspace c = true) (result : UInt64) :
    toSizeT result str = result := by
  unfold toSizeT
  rw [List.dropWhile_eq_nil_iff.mpr h]

/-- **When `to_size_t` is a function.** It gives back the number whose decimal
text it reads, and for every other string a value that does not depend on what
`result` held, if and only if the string has a byte that is not white space. -/
theorem toSizeT_iff (str : Bytes) :
    ((∀ n < 2 ^ 64, DecimalText str n → ∀ result, (toSizeT result str).toNat = n) ∧
      ((¬ ∃ n < 2 ^ 64, DecimalText str n) →
        ∀ result result', toSizeT result str = toSizeT result' str)) ↔
      ∃ c ∈ str, isspace c = false := by
  constructor
  · intro h
    by_contra hnone
    have hblank : ∀ c ∈ str, isspace c = true :=
      fun c hc => (Bool.not_eq_false _).mp fun hs => hnone ⟨c, hc, hs⟩
    have hsame := h.2 (fun ⟨n, hn, htext⟩ => ?_) 0 1
    · rw [toSizeT_blank hblank, toSizeT_blank hblank] at hsame
      cases hsame
    · -- it would be read as `n`, whatever `result` holds
      have hzero := toSizeT_text hn htext 0
      have hone := toSizeT_text hn htext 1
      rw [toSizeT_blank hblank] at hzero hone
      exact absurd (hzero.trans hone.symm) (by decide)
  · intro h
    exact ⟨fun n hn htext => toSizeT_text hn htext, fun _ => toSizeT_assigned h⟩

/-- `""` leaves `result` as it is. -/
theorem toSizeT_empty_leaks :
    ¬ ∀ str : Bytes,
      (∀ n < 2 ^ 64, DecimalText str n → ∀ result, (toSizeT result str).toNat = n) ∧
      ((¬ ∃ n < 2 ^ 64, DecimalText str n) →
        ∀ result result', toSizeT result str = toSizeT result' str) := by
  intro h
  have hsame := (h []).2 (fun ⟨n, _, space, _, he⟩ => ?_) 0 1
  · cases hsame
  · exact Decimal.text_ne_nil n (List.append_eq_nil_iff.mp he.symm).2

end CommonCpp.Number
