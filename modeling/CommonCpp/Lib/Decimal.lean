import CommonCpp.Lib.Bytes

/-!
# Decimal text

A number's decimal text as bytes, and the value of a run of digits, read from
the left as a parser reads it. Reading undoes printing (`value_text`), so the
text determines the number (`text_injective`).
-/

namespace CommonCpp.Lib.Decimal

/-- The decimal text of a number. -/
def text (n : Nat) : Bytes := (Nat.toDigits 10 n).map fun c => UInt8.ofNat c.toNat

def isDigit (c : UInt8) : Bool := 0x30 ≤ c && c ≤ 0x39

/-- The value of one digit. -/
def digit (c : UInt8) : Nat := c.toNat - 0x30

/-- The value of a run of digits behind others of value `v`. -/
def valueFrom (v : Nat) (digits : Bytes) : Nat := digits.foldl (fun v c => 10 * v + digit c) v

/-- The value of a run of digits. -/
def value (digits : Bytes) : Nat := valueFrom 0 digits

theorem isDigit_iff {c : UInt8} : isDigit c = true ↔ 0x30 ≤ c.toNat ∧ c.toNat ≤ 0x39 := by
  unfold isDigit
  rw [Bool.and_eq_true, decide_eq_true_iff, decide_eq_true_iff, UInt8.le_iff_toNat_le,
    UInt8.le_iff_toNat_le]
  rfl

theorem digit_le {c : UInt8} (h : isDigit c = true) : digit c ≤ 9 := by
  have hrange := isDigit_iff.mp h
  unfold digit
  omega

theorem valueFrom_cons (v : Nat) (c : UInt8) (digits : Bytes) :
    valueFrom v (c :: digits) = valueFrom (10 * v + digit c) digits := by
  unfold valueFrom
  rw [List.foldl_cons]

/-! ## Printing -/

/-- What `operator<<` and `%d` print of a number that is not negative. -/
theorem ascii_toString (n : Nat) : ascii (toString n) = text n := by
  show (Nat.repr n).toList.map _ = _
  rw [Nat.toList_repr]
  rfl

theorem toNat_of_isDigit {c : Char} (h : c.isDigit = true) :
    48 ≤ c.toNat ∧ c.toNat ≤ 57 ∧ (UInt8.ofNat c.toNat).toNat = c.toNat := by
  have hrange : 48 ≤ c.toNat ∧ c.toNat ≤ 57 := by
    rw [Char.isDigit, Bool.and_eq_true, decide_eq_true_iff, decide_eq_true_iff] at h
    exact ⟨UInt32.le_iff_toNat_le.mp h.1, UInt32.le_iff_toNat_le.mp h.2⟩
  refine ⟨hrange.1, hrange.2, ?_⟩
  rw [UInt8.toNat_ofNat']
  omega

theorem isDigit_of_mem_text {n : Nat} {c : UInt8} (h : c ∈ text n) : isDigit c = true := by
  obtain ⟨k, hk, rfl⟩ := List.mem_map.mp h
  have hdigit := toNat_of_isDigit (Nat.isDigit_of_mem_toDigits (by decide) (by decide) hk)
  rw [isDigit_iff, hdigit.2.2]
  exact ⟨hdigit.1, hdigit.2.1⟩

theorem text_ne_nil (n : Nat) : text n ≠ [] := fun h => Nat.toDigits_ne_nil (List.map_eq_nil_iff.mp h)

/-! ## Reading -/

theorem valueFrom_map {chars : List Char} (h : ∀ c ∈ chars, c.isDigit = true) (v : Nat) :
    valueFrom v (chars.map fun c => UInt8.ofNat c.toNat) = Nat.ofDigitChars 10 chars v := by
  induction chars generalizing v with
  | nil => rfl
  | cons c chars ih =>
    rw [List.forall_mem_cons] at h
    rw [Nat.ofDigitChars_cons, List.map_cons, valueFrom_cons, ih h.2, digit,
      (toNat_of_isDigit h.1).2.2]
    rfl

/-- Reading undoes printing. -/
theorem value_text (n : Nat) : value (text n) = n := by
  have hdigits : ∀ c ∈ Nat.toDigits 10 n, c.isDigit = true :=
    fun c hc => Nat.isDigit_of_mem_toDigits (by decide) (by decide) hc
  rw [value, text, valueFrom_map hdigits, Nat.ofDigitChars_ten_toDigits]

theorem text_injective {m n : Nat} (h : text m = text n) : m = n := by
  rw [← value_text m, h, value_text]

end CommonCpp.Lib.Decimal
