import CommonCpp.Text.Format

/-!
# `http::value`

A form value: an `int`, or a C string the object owns a copy of. The copy is
made by `strcpy`, so a text that an object holds is always short enough for the
next copy: `fits` is a field, copying never fails (`copy_eq`), and `str`
always yields a text (`exists_str`). The null pointer, which `strcpy` hands
through, is left out.
-/

namespace CommonCpp.Http

open CommonCpp.Lib CommonCpp.Text

/-! ## `strcpy` -/

/-- A length up to `INT_MAX` survives the conversion to `int`. -/
theorem int32_strlen {s : CString} (h : s.bytes.length ≤ INT_MAX) :
    int32 (strlen s.bytes) = s.bytes.length := by
  rw [strlen_of_nulFree s.nulFree]
  exact int32_of_lt (by unfold INT_MAX at h; omega)

theorem strcpy_of_lt {s : CString} (h : s.bytes.length < INT_MAX) : strcpy s = some s := by
  have hlen := int32_strlen h.le
  unfold strcpy
  rw [hlen]
  dsimp only
  rw [if_pos (by omega), Int.toNat_natCast, List.take_length]
  exact congrArg some (CString.ext (cStr_of_nulFree s.nulFree))

/-- The largest length an `int` holds is one too long for `len + 1`. -/
theorem strcpy_of_eq {s : CString} (h : s.bytes.length = INT_MAX) : strcpy s = none := by
  have hlen := int32_strlen h.le
  unfold strcpy
  rw [hlen]
  dsimp only
  exact if_neg (by omega)

/-- Whatever was copied can be copied again. -/
theorem strcpy_fits {s t : CString} (h : strcpy s = some t) : t.bytes.length < INT_MAX := by
  unfold strcpy at h
  dsimp only at h
  split at h
  · next hlen =>
    cases h
    have htake := (List.takeWhile_prefix (l := s.bytes.take (int32 (strlen s.bytes)).toNat)
      fun b => b != 0).length_le
    have hle := List.length_take_le (int32 (strlen s.bytes)).toNat s.bytes
    show (cStr _).length < INT_MAX
    unfold cStr
    omega
  · cases h

/-- A copy is the text or, where the `int` has lost the length, a beginning of it. -/
theorem strcpy_prefix {s t : CString} (h : strcpy s = some t) : t.bytes <+: s.bytes := by
  unfold strcpy at h
  dsimp only at h
  split at h
  · cases h
    exact (List.takeWhile_prefix _).trans (List.take_prefix _ _)
  · cases h

/-! ## The class -/

/-- `http::value`; which constructor it is stands for `vt`. -/
inductive Value where
  | integer (integer_v : Int32)
  | text (str_v : CString) (fits : str_v.bytes.length < INT_MAX)

/-- `value(const char *v)` -/
def Value.ofText (v : CString) : Option Value :=
  match h : strcpy v with
  | some s => some (.text s (strcpy_fits h))
  | none => none

/-- `value(const value &a)`. For an integer `a.str_v` is null, and stays so. -/
def Value.copy : Value → Option Value
  | .integer v => some (.integer v)
  | .text s _ => Value.ofText s

/-- `value::str` -/
def Value.str : Value → Option CString
  | .integer v => (stringFormat (ascii "%d") [.int v]).bind fun t => strcpy (.ofBytes t)
  | .text s _ => some s

theorem ofText_of_strcpy {v s : CString} (h : strcpy v = some s) :
    Value.ofText v = some (.text s (strcpy_fits h)) := by
  unfold Value.ofText
  split
  · next s' hs =>
    have hss : s' = s := Option.some.inj (hs.symm.trans h)
    subst hss
    rfl
  · next hs =>
    rw [h] at hs
    cases hs

theorem ofText_of_lt {v : CString} (h : v.bytes.length < INT_MAX) :
    Value.ofText v = some (.text v h) := ofText_of_strcpy (strcpy_of_lt h)

theorem ofText_of_eq {v : CString} (h : v.bytes.length = INT_MAX) : Value.ofText v = none := by
  unfold Value.ofText
  split
  · next s hs =>
    rw [strcpy_of_eq h] at hs
    cases hs
  · rfl

/-- What a constructed value holds. -/
theorem text_of_ofText {v : CString} {w : Value} (h : Value.ofText v = some w) :
    ∃ s fits, w = .text s fits ∧ strcpy v = some s := by
  unfold Value.ofText at h
  split at h
  · next s hs =>
    cases h
    exact ⟨s, strcpy_fits hs, rfl, hs⟩
  · cases h

/-- Copying a value yields the same value. -/
theorem copy_eq (v : Value) : v.copy = some v := by
  cases v with
  | integer n => rfl
  | text s fits => exact ofText_of_lt fits

/-- The decimal digits of an `int`. -/
theorem length_decimal (n : Int32) : (decimal n).length ≤ 11 := by
  have hdigits : ∀ m : Nat, m ≤ 2147483648 → m.repr.toList.length ≤ 10 := by
    intro m hm
    rw [Nat.toList_repr]
    exact (Nat.length_toDigits_le_iff (by omega) (by omega)).mpr (by omega)
  have hlt := n.toInt_lt
  have hle := n.le_toInt
  unfold decimal ascii
  rw [List.length_map, Int.toString_eq_repr, Int.repr_eq_if]
  split
  · have h := hdigits n.toInt.toNat (by omega)
    omega
  · have h := hdigits (-n.toInt).toNat (by omega)
    rw [String.toList_append, List.length_append]
    have hminus : "-".toList.length = 1 := rfl
    omega

/-- `string_format("%d", n)` never fails. -/
theorem stringFormat_int (n : Int32) : stringFormat (ascii "%d") [.int n] = some (decimal n) := by
  have hlen := length_decimal n
  have hprint : snprintf (ascii "%d") [.int n] = some (decimal n ++ []) := rfl
  rw [stringFormat, hprint, List.append_nil, Option.bind_some]
  exact if_pos (by unfold INT_MAX; omega)

/-- Every value has a text, short enough to be copied. -/
theorem exists_str (v : Value) : ∃ t, v.str = some t ∧ t.bytes.length < INT_MAX := by
  cases v with
  | integer n =>
    have hlen := length_decimal n
    -- reading it as a C string can only shorten it
    have hcut := (List.takeWhile_prefix (l := decimal n) fun b => b != 0).length_le
    have hfits : (CString.ofBytes (decimal n)).bytes.length < INT_MAX := by
      show (List.takeWhile _ _).length < INT_MAX
      unfold INT_MAX
      omega
    refine ⟨CString.ofBytes (decimal n), ?_, hfits⟩
    rw [Value.str, stringFormat_int, Option.bind_some, strcpy_of_lt hfits]
  | text s fits => exact ⟨s, rfl, fits⟩

end CommonCpp.Http
