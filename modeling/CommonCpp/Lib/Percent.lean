import CommonCpp.Lib.Bytes

/-!
# Percent-encoding

The words of `(unreserved | '%' HEXDIG HEXDIG)*` and the decoder that reads
exactly two digits after every `%`. An encoder that works byte by byte is
right as soon as each byte's code is right by itself (`decode_flatMap`); and no
string decodes to another length than its own without two bytes for every `%`
(`length_of_decode`), which is how a code that is too short shows.
-/

namespace CommonCpp.Lib.Percent

/-- `%` -/
def percent : UInt8 := 0x25

/-- The value of a hexadecimal digit. -/
def hexVal (c : UInt8) : Option UInt8 :=
  if 0x30 ≤ c ∧ c ≤ 0x39 then some (c - 0x30)
  else if 0x41 ≤ c ∧ c ≤ 0x46 then some (c - 0x37)
  else if 0x61 ≤ c ∧ c ≤ 0x66 then some (c - 0x57)
  else none

/-- The percent-decoder. It fails on a `%` without two digits behind it. -/
def decode : Bytes → Option Bytes
  | [] => some []
  | c :: rest =>
    if c = percent then
      match rest with
      | a :: b :: rest =>
        match hexVal a, hexVal b with
        | some h, some l => (decode rest).map fun s => (h * 16 + l) :: s
        | _, _ => none
      | _ => none
    else (decode rest).map fun s => c :: s

/-- The words of the grammar. -/
inductive Word (unreserved : UInt8 → Bool) : Bytes → Prop where
  | nil : Word unreserved []
  | plain {c : UInt8} {w : Bytes} (hc : unreserved c = true) (hw : Word unreserved w) :
      Word unreserved (c :: w)
  | coded {a b : UInt8} {w : Bytes} (ha : (hexVal a).isSome = true) (hb : (hexVal b).isSome = true)
      (hw : Word unreserved w) : Word unreserved (percent :: a :: b :: w)

/-- `p` is the code of the byte `c`. -/
def Codes (unreserved : UInt8 → Bool) (p : Bytes) (c : UInt8) : Prop :=
  (p = [c] ∧ unreserved c = true ∧ c ≠ percent) ∨
    ∃ a b h l, p = [percent, a, b] ∧ hexVal a = some h ∧ hexVal b = some l ∧ c = h * 16 + l

variable {unreserved : UInt8 → Bool}

theorem decode_plain {c : UInt8} (hc : c ≠ percent) (w : Bytes) :
    decode (c :: w) = (decode w).map fun s => c :: s := by
  rw [decode.eq_def]
  exact if_neg hc

theorem decode_coded {a b h l : UInt8} (ha : hexVal a = some h) (hb : hexVal b = some l)
    (w : Bytes) : decode (percent :: a :: b :: w) = (decode w).map fun s => (h * 16 + l) :: s := by
  rw [decode, if_pos rfl, ha, hb]

theorem Codes.decode {p : Bytes} {c : UInt8} (h : Codes unreserved p c) (w : Bytes) :
    decode (p ++ w) = (Percent.decode w).map fun s => c :: s := by
  rcases h with ⟨rfl, -, hc⟩ | ⟨a, b, hi, lo, rfl, ha, hb, rfl⟩
  · exact decode_plain hc w
  · exact decode_coded ha hb w

theorem Codes.word {p w : Bytes} {c : UInt8} (h : Codes unreserved p c)
    (hw : Word unreserved w) : Word unreserved (p ++ w) := by
  rcases h with ⟨rfl, hu, -⟩ | ⟨a, b, hi, lo, rfl, ha, hb, rfl⟩
  · exact .plain hu hw
  · exact .coded (by rw [ha]; rfl) (by rw [hb]; rfl) hw

/-- A byte-wise encoder whose codes are right is undone by the decoder. -/
theorem decode_flatMap {enc : UInt8 → Bytes} {s : Bytes}
    (h : ∀ c ∈ s, Codes unreserved (enc c) c) : decode (s.flatMap enc) = some s := by
  induction s with
  | nil => rfl
  | cons c s ih =>
    rw [List.flatMap_cons, (h c (List.mem_cons_self ..)).decode,
      ih fun d hd => h d (List.mem_cons_of_mem _ hd)]
    rfl

theorem word_flatMap {enc : UInt8 → Bytes} {s : Bytes}
    (h : ∀ c ∈ s, Codes unreserved (enc c) c) : Word unreserved (s.flatMap enc) := by
  induction s with
  | nil => exact .nil
  | cons c s ih =>
    rw [List.flatMap_cons]
    exact (h c (List.mem_cons_self ..)).word (ih fun d hd => h d (List.mem_cons_of_mem _ hd))

theorem ne_percent_of_hexVal {a h : UInt8} (ha : hexVal a = some h) : a ≠ percent := by
  intro he
  rw [he] at ha
  cases ha

/-- What decodes has two bytes more than its text for every `%`. -/
theorem length_of_decode {e s : Bytes} (h : decode e = some s) :
    e.length = s.length + 2 * e.count percent := by
  fun_induction decode e generalizing s with
  | case1 => cases h; rfl
  | case2 a b rest hi lo hb ha ih =>
    obtain ⟨t, ht, rfl⟩ := Option.map_eq_some_iff.mp h
    have hlen := ih ht
    -- a digit is no `%`, so the three bytes hold exactly one
    simp only [List.count_cons, beq_iff_eq, ne_percent_of_hexVal ha, ne_percent_of_hexVal hb,
      if_true, if_false, List.length_cons]
    omega
  | case3 => cases h
  | case4 => cases h
  | case5 c rest hc ih =>
    obtain ⟨t, ht, rfl⟩ := Option.map_eq_some_iff.mp h
    have hlen := ih ht
    simp only [List.count_cons, beq_iff_eq, hc, if_false, List.length_cons]
    omega

end CommonCpp.Lib.Percent
