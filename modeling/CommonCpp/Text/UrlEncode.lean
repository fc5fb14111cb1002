import CommonCpp.Lib.Percent
import CommonCpp.Text.Format

/-!
# `common::url_encode`

A byte that is no ASCII letter, digit, `-`, `.`, `_` or `~` is written with
`"%%%x"`, which does not pad: below `0x10` that is `%` and one digit, and the
decoder takes the next byte of the text for the second one.

`urlEncode_eq` reduces the loop to a byte-wise encoder. `reversible_iff` is the
outcome: encoding followed by decoding gives the text back exactly if it has
no byte below `0x10`.
-/

namespace CommonCpp.Text

open CommonCpp.Lib Percent

/-- `isalnum(c) || c == '-' || c == '.' || c == '_' || c == '~'`, in the C locale. -/
def unreserved (c : UInt8) : Bool :=
  (0x30 ≤ c && c ≤ 0x39) || (0x41 ≤ c && c ≤ 0x5A) || (0x61 ≤ c && c ≤ 0x7A) ||
    c == 0x2D || c == 0x2E || c == 0x5F || c == 0x7E

/-- The body of the loop: what `buf` is extended by for the byte `c`. -/
def urlEncodeByte (c : UInt8) : Option Bytes :=
  if unreserved c then some [c] else stringFormat (ascii "%%%x") [.int c.toUInt32.toInt32]

/-- The loop over the first `len` bytes, `buf` being what has been encoded. -/
def urlEncodeLoop : Bytes → Bytes → Option Bytes
  | [], buf => some buf
  | c :: rest, buf => (urlEncodeByte c).bind fun e => urlEncodeLoop rest (buf ++ e)

/-- `url_encode`, with the length narrowed to an `int`. -/
def urlEncode (str : CString) : Option Bytes :=
  urlEncodeLoop (str.bytes.take (int32 (strlen str.bytes)).toNat) []

/-- The lower-case digit of a value below 16. -/
def digit (h : UInt8) : UInt8 := if h < 10 then 0x30 + h else 0x57 + h

/-- The code of one byte. -/
def code (c : UInt8) : Bytes :=
  if unreserved c then [c]
  else if c < 0x10 then [percent, digit c]
  else [percent, digit (c / 16), digit (c % 16)]

/-! ## One byte -/

theorem urlEncodeByte_eq (c : UInt8) : urlEncodeByte c = some (code c) :=
  forall_byte (fun c => urlEncodeByte c = some (code c)) (by decide +kernel) c

theorem hexVal_digit {h : UInt8} : h < 16 → hexVal (digit h) = some h :=
  forall_byte (fun h => h < 16 → hexVal (digit h) = some h) (by decide +kernel) h

/-- From `0x10` on the code is the right one. -/
theorem codes_of_le {c : UInt8} (hc : 0x10 ≤ c) : Codes unreserved (code c) c := by
  have hc' : ¬ c < 0x10 := UInt8.not_lt.mpr hc
  unfold code
  split
  · next hu =>
    refine Or.inl ⟨rfl, hu, ?_⟩
    intro he
    rw [he] at hu
    cases hu
  · refine Or.inr ⟨_, _, c / 16, c % 16, rfl, hexVal_digit ?_, hexVal_digit ?_, ?_⟩
    · exact forall_byte (fun c => c / 16 < 16) (by decide +kernel) c
    · exact forall_byte (fun c => c % 16 < 16) (by decide +kernel) c
    · exact forall_byte (fun c => c = c / 16 * 16 + c % 16) (by decide +kernel) c

/-- Below it the code is one byte short. -/
theorem length_code (c : UInt8) :
    (code c).length + (if c < 0x10 then 1 else 0) = 1 + 2 * (code c).count percent :=
  forall_byte (fun c => (code c).length + (if c < 0x10 then 1 else 0)
    = 1 + 2 * (code c).count percent) (by decide +kernel) c

/-- No code contains a delimiter of a query. -/
theorem not_mem_code (c : UInt8) : 0x26 ∉ code c ∧ 0x3D ∉ code c :=
  forall_byte (fun c => 0x26 ∉ code c ∧ 0x3D ∉ code c) (by decide +kernel) c

/-! ## The loop -/

theorem urlEncodeLoop_eq (s buf : Bytes) : urlEncodeLoop s buf = some (buf ++ s.flatMap code) := by
  induction s generalizing buf with
  | nil => simp [urlEncodeLoop]
  | cons c s ih =>
    rw [urlEncodeLoop, urlEncodeByte_eq, Option.bind_some, ih, List.append_assoc,
      List.flatMap_cons]

/-- `url_encode` is the byte-wise encoder on a text whose length fits an `int`. -/
theorem urlEncode_eq {str : CString} (h : str.bytes.length ≤ INT_MAX) :
    urlEncode str = some (str.bytes.flatMap code) := by
  have hlen : int32 (strlen str.bytes) = str.bytes.length := by
    rw [strlen_of_nulFree str.nulFree]
    exact int32_of_lt (by unfold INT_MAX at h; omega)
  rw [urlEncode, hlen, Int.toNat_natCast, List.take_length, urlEncodeLoop_eq, List.nil_append]

theorem length_flatMap_code (s : Bytes) :
    (s.flatMap code).length + s.countP (· < 0x10)
      = s.length + 2 * (s.flatMap code).count percent := by
  induction s with
  | nil => rfl
  | cons c s ih =>
    have hc := length_code c
    rw [List.flatMap_cons, List.length_append, List.count_append, List.countP_cons,
      List.length_cons]
    simp only [decide_eq_true_eq]
    omega

/-- What `url_encode` writes for a text with a byte below `0x10` does not decode
to that text. -/
theorem decode_code_iff (s : Bytes) :
    decode (s.flatMap code) = some s ↔ ∀ c ∈ s, 0x10 ≤ c := by
  constructor
  · intro h c hc
    have hlen := length_of_decode h
    have hcount := length_flatMap_code s
    have hzero : s.countP (· < 0x10) = 0 := by omega
    have hnot := List.countP_eq_zero.mp hzero c hc
    exact UInt8.not_lt.mp (by simpa using hnot)
  · intro h
    exact decode_flatMap fun c hc => codes_of_le (h c hc)

/-! ## Reversibility -/

/-- **When URL encoding is reversible.** For every text shorter than `2 ^ 31`:
`url_encode` writes a word of the grammar that decodes to the text if and only
if the text has no byte below `0x10`; and no two such texts are encoded alike. -/
theorem reversible_iff (s : CString) (h : s.bytes.length < 2147483648) :
    ((∃ e, urlEncode s = some e ∧ Word unreserved e ∧ decode e = some s.bytes) ↔
        ∀ c ∈ s.bytes, 0x10 ≤ c) ∧
      ∀ t : CString, t.bytes.length < 2147483648 → (∀ c ∈ s.bytes, 0x10 ≤ c) →
        (∀ c ∈ t.bytes, 0x10 ≤ c) → urlEncode s = urlEncode t → s = t := by
  have henc : ∀ t : CString, t.bytes.length < 2147483648 →
      urlEncode t = some (t.bytes.flatMap code) := fun t ht =>
    urlEncode_eq (by unfold INT_MAX; omega)
  refine ⟨⟨fun he => ?_, fun hs => ?_⟩, fun t ht hs hst he => ?_⟩
  · obtain ⟨e, he, -, hd⟩ := he
    rw [henc s h, Option.some.injEq] at he
    rw [← he] at hd
    exact (decode_code_iff s.bytes).mp hd
  · exact ⟨_, henc s h, word_flatMap fun c hc => codes_of_le (hs c hc),
      (decode_code_iff s.bytes).mpr hs⟩
  · rw [henc s h, henc t ht, Option.some.injEq] at he
    have hd := (decode_code_iff s.bytes).mpr hs
    rw [he, (decode_code_iff t.bytes).mpr hst] at hd
    exact CString.ext (Option.some.inj hd).symm

/-- Tab and `A` are encoded as `%9A`, which is the code of the byte `0x9A`. -/
theorem tab_not_reversible :
    ¬ ∀ s : CString, s.bytes.length < 2147483648 →
      (∃ e, urlEncode s = some e ∧ Word unreserved e ∧ decode e = some s.bytes) ∧
        ∀ t : CString, t.bytes.length < 2147483648 → urlEncode s = urlEncode t → s = t := by
  intro h
  obtain ⟨⟨e, he, -, hd⟩, -⟩ := h ⟨[0x09, 0x41], by decide⟩ (by decide)
  have hcode : urlEncode ⟨[0x09, 0x41], by decide⟩ = some (ascii "%9A") := by decide
  rw [hcode, Option.some.injEq] at he
  subst he
  revert hd
  decide

theorem reversible_iff_space :
    ((∃ e, urlEncode ⟨ascii "a b", by decide⟩ = some e ∧ Word unreserved e ∧
        decode e = some (ascii "a b")) ↔ ∀ c ∈ ascii "a b", 0x10 ≤ c) ∧
      (urlEncode ⟨ascii "a b", by decide⟩ = urlEncode ⟨ascii "a%20b", by decide⟩ →
        (⟨ascii "a b", by decide⟩ : CString) = ⟨ascii "a%20b", by decide⟩) := by
  obtain ⟨hiff, hinj⟩ := reversible_iff ⟨ascii "a b", by decide⟩ (by decide)
  exact ⟨hiff, hinj ⟨ascii "a%20b", by decide⟩ (by decide) (by decide) (by decide)⟩

end CommonCpp.Text
