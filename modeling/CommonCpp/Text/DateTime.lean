import CommonCpp.Lib.Buffer
import CommonCpp.Lib.Fixed
import CommonCpp.Lib.Regex

/-!
# `common::currentDateTime`

`strftime` prints a date, a dot and a time, and everything between the numbers is taken
out by a regular expression. What is left are digits. The fields behind the year have two
of them each, so nothing is lost with what stood between them: two stamps are equal only
at the same second of the same day (`stamp_inj`), and while years have one width stamps
sort as the times do (`stamp_lt_iff`).
-/

namespace CommonCpp.Text

open CommonCpp.Lib

/-- What `localtime` makes of a time that is not before 1970. -/
structure Tm where
  /-- `tm_year + 1900` -/
  year : Nat
  /-- `tm_mon`, from zero. -/
  mon : Nat
  mday : Nat
  hour : Nat
  min : Nat
  sec : Nat
  year_ge : 1900 ≤ year
  /-- `tm_year` is an `int`. -/
  year_le : year ≤ 2147485547
  mon_lt : mon < 12
  mday_le : mday ≤ 31
  hour_lt : hour < 24
  min_lt : min < 60
  /-- There can be a leap second. -/
  sec_le : sec ≤ 60

/-- The text of one conversion, in the classic locale. -/
def timeConversion (t : Tm) (c : UInt8) : Option Bytes :=
  if c = 0x59 then some (Decimal.text t.year)
  else if c = 0x6D then some (Fixed.text 2 (t.mon + 1))
  else if c = 0x64 then some (Fixed.text 2 t.mday)
  else if c = 0x58 then
    some (Fixed.text 2 t.hour ++ ascii ":" ++ Fixed.text 2 t.min ++ ascii ":" ++ Fixed.text 2 t.sec)
  else if c = 0x25 then some [c]
  else none

/-- What a format prints, if all of its conversions are known here. -/
def timeText (t : Tm) : Bytes → Option Bytes
  | [] => some []
  | [c] => if c = 0x25 then none else some [c]
  | c :: d :: format =>
    if c = 0x25 then
      (timeConversion t d).bind fun text => (timeText t format).map (text ++ ·)
    else (timeText t (d :: format)).map (c :: ·)

/-- `strftime(buf, size, format, t)`; `none` where the text and its NUL do not fit and
nothing can be said of `buf`. -/
def strftime (size : Nat) (format : Bytes) (t : Tm) : Option Bytes :=
  (timeText t format).filter fun text => text.length < size

/-- `:|-|\.` -/
def betweenNumbers (c : UInt8) : Bool := c == 0x3A || c == 0x2D || c == 0x2E

/-- `currentDateTime`, at a time for which `localtime` says `t`. -/
def currentDateTime (t : Tm) : Option Bytes :=
  (strftime 80 (ascii "%Y-%m-%d.%X") t).map fun buf =>
    Regex.replace (.cls betweenNumbers) [] (cStr buf)

/-! ## The stamp -/

/-- The numbers of a time, the greatest unit first. -/
def Tm.numbers (t : Tm) : List Nat := [t.year, t.mon + 1, t.mday, t.hour, t.min, t.sec]

/-- The width of the year. -/
def Tm.width (t : Tm) : Nat := (Decimal.text t.year).length

/-- The numbers with their widths. -/
def Tm.fields (t : Tm) : List (Nat × Nat) :=
  [(t.width, t.year), (2, t.mon + 1), (2, t.mday), (2, t.hour), (2, t.min), (2, t.sec)]

theorem digits_year (t : Tm) : Fixed.Digits (Decimal.text t.year) :=
  fun _ hc => Decimal.isDigit_of_mem_text hc

theorem text_width (t : Tm) : Fixed.text t.width t.year = Decimal.text t.year := by
  have hvalue := Fixed.text_value (digits_year t)
  rwa [Decimal.value_text] at hvalue

theorem year_lt (t : Tm) : t.year < 10 ^ t.width := by
  have hlt := Fixed.value_lt (digits_year t)
  rwa [Decimal.value_text] at hlt

/-- The text `strftime` prints. -/
def Tm.text (t : Tm) : Bytes :=
  Decimal.text t.year ++ ascii "-" ++ Fixed.text 2 (t.mon + 1) ++ ascii "-" ++ Fixed.text 2 t.mday
    ++ ascii "." ++ (Fixed.text 2 t.hour ++ ascii ":" ++ Fixed.text 2 t.min ++ ascii ":"
      ++ Fixed.text 2 t.sec)

theorem timeText_eq (t : Tm) : timeText t (ascii "%Y-%m-%d.%X") = some t.text := by
  have hformat : ascii "%Y-%m-%d.%X"
      = [0x25, 0x59, 0x2D, 0x25, 0x6D, 0x2D, 0x25, 0x64, 0x2E, 0x25, 0x58] := by decide
  have hdash : ascii "-" = [0x2D] := by decide
  have hdot : ascii "." = [0x2E] := by decide
  rw [hformat, Tm.text, hdash, hdot]
  simp [timeText, timeConversion]

/-- The text fits into `buf`. -/
theorem length_text_lt (t : Tm) : t.text.length < 80 := by
  have hwidth : (Decimal.text t.year).length ≤ 10 := by
    unfold Decimal.text
    rw [List.length_map, Nat.length_toDigits_le_iff (by decide) (by decide)]
    have := t.year_le
    omega
  have hdash : (ascii "-").length = 1 := by decide
  have hdot : (ascii ".").length = 1 := by decide
  have hcolon : (ascii ":").length = 1 := by decide
  unfold Tm.text
  simp only [List.length_append, Fixed.length_text, hdash, hdot, hcolon]
  omega

/-- A digit is no separator, and does not end a C string. -/
theorem digit_kept {c : UInt8} (h : Decimal.isDigit c = true) :
    (!betweenNumbers c) = true ∧ c ≠ 0 := by
  have hall := forall_byte (fun c => Decimal.isDigit c = true → (!betweenNumbers c) = true ∧ c ≠ 0)
    (by decide +kernel) c
  exact hall h

theorem filter_digits {s : Bytes} (h : Fixed.Digits s) : s.filter (!betweenNumbers ·) = s :=
  List.filter_eq_self.mpr fun c hc => (digit_kept (h c hc)).1

theorem nulFree_digits {s : Bytes} (h : Fixed.Digits s) : NulFree s :=
  fun c hc => (digit_kept (h c hc)).2

theorem nulFree_text (t : Tm) : NulFree t.text := by
  have htwo : ∀ n, NulFree (Fixed.text 2 n) := fun n => nulFree_digits (Fixed.digits_text 2 n)
  have hdash : NulFree (ascii "-") := by decide
  have hdot : NulFree (ascii ".") := by decide
  have hcolon : NulFree (ascii ":") := by decide
  unfold Tm.text
  simp only [nulFree_append, htwo, hdash, hdot, hcolon, nulFree_digits (digits_year t), and_self]

/-- A stamp is the record of the time's numbers. -/
theorem currentDateTime_eq (t : Tm) : currentDateTime t = some (Fixed.record t.fields) := by
  have hfits : strftime 80 (ascii "%Y-%m-%d.%X") t = some t.text := by
    rw [strftime, timeText_eq]
    exact Option.filter_eq_some_iff.mpr ⟨rfl, decide_eq_true (length_text_lt t)⟩
  have htwo : ∀ n, (Fixed.text 2 n).filter (!betweenNumbers ·) = Fixed.text 2 n :=
    fun n => filter_digits (Fixed.digits_text 2 n)
  have hdash : (ascii "-").filter (!betweenNumbers ·) = [] := by decide
  have hdot : (ascii ".").filter (!betweenNumbers ·) = [] := by decide
  have hcolon : (ascii ":").filter (!betweenNumbers ·) = [] := by decide
  rw [currentDateTime, hfits, Option.map_some, cStr_of_nulFree (nulFree_text t),
    Regex.replace_cls, Tm.text]
  simp only [List.filter_append, htwo, hdash, hdot, hcolon, filter_digits (digits_year t),
    List.append_nil]
  simp [Fixed.record, Tm.fields, text_width]

/-! ## What stamps tell -/

theorem aligned_fields {t u : Tm} (h : t.width = u.width) :
    Fixed.Aligned t.fields u.fields := by
  have := t.mon_lt
  have := u.mon_lt
  have := t.mday_le
  have := u.mday_le
  have := t.hour_lt
  have := u.hour_lt
  have := t.min_lt
  have := u.min_lt
  have := t.sec_le
  have := u.sec_le
  unfold Fixed.Aligned Tm.fields
  refine .cons ⟨h, year_lt t, year_lt u⟩ (.cons ?_ (.cons ?_ (.cons ?_ (.cons ?_ (.cons ?_ .nil)))))
  all_goals
    dsimp only
    omega

theorem length_stamp (t : Tm) : (Fixed.record t.fields).length = t.width + 10 := by
  simp [Fixed.record, Tm.fields, Fixed.length_text]

/-- **Time stamps.** Every stamp is made of digits, with ten of them behind the year. Two
stamps are equal exactly if the times are, number by number; and where the years have
one width, a stamp is in front of another one, compared as strings, exactly if its time is
the earlier one on the clock. -/
theorem stamps_tell (t u : Tm) :
    ∃ s s', currentDateTime t = some s ∧ currentDateTime u = some s' ∧
      Fixed.Digits s ∧ s.length = t.width + 10 ∧
      (s = s' ↔ t.numbers = u.numbers) ∧
      (t.width = u.width → (s < s' ↔ t.numbers < u.numbers)) := by
  refine ⟨_, _, currentDateTime_eq t, currentDateTime_eq u, Fixed.digits_record _, length_stamp t,
    ?_, fun hwidth => Fixed.record_lt_iff (aligned_fields hwidth)⟩
  constructor
  · intro heq
    have hlen := congrArg List.length heq
    rw [length_stamp, length_stamp] at hlen
    exact (Fixed.record_inj (aligned_fields (Nat.add_right_cancel hlen))).mp heq
  · intro hsame
    have hyear : t.year = u.year := (List.cons.inj hsame).1
    have hwidth : t.width = u.width := by
      unfold Tm.width
      rw [hyear]
    exact (Fixed.record_inj (aligned_fields hwidth)).mpr hsame

end CommonCpp.Text
