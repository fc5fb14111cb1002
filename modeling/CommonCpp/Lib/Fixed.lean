import CommonCpp.Lib.Decimal
import Mathlib.Algebra.Group.Nat.Defs
import Mathlib.Data.List.Forall2
import Mathlib.Data.List.Induction

/-!
# Decimal fields of fixed width

Numbers printed with leading zeros, one behind the other. Digit strings of one length
compare byte by byte as their values do (`lt_iff_value`), so records whose fields have
the same widths compare as the lists of their numbers do, and are equal only where all
numbers are (`record_lt_iff`, `record_inj`).
-/

namespace CommonCpp.Lib.Fixed

/-- The last `w` decimal digits of a number. -/
def text : Nat → Nat → Bytes
  | 0, _ => []
  | w + 1, n => text w (n / 10) ++ [UInt8.ofNat (0x30 + n % 10)]

/-- Digits and nothing else. -/
def Digits (s : Bytes) : Prop := ∀ c ∈ s, Decimal.isDigit c = true

/-- Fields by width and number, one behind the other. -/
def record (fields : List (Nat × Nat)) : Bytes := fields.flatMap fun f => text f.1 f.2

theorem length_text (w n : Nat) : (text w n).length = w := by
  induction w generalizing n with
  | zero => rfl
  | succ w ih => rw [text, List.length_append, ih, List.length_singleton]

theorem toNat_last (n : Nat) : (UInt8.ofNat (0x30 + n % 10)).toNat = 0x30 + n % 10 := by
  rw [UInt8.toNat_ofNat']
  omega

theorem digits_text (w n : Nat) : Digits (text w n) := by
  induction w generalizing n with
  | zero => exact List.forall_mem_nil _
  | succ w ih =>
    refine List.forall_mem_append.mpr ⟨ih _, fun c hc => ?_⟩
    rw [List.mem_singleton.mp hc, Decimal.isDigit_iff, toNat_last]
    omega

/-! ## Values -/

theorem value_concat (s : Bytes) (c : UInt8) :
    Decimal.value (s ++ [c]) = 10 * Decimal.value s + Decimal.digit c := by
  unfold Decimal.value Decimal.valueFrom
  rw [List.foldl_append]
  rfl

theorem value_text {w n : Nat} (h : n < 10 ^ w) : Decimal.value (text w n) = n := by
  induction w generalizing n with
  | zero =>
    have hzero : n = 0 := by simpa using h
    rw [hzero]
    rfl
  | succ w ih =>
    rw [Nat.pow_succ] at h
    rw [text, value_concat, ih (by omega), Decimal.digit, toNat_last]
    omega

theorem valueFrom_eq (v : Nat) (s : Bytes) :
    Decimal.valueFrom v s = v * 10 ^ s.length + Decimal.value s := by
  induction s generalizing v with
  | nil => exact (congrArg (· + 0) (Nat.mul_one v)).symm
  | cons c s ih =>
    have hhead : Decimal.value (c :: s)
        = Decimal.digit c * 10 ^ s.length + Decimal.value s := by
      rw [Decimal.value, Decimal.valueFrom_cons, Nat.mul_zero, Nat.zero_add, ih]
    rw [Decimal.valueFrom_cons, ih, hhead, List.length_cons, Nat.pow_succ, Nat.add_mul,
      ← Nat.add_assoc, Nat.mul_comm (10 ^ s.length) 10, Nat.mul_left_comm v, Nat.mul_assoc]

theorem value_cons (c : UInt8) (s : Bytes) :
    Decimal.value (c :: s) = Decimal.digit c * 10 ^ s.length + Decimal.value s := by
  rw [Decimal.value, Decimal.valueFrom_cons, Nat.mul_zero, Nat.zero_add, valueFrom_eq]

theorem value_lt {s : Bytes} (h : Digits s) : Decimal.value s < 10 ^ s.length := by
  induction s with
  | nil => exact Nat.zero_lt_one
  | cons c s ih =>
    obtain ⟨hc, hs⟩ := List.forall_mem_cons.mp h
    have hle : Decimal.digit c * 10 ^ s.length ≤ 9 * 10 ^ s.length :=
      Nat.mul_le_mul_right _ (Decimal.digit_le hc)
    have hrest := ih hs
    rw [value_cons, List.length_cons, Nat.pow_succ]
    omega

/-- Digits compare as their values do. -/
theorem digit_lt_iff {c d : UInt8} (hc : Decimal.isDigit c = true)
    (hd : Decimal.isDigit d = true) :
    (c < d ↔ Decimal.digit c < Decimal.digit d) ∧ (c = d ↔ Decimal.digit c = Decimal.digit d) := by
  have hc' := Decimal.isDigit_iff.mp hc
  have hd' := Decimal.isDigit_iff.mp hd
  rw [UInt8.lt_iff_toNat_lt, ← UInt8.toNat_inj]
  unfold Decimal.digit
  omega

/-- Digit strings of one length compare as their values do. -/
theorem lt_iff_value {s t : Bytes} (hs : Digits s) (ht : Digits t) (hlen : s.length = t.length) :
    s < t ↔ Decimal.value s < Decimal.value t := by
  induction s generalizing t with
  | nil =>
    cases t with
    | nil => exact iff_of_false (List.not_lt_nil []) (Nat.lt_irrefl _)
    | cons d t => cases hlen
  | cons c s ih =>
    cases t with
    | nil => cases hlen
    | cons d t =>
      obtain ⟨hc, hs⟩ := List.forall_mem_cons.mp hs
      obtain ⟨hd, ht⟩ := List.forall_mem_cons.mp ht
      have hlen : s.length = t.length := Nat.succ.inj hlen
      have hsmall := value_lt hs
      have hsmall' := value_lt ht
      obtain ⟨hlt, heq⟩ := digit_lt_iff hc hd
      rw [List.cons_lt_cons_iff, ih hs ht hlen, hlt, heq, value_cons, value_cons, hlen]
      rw [hlen] at hsmall
      -- a smaller first digit outweighs all that follow
      have hweight : ∀ {a b : Nat}, a < b → a * 10 ^ t.length + 10 ^ t.length ≤ b * 10 ^ t.length :=
        fun hab => by
          rw [← Nat.succ_mul]
          exact Nat.mul_le_mul_right _ hab
      rcases Nat.lt_trichotomy (Decimal.digit c) (Decimal.digit d) with h | h | h
      · have := hweight h
        omega
      · rw [h]
        omega
      · have := hweight h
        omega

theorem text_lt_iff {w m n : Nat} (hm : m < 10 ^ w) (hn : n < 10 ^ w) :
    text w m < text w n ↔ m < n := by
  rw [lt_iff_value (digits_text w m) (digits_text w n)
    ((length_text w m).trans (length_text w n).symm), value_text hm, value_text hn]

theorem text_inj {w m n : Nat} (hm : m < 10 ^ w) (hn : n < 10 ^ w) :
    text w m = text w n ↔ m = n := by
  refine ⟨fun h => ?_, fun h => by rw [h]⟩
  rw [← value_text hm, h, value_text hn]

/-- A digit string is the text of its value. -/
theorem text_value {s : Bytes} (h : Digits s) : text s.length (Decimal.value s) = s := by
  induction s using List.reverseRecOn with
  | nil => rfl
  | append_singleton s c ih =>
    obtain ⟨hs, hc⟩ := List.forall_mem_append.mp h
    have hdigit := Decimal.isDigit_iff.mp (hc c (List.mem_singleton_self c))
    have hle := Decimal.digit_le (hc c (List.mem_singleton_self c))
    have hdiv : (10 * Decimal.value s + Decimal.digit c) / 10 = Decimal.value s := by omega
    have hlast : UInt8.ofNat (0x30 + (10 * Decimal.value s + Decimal.digit c) % 10) = c := by
      rw [← UInt8.toNat_inj, toNat_last]
      unfold Decimal.digit at hle ⊢
      omega
    rw [List.length_append, List.length_singleton, text, value_concat, hdiv, ih hs, hlast]

/-! ## Records -/

/-- The fields of two records have the same widths, and hold their numbers. -/
def Aligned (fs gs : List (Nat × Nat)) : Prop :=
  List.Forall₂ (fun f g => f.1 = g.1 ∧ f.2 < 10 ^ f.1 ∧ g.2 < 10 ^ g.1) fs gs

/-- The first parts decide, if they are of one length. -/
theorem append_lt_append_iff {a b x y : Bytes} (h : a.length = b.length) :
    a ++ x < b ++ y ↔ a < b ∨ a = b ∧ x < y := by
  induction a generalizing b with
  | nil =>
    cases b with
    | nil => simp
    | cons d b => cases h
  | cons c a ih =>
    cases b with
    | nil => cases h
    | cons d b =>
      have hrest := ih (b := b) (Nat.succ.inj h)
      rw [List.cons_append, List.cons_append, List.cons_lt_cons_iff, List.cons_lt_cons_iff, hrest,
        List.cons.injEq]
      tauto

theorem record_lt_iff {fs gs : List (Nat × Nat)} (h : Aligned fs gs) :
    record fs < record gs ↔ fs.map Prod.snd < gs.map Prod.snd := by
  induction h with
  | nil => exact iff_of_false (List.not_lt_nil []) (List.not_lt_nil [])
  | @cons f g fs gs hfg _ ih =>
    obtain ⟨w, m⟩ := f
    obtain ⟨w', n⟩ := g
    obtain ⟨rfl, hm, hn⟩ := hfg
    have hlen : (text w m).length = (text w n).length :=
      (length_text w m).trans (length_text w n).symm
    rw [record, record, List.flatMap_cons, List.flatMap_cons, append_lt_append_iff hlen,
      text_lt_iff hm hn, text_inj hm hn, List.map_cons, List.map_cons, List.cons_lt_cons_iff]
    exact or_congr_right (and_congr_right fun _ => ih)

theorem record_inj {fs gs : List (Nat × Nat)} (h : Aligned fs gs) :
    record fs = record gs ↔ fs.map Prod.snd = gs.map Prod.snd := by
  induction h with
  | nil => exact iff_of_true rfl rfl
  | @cons f g fs gs hfg _ ih =>
    obtain ⟨w, m⟩ := f
    obtain ⟨w', n⟩ := g
    obtain ⟨rfl, hm, hn⟩ := hfg
    have hlen : (text w m).length = (text w n).length :=
      (length_text w m).trans (length_text w n).symm
    rw [record, record, List.flatMap_cons, List.flatMap_cons, List.map_cons, List.map_cons,
      List.cons.injEq, ← ih, ← text_inj hm hn]
    exact ⟨fun heq => List.append_inj heq hlen, fun ⟨hhead, htail⟩ => congrArg₂ _ hhead htail⟩

theorem digits_record (fields : List (Nat × Nat)) : Digits (record fields) := by
  intro c hc
  obtain ⟨f, -, hc⟩ := List.mem_flatMap.mp hc
  exact digits_text f.1 f.2 c hc

end CommonCpp.Lib.Fixed
