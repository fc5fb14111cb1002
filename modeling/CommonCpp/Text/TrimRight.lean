import CommonCpp.Lib.Bytes
import CommonCpp.Lib.LastRun
import CommonCpp.Lib.Strip

/-!
# `common::trim_right`

Two loops: a pass over `cutset` that takes the last byte off `str` whenever it is
the one at hand, and a `while (1)` around it that ends with a pass that took
nothing. Read from its end a pass is `strip`, so `trimPass_back` says all there is
to say about the text; what a pass reads is said by `trimPass_outside`.

The last byte is `str[str.size() - 1]`, also when `str` is empty and the index
wraps around. `substr(0, str.size() - 1)` is then the empty string again, so the
byte that is found there, `garbage`, decides nothing.

The loop compares a length that was narrowed to an `int` with the size. Above
`INT_MAX` it is left or not by the arithmetic of that (`trimRight_leaves_iff`).
-/

namespace CommonCpp.Text

open CommonCpp.Lib

/-- The local `str`, and how often `str[str.size() - 1]` has been evaluated with
`str` empty. -/
structure Trim where
  str : Bytes
  outside : Nat

/-- `str[str.size() - 1]` -/
def Trim.last (garbage : Nat → UInt8) (t : Trim) : UInt8 × Trim :=
  match t.str.getLast? with
  | some b => (b, t)
  | none => (garbage t.outside, { t with outside := t.outside + 1 })

/-- The body of the inner loop. -/
def trimChar (garbage : Nat → UInt8) (t : Trim) (c : UInt8) : Trim :=
  let (b, t) := t.last garbage
  if b = c then { t with str := t.str.dropLast } else t

/-- `for (char c : cutset)` -/
def trimPass (garbage : Nat → UInt8) (cutset : Bytes) (t : Trim) : Trim :=
  cutset.foldl (trimChar garbage) t

/-- `n == str.size()`: the `int` is converted to the unsigned 64 bits of the size,
a negative one to a very large number. -/
def sameSize (n : Int) (size : Nat) : Bool := (n % 18446744073709551616).toNat == size

/-- At most `passes` rounds of `while (1)`, and whether the `break` was reached. -/
def trimLoop (garbage : Nat → UInt8) (cutset : Bytes) : Nat → Trim → Trim × Bool
  | 0, t => (t, false)
  | passes + 1, t =>
    let n := int32 t.str.length
    let t := trimPass garbage cutset t
    if sameSize n t.str.length then (t, true) else trimLoop garbage cutset passes t

/-- `trim_right`, if it is done after `passes` rounds. -/
def trimRight (garbage : Nat → UInt8) (str cutset : Bytes) (passes : Nat) : Option Bytes :=
  match trimLoop garbage cutset passes ⟨str, 0⟩ with
  | (t, true) => some t.str
  | (_, false) => none

/-! ## One pass -/

theorem trimChar_nil (garbage : Nat → UInt8) (c : UInt8) (n : Nat) :
    trimChar garbage ⟨[], n⟩ c = ⟨[], n + 1⟩ := by
  simp [trimChar, Trim.last]

theorem trimChar_concat (garbage : Nat → UInt8) (c : UInt8) (n : Nat) (s : Bytes) (b : UInt8) :
    trimChar garbage ⟨s ++ [b], n⟩ c = ⟨if b = c then s else s ++ [b], n⟩ := by
  by_cases hbc : b = c
  · simp [trimChar, Trim.last, hbc]
  · simp [trimChar, Trim.last, hbc]

/-- In an empty string every byte of the cutset is compared with one outside. -/
theorem trimPass_nil (garbage : Nat → UInt8) (cutset : Bytes) (n : Nat) :
    trimPass garbage cutset ⟨[], n⟩ = ⟨[], n + cutset.length⟩ := by
  induction cutset generalizing n with
  | nil => rfl
  | cons c cutset ih =>
    rw [trimPass, List.foldl_cons, trimChar_nil, ← trimPass, ih, List.length_cons]
    congr 1
    omega

theorem trimPass_cons (garbage : Nat → UInt8) (c : UInt8) (cutset : Bytes) (t : Trim) :
    trimPass garbage (c :: cutset) t = trimPass garbage cutset (trimChar garbage t c) := rfl

/-- The text, last byte first. -/
def Trim.back (t : Trim) : Bytes := t.str.reverse

/-- What a pass does to the text, whatever it read outside. -/
theorem trimPass_back (garbage : Nat → UInt8) (cutset : Bytes) (t : Trim) :
    (trimPass garbage cutset t).back = strip cutset t.back := by
  induction cutset generalizing t with
  | nil => rfl
  | cons c cutset ih =>
    obtain ⟨str, n⟩ := t
    rcases List.eq_nil_or_concat' str with rfl | ⟨s, b, rfl⟩
    · rw [trimPass_nil]
      rfl
    · rw [trimPass_cons, trimChar_concat, ih]
      simp only [Trim.back, List.reverse_append, List.reverse_singleton, List.singleton_append]
      rw [strip]
      split
      · rfl
      · simp

/-- A pass stays inside unless it has used the text up before the last byte of the
cutset. -/
theorem trimPass_outside (garbage : Nat → UInt8) (cutset : Bytes) (t : Trim) :
    (trimPass garbage cutset t).outside = t.outside
      ↔ cutset = [] ∨ ¬ t.back.Sublist cutset.dropLast := by
  induction cutset generalizing t with
  | nil => simp [trimPass]
  | cons c cutset ih =>
    obtain ⟨str, n⟩ := t
    rcases List.eq_nil_or_concat' str with rfl | ⟨s, b, rfl⟩
    · rw [trimPass_nil]
      simp [Trim.back]
    · have hback : Trim.back ⟨s ++ [b], n⟩ = b :: s.reverse := by simp [Trim.back]
      rw [trimPass_cons, trimChar_concat, hback]
      refine (ih ⟨if b = c then s else s ++ [b], n⟩).trans ?_
      -- the last byte of the cutset is the one at hand, or comes later
      rcases cutset with _ | ⟨d, cutset⟩
      · simp
      · rw [List.dropLast_cons_cons]
        split
        next hbc => simp [Trim.back, hbc]
        next hbc =>
          rw [hback]
          simp [List.cons_sublist_cons', hbc]

/-! ## All passes -/

@[simp] theorem Trim.length_back (t : Trim) : t.back.length = t.str.length :=
  List.length_reverse

theorem Trim.mem_back {t : Trim} {b : UInt8} : b ∈ t.back ↔ b ∈ t.str := List.mem_reverse

theorem length_trimPass (garbage : Nat → UInt8) (cutset : Bytes) (t : Trim) :
    (trimPass garbage cutset t).str.length = (strip cutset t.back).length := by
  rw [← trimPass_back, Trim.length_back]

theorem sameSize_int32 {n size : Nat} (hn : n < 2147483648) :
    sameSize (int32 n) size = true ↔ size = n := by
  rw [sameSize, int32_of_lt hn, beq_iff_eq]
  omega

/-- The lengths that survive being an `int`. -/
def Measured (n : Nat) : Prop := n < 2147483648 ∨ 18446744071562067968 ≤ n

/-- A length survives if its sign extension gives it back, and a shorter size passes for
it only if an `int` can hold that. -/
theorem sameSize_iff {n size : Nat} (hn : n < 18446744073709551616) (hle : size ≤ n) :
    sameSize (int32 n) size = true ↔ (size = n ∧ Measured n) ∨
      (size < n ∧ size < 2147483648 ∧ 4294967296 ∣ n - size) := by
  have hint : int32 n = (n : Int).bmod 4294967296 := BitVec.toInt_ofNat ..
  rw [sameSize, beq_iff_eq, hint, Int.bmod, Measured]
  split <;> omega

/-- For a text that an `int` can measure the loop is left, with everything at the
end taken off that the cutset has. -/
theorem trimLoop_back (garbage : Nat → UInt8) (cutset : Bytes) {passes : Nat} {t : Trim}
    (hint : t.str.length < 2147483648) (hp : t.str.length < passes) :
    ∃ t', trimLoop garbage cutset passes t = (t', true)
      ∧ t'.back = t.back.dropWhile (· ∈ cutset) := by
  induction passes generalizing t with
  | zero => exact absurd hp (Nat.not_lt_zero _)
  | succ passes ih =>
    have hlen := length_trimPass garbage cutset t
    have hle := (strip_suffix cutset t.back).length_le
    rw [Trim.length_back] at hle
    rw [trimLoop]
    split
    next hsame =>
      rw [sameSize_int32 hint, hlen, ← t.length_back] at hsame
      refine ⟨_, rfl, ?_⟩
      rw [trimPass_back, dropWhile_of_length_strip hsame]
      exact (strip_suffix cutset t.back).eq_of_length hsame
    next hsame =>
      rw [sameSize_int32 hint, hlen] at hsame
      obtain ⟨t', ht', hback⟩ := ih (t := trimPass garbage cutset t) (by omega) (by omega)
      exact ⟨t', ht', by rw [hback, trimPass_back, dropWhile_strip]⟩

theorem trimRight_eq (garbage : Nat → UInt8) {str : Bytes} (cutset : Bytes) {passes : Nat}
    (hint : str.length < 2147483648) (hp : str.length < passes) :
    trimRight garbage str cutset passes = some (str.rdropWhile (· ∈ cutset)) := by
  obtain ⟨t, ht, hback⟩ := trimLoop_back garbage cutset (t := ⟨str, 0⟩) hint hp
  rw [trimRight, ht]
  show some t.str = some (str.reverse.dropWhile (· ∈ cutset)).reverse
  rw [← List.reverse_reverse t.str]
  exact congrArg (fun s => some s.reverse) hback

/-! ## The longest trimmed beginning -/

/-- Empty, or ending with a byte the cutset does not have. -/
def Trimmed (cutset s : Bytes) : Prop := ∀ b ∈ s.getLast?, b ∉ cutset

theorem trimmed_rdropWhile (cutset str : Bytes) :
    Trimmed cutset (str.rdropWhile (· ∈ cutset)) := by
  intro b hb
  obtain ⟨hne, rfl⟩ := List.mem_getLast?_eq_getLast hb
  simpa using List.rdropWhile_last_not (· ∈ cutset) str hne

theorem length_le_rdropWhile {cutset str s : Bytes} (hs : s <+: str) (htrim : Trimmed cutset s) :
    s.length ≤ (str.rdropWhile (· ∈ cutset)).length := by
  by_contra hlt
  have hr := List.rdropWhile_prefix (· ∈ cutset) str
  obtain ⟨x, rfl⟩ := List.prefix_of_prefix_length_le hr hs (by omega)
  -- the rest of `s` is taken from what was dropped
  have hx : x <+: str.rtakeWhile (· ∈ cutset) := by
    have happ := List.rdropWhile_append_rtakeWhile (p := (· ∈ cutset)) (l := str)
    obtain ⟨rest, hrest⟩ := hs
    rw [List.append_assoc] at hrest
    exact ⟨rest, List.append_cancel_left (hrest.trans happ.symm)⟩
  have hne : x ≠ [] := by
    rintro rfl
    exact hlt (by simp)
  have hlast := htrim (x.getLast hne) (by
    rw [List.getLast?_append_of_ne_nil _ hne]
    exact List.getLast?_eq_some_getLast hne)
  exact hlast (by simpa using List.mem_rtakeWhile_imp (hx.mem (List.getLast_mem hne)))

/-- **The longest trimmed beginning.** For every text that an `int` can measure and
every cutset: `trim_right` ends and returns the longest beginning of the text that is trimmed.
The order of the cutset and what reads outside find play no part, and a second call changes
nothing. -/
theorem trimRight_longest (garbage : Nat → UInt8) (str cutset : Bytes)
    (hint : str.length < 2147483648) :
    ∃ r, (∀ passes, str.length < passes → trimRight garbage str cutset passes = some r)
      ∧ r <+: str ∧ Trimmed cutset r
      ∧ (∀ s, s <+: str → Trimmed cutset s → s.length ≤ r.length)
      ∧ (∀ (garbage' : Nat → UInt8) (cutset' : Bytes), (∀ b, b ∈ cutset' ↔ b ∈ cutset) →
          ∀ passes, str.length < passes → trimRight garbage' str cutset' passes = some r)
      ∧ ∀ (garbage' : Nat → UInt8) (passes : Nat), r.length < passes →
          trimRight garbage' r cutset passes = some r := by
  have hr := List.rdropWhile_prefix (· ∈ cutset) str
  refine ⟨str.rdropWhile (· ∈ cutset), fun passes hp => trimRight_eq garbage cutset hint hp, hr,
    trimmed_rdropWhile cutset str, fun s hs htrim => length_le_rdropWhile hs htrim, ?_, ?_⟩
  · intro garbage' cutset' hset passes hp
    rw [trimRight_eq garbage' cutset' hint hp]
    simp only [hset]
  · intro garbage' passes hp
    rw [trimRight_eq garbage' cutset (Nat.lt_of_le_of_lt hr.length_le hint) hp,
      List.rdropWhile_idempotent]

/-- `"a, ,"` without `", "` -/
theorem trimRight_longest_comma :
    ∃ r, (∀ passes, 4 < passes → trimRight (fun _ => 0) (ascii "a, ,") (ascii ", ") passes = some r)
      ∧ r <+: ascii "a, ,"
      ∧ Trimmed (ascii ", ") r
      ∧ (∀ s, s <+: ascii "a, ," → Trimmed (ascii ", ") s → s.length ≤ r.length)
      ∧ (∀ (garbage' : Nat → UInt8) (cutset' : Bytes), (∀ b, b ∈ cutset' ↔ b ∈ ascii ", ") →
          ∀ passes, 4 < passes → trimRight garbage' (ascii "a, ,") cutset' passes = some r)
      ∧ ∀ (garbage' : Nat → UInt8) (passes : Nat), r.length < passes →
          trimRight garbage' r (ascii ", ") passes = some r :=
  trimRight_longest (fun _ => 0) (ascii "a, ,") (ascii ", ") (by decide)

/-! ## What is read -/

/-- Over the text `s`, last byte first: the pass does not use it up early, and the
comparison that follows ends the loop. -/
def LastPass (cutset s : Bytes) : Prop :=
  ¬ s.Sublist cutset.dropLast ∧ sameSize (int32 s.length) (strip cutset s).length = true

/-- The passes end before the text does: there are none over it, a byte survives
them all, or the narrowed length happens to be the right one. -/
def StaysInside (str cutset : Bytes) : Prop :=
  cutset = [] ∨ (∃ b ∈ str, b ∉ cutset)
    ∨ ∃ k, LastPass cutset ((strip cutset)^[k] str.reverse)

/-- A pass that does not use up a text of bytes of the cutset early takes something off. -/
theorem length_strip_of_all {cutset s : Bytes} (hall : ∀ b ∈ s, b ∈ cutset)
    (hsub : ¬ s.Sublist cutset.dropLast) : (strip cutset s).length < s.length := by
  cases s with
  | nil => exact absurd (List.nil_sublist _) hsub
  | cons b s => exact length_strip_lt (hall b (List.mem_cons_self ..)) s

/-- The narrowed length is wrong by a multiple of `2 ^ 32`, so a pass over a text it
can take something off ends the loop only when it takes that many bytes at once. -/
theorem lastPass_iff {cutset s : Bytes} (hsize : s.length < 18446744073709551616)
    (hlt : (strip cutset s).length < s.length) :
    LastPass cutset s ↔ ¬ s.Sublist cutset.dropLast ∧ (strip cutset s).length < 2147483648
      ∧ 4294967296 ∣ s.length - (strip cutset s).length := by
  have hne : (strip cutset s).length ≠ s.length := Nat.ne_of_lt hlt
  rw [LastPass, sameSize_iff hsize (Nat.le_of_lt hlt)]
  refine and_congr_right fun _ => (or_iff_right fun h => hne h.1).trans ?_
  exact and_iff_right hlt

section

variable (garbage : Nat → UInt8) {cutset : Bytes} {t : Trim}

theorem StaysInside.outside (h : StaysInside t.str cutset) :
    (trimPass garbage cutset t).outside = t.outside := by
  rw [trimPass_outside]
  rcases h with hnil | ⟨b, hb, hc⟩ | ⟨k, hlast⟩
  · exact Or.inl hnil
  · refine Or.inr fun hsub => hc ?_
    exact (hsub.trans (List.dropLast_sublist cutset)).mem (Trim.mem_back.mpr hb)
  · -- the last pass has less text than this one
    refine Or.inr fun hsub => hlast.1 ?_
    exact (iterate_strip_suffix cutset k t.back).sublist.trans hsub

theorem StaysInside.next (h : StaysInside t.str cutset)
    (hsame : ¬ sameSize (int32 t.str.length) (trimPass garbage cutset t).str.length = true) :
    StaysInside (trimPass garbage cutset t).str cutset := by
  rcases h with hnil | ⟨b, hb, hc⟩ | ⟨k, hlast⟩
  · exact Or.inl hnil
  · refine Or.inr (Or.inl ⟨b, ?_, hc⟩)
    rw [← Trim.mem_back, trimPass_back]
    exact mem_strip (Trim.mem_back.mpr hb) hc
  · cases k with
    | zero =>
      refine absurd ?_ hsame
      rw [length_trimPass, ← t.length_back]
      exact hlast.2
    | succ k =>
      refine Or.inr (Or.inr ⟨k, ?_⟩)
      rw [Function.iterate_succ_apply] at hlast
      rw [← Trim.back, trimPass_back]
      exact hlast

theorem StaysInside.run (h : StaysInside t.str cutset) (passes : Nat) :
    (trimLoop garbage cutset passes t).1.outside = t.outside := by
  induction passes generalizing t with
  | zero => rfl
  | succ passes ih =>
    rw [trimLoop]
    split
    next => exact h.outside garbage
    next hsame => exact (ih (h.next garbage hsame)).trans (h.outside garbage)

/-- A text made of bytes of the cutset is used up, unless the loop ends first. -/
theorem exists_lastPass (hne : cutset ≠ []) (hall : ∀ b ∈ t.back, b ∈ cutset)
    (h : ∀ passes, (trimLoop garbage cutset passes t).1.outside = t.outside) :
    ∃ k, LastPass cutset ((strip cutset)^[k] t.back) := by
  induction hn : t.str.length using Nat.strong_induction_on generalizing t with
  | _ n ih =>
    have hin : (trimPass garbage cutset t).outside = t.outside := by
      have h1 := h 1
      rw [trimLoop] at h1
      split at h1
      · exact h1
      · exact h1
    have hsub := ((trimPass_outside garbage cutset t).mp hin).resolve_left hne
    have hlt : (trimPass garbage cutset t).str.length < t.str.length := by
      rw [length_trimPass, ← t.length_back]
      exact length_strip_of_all hall hsub
    by_cases hsame : sameSize (int32 t.str.length) (trimPass garbage cutset t).str.length = true
    · refine ⟨0, hsub, ?_⟩
      rwa [Function.iterate_zero, id, t.length_back, ← length_trimPass garbage]
    · have hnext : ∀ b ∈ (trimPass garbage cutset t).back, b ∈ cutset := by
        intro b hb
        rw [trimPass_back] at hb
        exact hall b ((strip_suffix cutset t.back).mem hb)
      have hrun : ∀ passes, (trimLoop garbage cutset passes (trimPass garbage cutset t)).1.outside
          = (trimPass garbage cutset t).outside := by
        intro passes
        have hp := h (passes + 1)
        rw [trimLoop, if_neg hsame] at hp
        exact hp.trans hin.symm
      obtain ⟨k, hk⟩ := ih _ (hn ▸ hlt) hnext hrun rfl
      exact ⟨k + 1, by rwa [Function.iterate_succ_apply, ← trimPass_back garbage]⟩

end

/-- **When nothing is read outside.** For every text and every cutset:
`str[str.size() - 1]` is only evaluated in a string that has a last byte if and only if the
passes end before the text does. -/
theorem neverOutside_iff (garbage : Nat → UInt8) (str cutset : Bytes) :
    (∀ passes, (trimLoop garbage cutset passes ⟨str, 0⟩).1.outside = 0)
      ↔ StaysInside str cutset := by
  refine ⟨fun h => ?_, fun h => h.run garbage⟩
  by_cases hne : cutset = []
  · exact Or.inl hne
  by_cases hall : ∃ b ∈ str, b ∉ cutset
  · exact Or.inr (Or.inl hall)
  · push Not at hall
    have hback : ∀ b ∈ Trim.back ⟨str, 0⟩, b ∈ cutset := fun b hb => hall b (Trim.mem_back.mp hb)
    exact Or.inr (Or.inr (exists_lastPass garbage hne hback h))

/-- `"a"` without `"a"`: the pass that finds nothing more reads outside. -/
theorem read_outside :
    ¬ ∀ passes, (trimLoop (fun _ => 0) (ascii "a") passes ⟨ascii "a", 0⟩).1.outside = 0 :=
  fun h => absurd (h 2) (by decide)

/-- Below `2 ^ 32` bytes, of either, the narrowing never ends the loop early: some
byte of the text has to survive. -/
theorem staysInside_iff {str cutset : Bytes} (hsize : str.length < 18446744073709551616)
    (hshort : str.length < 4294967296 ∨ cutset.length < 4294967296) :
    StaysInside str cutset ↔ cutset = [] ∨ ∃ b ∈ str, b ∉ cutset := by
  rw [StaysInside]
  refine or_congr_right (or_iff_left_of_imp ?_)
  rintro ⟨k, hlast⟩
  by_contra hall
  push Not at hall
  have hsuffix := iterate_strip_suffix cutset k str.reverse
  revert hlast hsuffix
  generalize (strip cutset)^[k] str.reverse = s
  intro hlast hsuffix
  have hle := hsuffix.length_le
  rw [List.length_reverse] at hle
  have hmem : ∀ b ∈ s, b ∈ cutset := fun b hb => hall b (List.mem_reverse.mp (hsuffix.mem hb))
  have hlt := length_strip_of_all hmem hlast.1
  -- one pass takes no more bytes than the cutset has
  obtain ⟨taken, htaken, hs⟩ := exists_taken cutset s
  have hpass := htaken.length_le
  have hsplit := congrArg List.length hs
  rw [List.length_append] at hsplit
  obtain ⟨-, -, hdvd⟩ := (lastPass_iff (by omega) hlt).mp hlast
  have hmany := Nat.le_of_dvd (by omega) hdvd
  omega

/-! ## When the loop is left -/

/-- What is left of the text in the end, last byte first. -/
def Trim.kept (cutset : Bytes) (t : Trim) : Bytes := t.back.dropWhile (· ∈ cutset)

section

variable (garbage : Nat → UInt8) (cutset : Bytes)

theorem trimPass_kept (t : Trim) :
    (trimPass garbage cutset t).kept cutset = t.kept cutset := by
  unfold Trim.kept
  rw [trimPass_back, dropWhile_strip]

theorem length_kept_le (t : Trim) : (t.kept cutset).length ≤ t.str.length := by
  rw [← t.length_back]
  exact (List.dropWhile_suffix _).length_le

theorem length_trimPass_le (t : Trim) :
    (trimPass garbage cutset t).str.length ≤ t.str.length := by
  rw [length_trimPass, ← t.length_back]
  exact (strip_suffix cutset t.back).length_le

/-- A pass that takes nothing off has reached the end. -/
theorem kept_of_length {t : Trim}
    (h : (trimPass garbage cutset t).str.length = t.str.length) : t.kept cutset = t.back := by
  rw [length_trimPass, ← t.length_back] at h
  exact dropWhile_of_length_strip h

theorem trimLoop_kept (passes : Nat) (t : Trim) :
    (trimLoop garbage cutset passes t).1.kept cutset = t.kept cutset ∧
      (trimLoop garbage cutset passes t).1.str.length ≤ t.str.length := by
  induction passes generalizing t with
  | zero => exact ⟨rfl, Nat.le_refl _⟩
  | succ passes ih =>
    have hkept := trimPass_kept garbage cutset t
    have hle := length_trimPass_le garbage cutset t
    rw [trimLoop]
    split
    · exact ⟨hkept, hle⟩
    · obtain ⟨hrest, hlen⟩ := ih (trimPass garbage cutset t)
      exact ⟨hrest.trans hkept, Nat.le_trans hlen hle⟩

/-- A pass that takes nothing off is recognised if what is kept survives being an `int`. -/
theorem recognised_of_measured {t : Trim} (hsize : t.str.length < 18446744073709551616)
    (h : Measured (t.kept cutset).length)
    (hsame : (trimPass garbage cutset t).str.length = t.str.length) :
    sameSize (int32 t.str.length) (trimPass garbage cutset t).str.length = true := by
  rw [hsame, sameSize_iff hsize (Nat.le_refl _)]
  rw [kept_of_length garbage cutset hsame, t.length_back] at h
  exact Or.inl ⟨rfl, h⟩

theorem leaves_of_measured {t : Trim} (hsize : t.str.length < 18446744073709551616)
    (h : Measured (t.kept cutset).length) :
    ∃ passes, (trimLoop garbage cutset passes t).2 = true := by
  induction hn : t.str.length using Nat.strong_induction_on generalizing t with
  | _ n ih =>
    have hle := length_trimPass_le garbage cutset t
    by_cases hend : sameSize (int32 t.str.length) (trimPass garbage cutset t).str.length = true
    · refine ⟨1, ?_⟩
      rw [trimLoop, if_pos hend]
    · have hne : (trimPass garbage cutset t).str.length ≠ t.str.length :=
        fun hsame => hend (recognised_of_measured garbage cutset hsize h hsame)
      rw [← trimPass_kept garbage cutset] at h
      obtain ⟨passes, hpasses⟩ := ih (trimPass garbage cutset t).str.length (by omega)
        (by omega) h rfl
      refine ⟨passes + 1, ?_⟩
      rw [trimLoop, if_neg hend]
      exact hpasses

/-- A loop that is left too early has an `int` left to measure. -/
theorem measured_of_leaves {passes : Nat} {t : Trim} (hsize : t.str.length < 18446744073709551616)
    (h : (trimLoop garbage cutset passes t).2 = true) : Measured (t.kept cutset).length := by
  induction passes generalizing t with
  | zero => cases h
  | succ passes ih =>
    have hle := length_trimPass_le garbage cutset t
    by_cases hend : sameSize (int32 t.str.length) (trimPass garbage cutset t).str.length = true
    · rcases (sameSize_iff hsize hle).mp hend with ⟨hsame, hmeasured⟩ | ⟨-, hsmall, -⟩
      · rw [kept_of_length garbage cutset hsame, t.length_back]
        exact hmeasured
      · have hkept := length_kept_le cutset (trimPass garbage cutset t)
        rw [trimPass_kept] at hkept
        exact Or.inl (by omega)
    · rw [trimLoop, if_neg hend] at h
      rw [← trimPass_kept garbage cutset]
      exact ih (by omega) h

end

/-- What is kept, by the places of the bytes that the cutset does not have. -/
theorem measured_kept_iff (str cutset : Bytes) :
    Measured (Trim.kept cutset ⟨str, 0⟩).length ↔ (∀ b ∈ str.drop 2147483647, b ∈ cutset) ∨
      ∃ b ∈ str.drop 18446744071562067967, b ∉ cutset := by
  have hlength : (Trim.kept cutset ⟨str, 0⟩).length = (str.rdropWhile (· ∈ cutset)).length :=
    List.length_reverse.symm
  have hplace : ∀ k, k < (str.rdropWhile (· ∈ cutset)).length ↔ ∃ b ∈ str.drop k, b ∉ cutset := by
    intro k
    rw [lt_length_rdropWhile]
    simp only [decide_eq_false_iff_not]
  rw [hlength, Measured, ← hplace]
  refine or_congr ?_ Nat.succ_le_iff
  rw [Nat.lt_succ_iff, ← Nat.not_lt, hplace]
  push Not
  rfl

/-- **When `trim_right` ends.** For every text whose length is a `size_t` and every
cutset: the loop is left, and a pass that takes nothing off is recognised, if and only if the
text up to its last byte that the cutset does not have is shorter than `2 ^ 31` bytes, or has
`2 ^ 64 - 2 ^ 31` bytes or more. -/
theorem trimRight_leaves_iff (garbage : Nat → UInt8) (str cutset : Bytes)
    (hsize : str.length < 18446744073709551616) :
    ((∃ passes, (trimLoop garbage cutset passes ⟨str, 0⟩).2 = true) ∧
        ∀ passes t, trimLoop garbage cutset passes ⟨str, 0⟩ = (t, false) →
          (trimPass garbage cutset t).str.length = t.str.length →
            sameSize (int32 t.str.length) (trimPass garbage cutset t).str.length = true) ↔
      (∀ b ∈ str.drop 2147483647, b ∈ cutset) ∨
        ∃ b ∈ str.drop 18446744071562067967, b ∉ cutset := by
  rw [← measured_kept_iff]
  constructor
  · rintro ⟨⟨passes, hpasses⟩, -⟩
    exact measured_of_leaves garbage cutset hsize hpasses
  · intro h
    refine ⟨leaves_of_measured garbage cutset hsize h, fun passes t ht hsame => ?_⟩
    obtain ⟨hkept, hlen⟩ := trimLoop_kept garbage cutset passes ⟨str, 0⟩
    rw [ht] at hkept hlen
    dsimp only at hkept hlen
    refine recognised_of_measured garbage cutset (Nat.lt_of_le_of_lt hlen hsize) ?_ hsame
    rw [hkept]
    exact h

/-- `"a/"` without `"/"` is done. -/
theorem trimRight_leaves_slash :
    (∃ passes, (trimLoop (fun _ => 0) (ascii "/") passes ⟨ascii "a/", 0⟩).2 = true) ∧
      ∀ passes t, trimLoop (fun _ => 0) (ascii "/") passes ⟨ascii "a/", 0⟩ = (t, false) →
        (trimPass (fun _ => 0) (ascii "/") t).str.length = t.str.length →
          sameSize (int32 t.str.length) (trimPass (fun _ => 0) (ascii "/") t).str.length = true :=
  (trimRight_leaves_iff (fun _ => 0) (ascii "a/") (ascii "/") (by decide)).mpr
    (Or.inl (by decide))

theorem replicate_not_measured {n : Nat} (hge : 2147483648 ≤ n) (hlt : n < 18446744071562067968) :
    ¬ Measured (Trim.kept (ascii "/") ⟨List.replicate n 0x61, 0⟩).length := by
  rw [measured_kept_iff, List.drop_replicate, List.drop_replicate]
  rintro (hall | ⟨b, hb, -⟩)
  · have hmem : (0x61 : UInt8) ∈ List.replicate (n - 2147483647) 0x61 :=
      List.mem_replicate.mpr ⟨by omega, rfl⟩
    exact absurd (hall _ hmem) (by decide)
  · exact (List.mem_replicate.mp hb).1 (by omega)

/-- With `2 ^ 31` bytes and no slash among them there is nothing to take off, and the loop
goes on. -/
theorem trimRight_never_leaves :
    ¬ ∀ (garbage : Nat → UInt8) (str cutset : Bytes), str.length < 18446744073709551616 →
      (∃ passes, (trimLoop garbage cutset passes ⟨str, 0⟩).2 = true) ∧
        ∀ passes t, trimLoop garbage cutset passes ⟨str, 0⟩ = (t, false) →
          (trimPass garbage cutset t).str.length = t.str.length →
            sameSize (int32 t.str.length) (trimPass garbage cutset t).str.length = true := by
  intro h
  have hsize : (List.replicate 2147483648 (0x61 : UInt8)).length < 18446744073709551616 := by
    rw [List.length_replicate]
    omega
  obtain ⟨⟨passes, hpasses⟩, -⟩ :=
    h (fun _ => 0) (List.replicate 2147483648 0x61) (ascii "/") hsize
  exact replicate_not_measured (Nat.le_refl _) (by omega) (measured_of_leaves _ _ hsize hpasses)

end CommonCpp.Text
