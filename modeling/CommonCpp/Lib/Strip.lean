import Mathlib.Data.List.Basic
import Mathlib.Logic.Function.Iterate

/-!
# Matching a sequence as a pattern goes by

`strip pattern s` goes through `pattern` once and takes the front item off `s`
whenever the two agree, so a beginning of `s` that is a subsequence of `pattern`
is gone afterwards. Done again and again it takes off every item in front that
occurs in `pattern` at all: that is `List.dropWhile`, and `dropWhile_strip` is
what a loop around `strip` preserves.
-/

namespace CommonCpp.Lib

variable {α : Type} [DecidableEq α]

def strip : List α → List α → List α
  | [], s => s
  | _ :: _, [] => []
  | c :: pattern, b :: s => if b = c then strip pattern s else strip pattern (b :: s)

/-- What is taken off is a subsequence of the pattern. -/
theorem exists_taken (pattern s : List α) :
    ∃ taken, taken.Sublist pattern ∧ s = taken ++ strip pattern s := by
  fun_induction strip pattern s with
  | case1 s => exact ⟨[], List.Sublist.refl _, rfl⟩
  | case2 c pattern => exact ⟨[], List.nil_sublist _, rfl⟩
  | case3 pattern b s ih =>
    obtain ⟨taken, hsub, hs⟩ := ih
    exact ⟨b :: taken, hsub.cons_cons b, by rw [List.cons_append, ← hs]⟩
  | case4 c pattern b s hbc ih =>
    obtain ⟨taken, hsub, hs⟩ := ih
    exact ⟨taken, hsub.cons c, hs⟩

theorem strip_suffix (pattern s : List α) : strip pattern s <:+ s := by
  obtain ⟨taken, -, hs⟩ := exists_taken pattern s
  exact ⟨taken, hs.symm⟩

theorem iterate_strip_suffix (pattern : List α) (k : Nat) (s : List α) :
    (strip pattern)^[k] s <:+ s := by
  induction k generalizing s with
  | zero => exact List.suffix_rfl
  | succ k ih => exact (ih (strip pattern s)).trans (strip_suffix pattern s)

/-- An item that the pattern does not have stays. -/
theorem mem_strip {pattern s : List α} {b : α} (hb : b ∈ s) (hp : b ∉ pattern) :
    b ∈ strip pattern s := by
  obtain ⟨taken, hsub, hs⟩ := exists_taken pattern s
  rw [hs, List.mem_append] at hb
  exact hb.resolve_left fun ht => hp (hsub.mem ht)

/-- Once the front item occurs in the pattern, something is taken off. -/
theorem length_strip_lt {pattern : List α} {b : α} (hb : b ∈ pattern) (s : List α) :
    (strip pattern (b :: s)).length < (b :: s).length := by
  induction pattern with
  | nil => exact absurd hb List.not_mem_nil
  | cons c pattern ih =>
    rw [strip]
    split
    · exact Nat.lt_succ_of_le (strip_suffix pattern s).length_le
    next hbc => exact ih ((List.mem_cons.mp hb).resolve_left hbc)

/-- A round that takes nothing off has nothing to take off. -/
theorem dropWhile_of_length_strip {pattern s : List α}
    (h : (strip pattern s).length = s.length) : s.dropWhile (· ∈ pattern) = s := by
  cases s with
  | nil => rfl
  | cons b s =>
    have hb : b ∉ pattern := fun hb => Nat.ne_of_lt (length_strip_lt hb s) h
    exact List.dropWhile_cons_of_neg (by simpa using hb)

/-- One round leaves the result of all of them as it is. -/
theorem dropWhile_strip (pattern s : List α) :
    (strip pattern s).dropWhile (· ∈ pattern) = s.dropWhile (· ∈ pattern) := by
  obtain ⟨taken, hsub, hs⟩ := exists_taken pattern s
  conv_rhs => rw [hs]
  rw [List.dropWhile_append_of_pos]
  intro b hb
  simpa using hsub.mem hb

end CommonCpp.Lib
