import Mathlib.Data.List.DropRight

/-!
# The run a sequence ends with

`List.rtakeWhile` takes the items of a class off the end of a sequence. What it
takes is the longest suffix inside the class (`longestSuffix_rtakeWhile`), and
it is empty only where there is no such item at the end.
-/

namespace CommonCpp.Lib

variable {α : Type}

/-- `w` is the longest suffix of `l` that is inside the class. -/
structure LongestSuffix (p : α → Bool) (l w : List α) : Prop where
  suffix : w <:+ l
  inside : ∀ a ∈ w, p a = true
  longest : ∀ v, v <:+ l → (∀ a ∈ v, p a = true) → v <:+ w

theorem longestSuffix_rtakeWhile (p : α → Bool) (l : List α) :
    LongestSuffix p l (l.rtakeWhile p) where
  suffix := List.rtakeWhile_suffix p l
  inside := fun _ ha => List.mem_rtakeWhile_imp ha
  longest := by
    rintro v ⟨front, rfl⟩ hv
    -- the run goes through all of `v`, from its end
    rw [List.rtakeWhile, List.reverse_append, List.takeWhile_append_of_pos fun a ha =>
      hv a (List.mem_reverse.mp ha), List.reverse_append, List.reverse_reverse]
    exact List.suffix_append _ _

theorem LongestSuffix.unique {p : α → Bool} {l v w : List α} (hv : LongestSuffix p l v)
    (hw : LongestSuffix p l w) : v = w := by
  have hle := hw.longest v hv.suffix hv.inside
  have hge := hv.longest w hw.suffix hw.inside
  exact hle.eq_of_length_le hge.length_le

/-- An item in front makes no difference unless the run goes through everything. -/
theorem rtakeWhile_cons_of_not {p : α → Bool} {c : α} {l : List α}
    (h : ¬ ∀ a ∈ c :: l, p a = true) : (c :: l).rtakeWhile p = l.rtakeWhile p := by
  have hrun := longestSuffix_rtakeWhile p l
  refine (longestSuffix_rtakeWhile p (c :: l)).unique
    ⟨hrun.suffix.trans (List.suffix_cons c l), hrun.inside, fun v hv hinside => ?_⟩
  rcases List.suffix_cons_iff.mp hv with rfl | hsuffix
  · exact absurd hinside h
  · exact hrun.longest v hsuffix hinside

/-- The two parts of a sequence: the first is empty or ends outside the class. -/
theorem rdropWhile_nil_or_concat (p : α → Bool) (l : List α) :
    l.rdropWhile p = [] ∨ ∃ d c, l.rdropWhile p = d ++ [c] ∧ p c = false := by
  by_cases hne : l.rdropWhile p = []
  · exact Or.inl hne
  · have hlast := List.rdropWhile_last_not p l hne
    exact Or.inr ⟨_, _, (List.dropLast_append_getLast hne).symm, (Bool.not_eq_true _).mp hlast⟩

/-- Something outside the class stands at index `k` or later. -/
theorem lt_length_rdropWhile (p : α → Bool) (l : List α) (k : Nat) :
    k < (l.rdropWhile p).length ↔ ∃ a ∈ l.drop k, p a = false := by
  have hsplit := List.rdropWhile_append_rtakeWhile (p := p) (l := l)
  constructor
  · intro hk
    rcases rdropWhile_nil_or_concat p l with hnil | ⟨d, c, hd, hc⟩
    · rw [hnil] at hk
      exact absurd hk (Nat.not_lt_zero k)
    · refine ⟨c, ?_, hc⟩
      rw [hd, List.length_append, List.length_singleton] at hk
      rw [← hsplit, hd, List.append_assoc, List.drop_append_of_le_length (by omega)]
      exact List.mem_append_right _ (List.mem_append_left _ (List.mem_singleton_self c))
  · rintro ⟨a, ha, hout⟩
    by_contra hk
    -- from there on everything is in the last run
    rw [← hsplit, List.drop_append, List.drop_eq_nil_of_le (by omega), List.nil_append] at ha
    rw [List.mem_rtakeWhile_imp (List.mem_of_mem_drop ha)] at hout
    cases hout

theorem rtakeWhile_nil_iff (p : α → Bool) (l : List α) :
    l.rtakeWhile p = [] ↔ l = [] ∨ ∃ d c, l = d ++ [c] ∧ p c = false := by
  cases l using List.reverseRecOn with
  | nil => exact ⟨fun _ => Or.inl rfl, fun _ => List.rtakeWhile_nil p⟩
  | append_singleton d c =>
    cases hc : p c with
    | true =>
      rw [List.rtakeWhile_concat_pos p d c hc]
      constructor
      · intro h
        exact absurd h (List.append_ne_nil_of_right_ne_nil _ (List.cons_ne_nil c []))
      · rintro (h | ⟨d', c', h, hc'⟩)
        · exact absurd h (List.append_ne_nil_of_right_ne_nil _ (List.cons_ne_nil c []))
        · obtain ⟨-, he⟩ := List.append_inj' h rfl
          cases he
          rw [hc] at hc'
          cases hc'
    | false =>
      rw [List.rtakeWhile_concat_neg p d c (by rw [hc]; exact Bool.false_ne_true)]
      exact ⟨fun _ => Or.inr ⟨d, c, rfl, hc⟩, fun _ => rfl⟩

end CommonCpp.Lib
