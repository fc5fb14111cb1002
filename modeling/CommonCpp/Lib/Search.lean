import Mathlib.Data.List.Basic

/-!
# Finding a pattern in a list

`expect` strips a pattern from the front, `breakAt` cuts in front of its first
occurrence. A pattern whose first symbol does not come back in it cannot
overlap itself, so what stands in front of it is cut off whole unless the
pattern occurs in there (`breakAt_append`).
-/

namespace CommonCpp.Lib.Search

variable {α : Type}

/-- An occurrence that starts in `v` ends there: reaching over the end it would
have the first symbol of the pattern once more inside. -/
theorem prefix_of_straddle {c : α} {p v r : List α} (hc : c ∉ p) (hv : v ≠ [])
    (h : c :: p <+: v ++ (c :: p ++ r)) : c :: p <+: v := by
  rcases List.prefix_or_prefix_of_prefix h (List.prefix_append v _) with hle | ⟨z, hz⟩
  · exact hle
  · cases v with
    | nil => exact absurd rfl hv
    | cons d v =>
      cases z with
      | nil =>
        rw [List.append_nil] at hz
        exact hz ▸ List.prefix_refl _
      | cons e z =>
        -- `e` is the first symbol, by the position it stands at in the text
        obtain ⟨t, ht⟩ := h
        rw [← hz, List.append_assoc, List.append_cancel_left_eq] at ht
        simp only [List.cons_append, List.cons.injEq] at ht hz
        obtain ⟨hdc, rfl⟩ := hz
        refine absurd (List.mem_append_right v ?_) hc
        rw [← hdc, ← ht.1]
        exact List.mem_cons_self ..

variable [DecidableEq α]

/-- Strip `p` from the front. -/
def expect : List α → List α → Option (List α)
  | [], s => some s
  | _ :: _, [] => none
  | c :: p, d :: s => if c = d then expect p s else none

/-- The text in front of the first occurrence of `p`, and the rest from there. -/
def breakAt (p : List α) : List α → Option (List α × List α)
  | [] => if p = [] then some ([], []) else none
  | c :: s =>
    if p.isPrefixOf (c :: s) then some ([], c :: s)
    else (breakAt p s).map fun (a, b) => (c :: a, b)

theorem expect_append (p s : List α) : expect p (p ++ s) = some s := by
  induction p with
  | nil => rfl
  | cons c p ih => rw [List.cons_append, expect, if_pos rfl, ih]

theorem append_of_expect {p s r : List α} (h : expect p s = some r) : s = p ++ r := by
  induction p generalizing s with
  | nil =>
    cases h
    rfl
  | cons c p ih =>
    cases s with
    | nil => cases h
    | cons d s =>
      rw [expect] at h
      split at h
      · next hcd => rw [hcd, ih h, List.cons_append]
      · cases h

theorem append_of_breakAt {p s a b : List α} (h : breakAt p s = some (a, b)) : s = a ++ b := by
  induction s generalizing a b with
  | nil =>
    unfold breakAt at h
    split at h
    · cases h
      rfl
    · cases h
  | cons c s ih =>
    unfold breakAt at h
    split at h
    · cases h
      rfl
    · obtain ⟨⟨a', b'⟩, hrest, he⟩ := Option.map_eq_some_iff.mp h
      cases he
      rw [ih hrest]
      rfl

/-- The rest starts with the pattern. -/
theorem prefix_of_breakAt {p s a b : List α} (h : breakAt p s = some (a, b)) : p <+: b := by
  induction s generalizing a with
  | nil =>
    unfold breakAt at h
    split at h
    · next hp =>
      rw [hp]
      exact List.nil_prefix
    · cases h
  | cons c s ih =>
    unfold breakAt at h
    split at h
    · next hpre =>
      cases h
      exact List.isPrefixOf_iff_prefix.mp hpre
    · obtain ⟨⟨a', b'⟩, hrest, he⟩ := Option.map_eq_some_iff.mp h
      cases he
      exact ih hrest

/-- The pattern does not occur in the part that was cut off. -/
theorem not_infix_of_breakAt {p s a b : List α} (hp : p ≠ []) (h : breakAt p s = some (a, b)) :
    ¬ p <:+: a := by
  induction s generalizing a b with
  | nil =>
    rw [breakAt, if_neg hp] at h
    cases h
  | cons c s ih =>
    unfold breakAt at h
    split at h
    · cases h
      exact fun hin => hp (List.infix_nil.mp hin)
    · next hnot =>
      obtain ⟨⟨a', b'⟩, hrest, he⟩ := Option.map_eq_some_iff.mp h
      cases he
      intro hin
      rcases List.infix_cons_iff.mp hin with hpre | hin
      · refine hnot (List.isPrefixOf_iff_prefix.mpr (hpre.trans ?_))
        rw [append_of_breakAt hrest]
        exact List.prefix_append (c :: a') _
      · exact ih hrest hin

theorem breakAt_append {c : α} {p v : List α} (hc : c ∉ p) (hv : ¬ c :: p <:+: v) (r : List α) :
    breakAt (c :: p) (v ++ (c :: p ++ r)) = some (v, c :: p ++ r) := by
  induction v with
  | nil =>
    have hpre : (c :: p).isPrefixOf (c :: (p ++ r)) = true :=
      List.isPrefixOf_iff_prefix.mpr (List.prefix_append (c :: p) r)
    rw [List.nil_append, List.cons_append, breakAt, if_pos hpre]
  | cons d v ih =>
    have hnot : ¬ (c :: p).isPrefixOf (d :: (v ++ (c :: p ++ r))) = true := by
      intro h
      have hpre := List.isPrefixOf_iff_prefix.mp h
      exact hv (prefix_of_straddle hc (List.cons_ne_nil d v) hpre).isInfix
    have hrest := ih fun h => hv (h.trans (List.suffix_cons d v).isInfix)
    rw [List.cons_append, breakAt, if_neg hnot, hrest]
    rfl

end CommonCpp.Lib.Search
