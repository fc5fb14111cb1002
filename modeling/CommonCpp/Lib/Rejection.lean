import Mathlib.Data.Int.CardIntervalMod

/-!
# Drawing until something is accepted

The first draw that is accepted decides. Of all sequences of `k` draws, those that end
with a certain result are as many as the single draws that are accepted as that result,
times a number that is the same for every result (`ways_eq`). So results are equally
frequent over sequences exactly if they are over single draws (`ways_eq_iff`).

`countP_mod` counts the draws with a certain remainder.
-/

namespace CommonCpp.Lib.Rejection

variable {α β : Type} [DecidableEq β] (accept : α → Option β) (draws : List α)

/-- All sequences of `k` draws. -/
def sequences : Nat → List (List α)
  | 0 => [[]]
  | k + 1 => draws.flatMap fun d => (sequences k).map (d :: ·)

/-- The sequences of `k` draws whose first accepted one is accepted as `v`. -/
def ways (v : β) (k : Nat) : Nat :=
  (sequences draws k).countP fun ds => ds.findSome? accept = some v

/-- The draws that are accepted as `v`. -/
def hits (v : β) : Nat := draws.countP fun d => accept d = some v

/-- The draws that are not accepted. -/
def misses : Nat := draws.countP fun d => accept d = none

/-- How often each single draw counts in the sequences of `k` draws. -/
def weight : Nat → Nat
  | 0 => 0
  | k + 1 => draws.length ^ k + misses accept draws * weight k

theorem length_sequences (k : Nat) : (sequences draws k).length = draws.length ^ k := by
  induction k with
  | zero => rfl
  | succ k ih =>
    have hall : ∀ ds : List α,
        (ds.flatMap fun d => (sequences draws k).map (d :: ·)).length
          = ds.length * draws.length ^ k := by
      intro ds
      induction ds with
      | nil => simp
      | cons d ds ihd =>
        rw [List.flatMap_cons, List.length_append, ihd, List.length_map, ih, List.length_cons,
          Nat.succ_mul, Nat.add_comm]
    rw [sequences, hall, Nat.pow_succ, Nat.mul_comm]

/-- Behind a draw that is accepted the others make no difference. -/
theorem countP_of_accepted {d : α} {w : β} (hd : accept d = some w) (v : β) (k : Nat) :
    ((sequences draws k).map (d :: ·)).countP (fun ds => ds.findSome? accept = some v)
      = if w = v then draws.length ^ k else 0 := by
  rw [List.countP_map]
  by_cases hw : w = v
  · simp [Function.comp_def, hd, hw, length_sequences]
  · simp [Function.comp_def, hd, hw]

theorem countP_of_missed {d : α} (hd : accept d = none) (v : β) (k : Nat) :
    ((sequences draws k).map (d :: ·)).countP (fun ds => ds.findSome? accept = some v)
      = ways accept draws v k := by
  rw [List.countP_map, ways]
  simp [Function.comp_def, hd]

/-- The first draw decides, or the others do. -/
theorem ways_succ (v : β) (k : Nat) :
    ways accept draws v (k + 1)
      = hits accept draws v * draws.length ^ k + misses accept draws * ways accept draws v k := by
  have hall : ∀ ds : List α,
      (ds.flatMap fun d => (sequences draws k).map (d :: ·)).countP
          (fun ds => ds.findSome? accept = some v)
        = ds.countP (fun d => accept d = some v) * draws.length ^ k
          + ds.countP (fun d => accept d = none) * ways accept draws v k := by
    intro ds
    induction ds with
    | nil => simp
    | cons d ds ih =>
      rw [List.flatMap_cons, List.countP_append, ih, List.countP_cons, List.countP_cons]
      cases hd : accept d with
      | none =>
        rw [countP_of_missed accept draws hd, if_neg (by simp), if_pos (by simp), Nat.add_zero,
          Nat.succ_mul]
        omega
      | some w =>
        simp only [reduceCtorEq, decide_false, Bool.false_eq_true, if_false, Nat.add_zero]
        rw [countP_of_accepted accept draws hd]
        by_cases hw : w = v
        · rw [if_pos hw, if_pos (by simp [hw]), Nat.succ_mul]
          omega
        · rw [if_neg hw, if_neg (by simp [hw]), Nat.zero_add, Nat.add_zero]
  exact hall draws

theorem ways_eq (v : β) (k : Nat) :
    ways accept draws v k = hits accept draws v * weight accept draws k := by
  induction k with
  | zero => rfl
  | succ k ih =>
    rw [ways_succ, ih, weight, Nat.mul_add, Nat.mul_left_comm]

omit [DecidableEq β] in
theorem weight_pos {draws : List α} (h : draws ≠ []) (k : Nat) :
    0 < weight accept draws (k + 1) :=
  Nat.add_pos_left (Nat.pow_pos (List.length_pos_iff.mpr h)) _

/-- Over sequences two results are equally frequent exactly if they are over single draws. -/
theorem ways_eq_iff {draws : List α} (h : draws ≠ []) (v w : β) (k : Nat) :
    ways accept draws v (k + 1) = ways accept draws w (k + 1)
      ↔ hits accept draws v = hits accept draws w := by
  rw [ways_eq, ways_eq, Nat.mul_left_inj (Nat.ne_of_gt (weight_pos accept h k))]

/-! ## Remainders -/

theorem countP_mod {m v : Nat} (hv : v < m) (n : Nat) :
    (List.range n).countP (fun r => r % m = v) = n / m + if v < n % m then 1 else 0 := by
  have hcount := Nat.count_modEq_card n (Nat.zero_lt_of_lt hv) v
  rw [Nat.mod_eq_of_lt hv] at hcount
  rw [← hcount, Nat.count]
  refine List.countP_congr fun r _ => ?_
  simp [Nat.ModEq, Nat.mod_eq_of_lt hv]

end CommonCpp.Lib.Rejection
