import CommonCpp.Lib.Exit

/-!
# `common::random_num`

A number of a range by rejection: `rand() % (++greatest)` is drawn until it is at
least `least`. The sign of a C++ remainder is that of the dividend, so what is
drawn is never negative, whatever the divisor is (`draw_mod_nonneg`), and the
loop tests nothing else than the lower end.

`srand(time(0))` decides which values `rand()` yields: here it is any sequence of
them, in the order of the calls.
-/

namespace CommonCpp.Number

open CommonCpp.Lib

/-- A `RAND_MAX` that the standard allows. -/
structure RandMax where
  value : Int32
  least : 32767 ≤ value

/-- A value of `rand()`. -/
structure Draw (randMax : RandMax) where
  value : Int32
  nonneg : 0 ≤ value
  le : value ≤ randMax.value

variable {randMax : RandMax}

/-- `++n` -/
def increment (n : Int32) : Except Fault Int32 :=
  if n = Int32.maxValue then .error .overflow else .ok (n + 1)

/-- `rand() % n` -/
def remainder (v : Draw randMax) (n : Int32) : Except Fault Int32 :=
  if n = 0 then .error .divisionByZero else .ok (v.value % n)

/-- `while (port < least)`; `none` where one more value of `rand()` is needed. -/
def redraw (least greatest : Int32) : List (Draw randMax) → Int32 → Except Fault (Option Int32)
  | [], port => .ok (if port < least then none else some port)
  | v :: draws, port =>
    if port < least then
      match remainder v greatest with
      | .ok port => redraw least greatest draws port
      | .error fault => .error fault
    else .ok (some port)

/-- `random_num`, as far as the values of `rand()` take it. -/
def randomNum (least greatest : Int32) (draws : List (Draw randMax)) :
    Except Fault (Option Int32) :=
  match increment greatest with
  | .error fault => .error fault
  | .ok greatest =>
    match draws with
    | [] => .ok none
    | v :: draws =>
      match remainder v greatest with
      | .ok port => redraw least greatest draws port
      | .error fault => .error fault

/-! ## One draw -/

theorem increment_ok {n : Int32} (h : n < Int32.maxValue) :
    increment n = .ok (n + 1) ∧ (n + 1).toInt = n.toInt + 1 := by
  have hlt := Int32.lt_iff_toInt_lt.mp h
  have hge := n.le_toInt
  rw [Int32.toInt_maxValue] at hlt
  refine ⟨if_neg fun he => ?_, ?_⟩
  · rw [he, Int32.toInt_maxValue] at hlt
    omega
  · rw [Int32.toInt_add, Int32.toInt_one]
    exact Int.bmod_eq_of_le (by omega) (by omega)

theorem draw_nonneg (v : Draw randMax) : 0 ≤ v.value.toInt := Int32.le_iff_toInt_le.mp v.nonneg

/-- The remainder takes the sign of the draw, which has none. -/
theorem toInt_draw (v : Draw randMax) (n : Int32) :
    (v.value % n).toInt = v.value.toInt % n.toInt := by
  rw [Int32.toInt_mod, Int.tmod_eq_emod_of_nonneg (draw_nonneg v)]

theorem draw_mod_nonneg (v : Draw randMax) {n : Int32} (hn : n ≠ 0) : 0 ≤ (v.value % n).toInt := by
  rw [toInt_draw]
  exact Int.emod_nonneg _ fun he => hn (Int32.toInt_inj.mp he)

theorem draw_mod_lt (v : Draw randMax) {n : Int32} (hn : 0 < n.toInt) :
    (v.value % n).toInt < n.toInt := by
  rw [toInt_draw]
  exact Int.emod_lt_of_pos _ hn

theorem remainder_ok (v : Draw randMax) {n : Int32} (hn : 0 < n.toInt) :
    remainder v n = .ok (v.value % n) := by
  refine if_neg ?_
  rintro rfl
  exact absurd hn (by decide)

/-- `rand()` may return 0. -/
def Draw.zero : Draw randMax where
  value := 0
  nonneg := by decide
  le := by
    have hle := Int32.le_iff_toInt_le.mp randMax.least
    exact Int32.le_iff_toInt_le.mpr (Int.le_trans (by decide) hle)

/-! ## The range -/

/-- No fault, and a result lies in the range. -/
def InRange (least greatest : Int32) : Except Fault (Option Int32) → Prop
  | .error _ => False
  | .ok none => True
  | .ok (some r) => least ≤ r ∧ r ≤ greatest

theorem redraw_inRange {least greatest top : Int32} (hpos : 0 < top.toInt)
    (htop : top.toInt = greatest.toInt + 1) (draws : List (Draw randMax)) {port : Int32}
    (hport : port.toInt < top.toInt) : InRange least greatest (redraw least top draws port) := by
  have hstop : ∀ r : Int32, r.toInt < top.toInt → ¬ r < least → least ≤ r ∧ r ≤ greatest := by
    intro r hr
    rw [Int32.lt_iff_toInt_lt, Int32.le_iff_toInt_le, Int32.le_iff_toInt_le]
    omega
  induction draws generalizing port with
  | nil =>
    rw [redraw]
    split
    next => exact trivial
    next hge => exact hstop port hport hge
  | cons v draws ih =>
    rw [redraw]
    split
    next =>
      rw [remainder_ok v hpos]
      exact ih (draw_mod_lt v hpos)
    next hge => exact hstop port hport hge

theorem randomNum_inRange {least greatest : Int32} (h0 : 0 ≤ greatest.toInt)
    (hlt : greatest < Int32.maxValue) (draws : List (Draw randMax)) :
    InRange least greatest (randomNum least greatest draws) := by
  obtain ⟨htop, hval⟩ := increment_ok hlt
  have hpos : 0 < (greatest + 1).toInt := by omega
  rw [randomNum, htop]
  dsimp only
  cases draws with
  | nil => exact trivial
  | cons v draws =>
    dsimp only
    rw [remainder_ok v hpos]
    exact redraw_inRange hpos hval draws (draw_mod_lt v hpos)

/-- The increment overflows before anything is drawn. -/
theorem lt_maxValue_of_inRange {least greatest : Int32}
    (h : InRange least greatest (randomNum least greatest ([] : List (Draw randMax)))) :
    greatest < Int32.maxValue := by
  by_contra hge
  have hle := greatest.toInt_le
  rw [Int32.lt_iff_toInt_lt] at hge
  have hmax : greatest = Int32.maxValue := Int32.toInt_inj.mp (by omega)
  rw [randomNum, increment, if_pos hmax] at h
  exact h

/-- What is drawn is not below 0, so a range that is has nothing of it. -/
theorem nonneg_of_inRange {least greatest : Int32} (hle : least.toInt ≤ greatest.toInt)
    (hlt : greatest < Int32.maxValue)
    (h : InRange least greatest (randomNum least greatest [(.zero : Draw randMax)])) :
    0 ≤ greatest.toInt := by
  by_contra hneg
  obtain ⟨htop, hval⟩ := increment_ok hlt
  rw [randomNum, htop] at h
  dsimp only at h
  by_cases hzero : greatest + 1 = 0
  · rw [remainder, if_pos hzero] at h
    exact h
  · have hr := @draw_mod_nonneg randMax .zero _ hzero
    rw [remainder, if_neg hzero] at h
    dsimp only at h
    rw [redraw, if_neg (by rw [Int32.lt_iff_toInt_lt]; omega)] at h
    have hrange := Int32.le_iff_toInt_le.mp h.2
    omega

/-- **When the result is in the range.** For every range and every sequence of values
of `rand()`: `random_num` runs into no fault and returns nothing out of the range if and only if
the upper bound is not negative and not the largest `int`. -/
theorem inRange_iff {least greatest : Int32} (h : least ≤ greatest) :
    (∀ draws : List (Draw randMax), InRange least greatest (randomNum least greatest draws))
      ↔ 0 ≤ greatest ∧ greatest < Int32.maxValue := by
  rw [Int32.le_iff_toInt_le] at h
  rw [Int32.le_iff_toInt_le, Int32.toInt_zero]
  constructor
  · intro hall
    have hlt := lt_maxValue_of_inRange (hall [])
    exact ⟨nonneg_of_inRange h hlt (hall [.zero]), hlt⟩
  · rintro ⟨h0, hlt⟩ draws
    exact randomNum_inRange h0 hlt draws

/-- `random_num(2, 4)` -/
theorem inRange_iff_small :
    (∀ draws : List (Draw ⟨32767, by decide⟩), InRange 2 4 (randomNum 2 4 draws))
      ↔ (0 : Int32) ≤ 4 ∧ (4 : Int32) < Int32.maxValue :=
  inRange_iff (by decide)

/-- Up to the largest `int`: the increment overflows. -/
theorem out_of_range : ¬ ∀ draws : List (Draw ⟨32767, by decide⟩),
    InRange 0 Int32.maxValue (randomNum 0 Int32.maxValue draws) :=
  fun h => h []

/-! ## The way out -/

/-- Some value of `rand()` is accepted, and wherever the loop stands one ends it. -/
def CanEnd (randMax : RandMax) (least greatest : Int32) : Prop :=
  (∃ v : Draw randMax, least ≤ v.value % (greatest + 1))
    ∧ ∀ draws : List (Draw randMax), randomNum least greatest draws = .ok none →
      ∃ v r, randomNum least greatest (draws ++ [v]) = .ok (some r)

/-- No remainder is larger than what was drawn. -/
theorem le_randMax {least n : Int32} (v : Draw randMax) (hn : 0 < n.toInt)
    (hv : least ≤ v.value % n) : least ≤ randMax.value := by
  have hle := Int32.le_iff_toInt_le.mp v.le
  have hlt := draw_mod_lt v hn
  rw [Int32.le_iff_toInt_le] at hv ⊢
  rcases Int.lt_or_le v.value.toInt n.toInt with hsmall | hlarge
  · rw [toInt_draw, Int.emod_eq_of_lt (draw_nonneg v) hsmall] at hv
    omega
  · omega

/-- A number of the range is its own remainder. -/
theorem mod_of_range {v : Draw randMax} {n : Int32} (h : v.value.toInt < n.toInt) :
    v.value % n = v.value := by
  rw [← Int32.toInt_inj, toInt_draw]
  exact Int.emod_eq_of_lt (draw_nonneg v) h

theorem redraw_accepted {least port : Int32} (top : Int32) (h : least ≤ port) :
    redraw least top ([] : List (Draw randMax)) port = .ok (some port) := by
  have hstop : ¬ port < least := by
    rw [Int32.lt_iff_toInt_lt]
    rw [Int32.le_iff_toInt_le] at h
    omega
  rw [redraw, if_neg hstop]

/-- The next value of `rand()` decides a loop that waits for one. -/
theorem redraw_concat {least top : Int32} (hpos : 0 < top.toInt) {draws : List (Draw randMax)}
    {port : Int32} (hwait : redraw least top draws port = .ok none) {v : Draw randMax}
    (hv : least ≤ v.value % top) :
    redraw least top (draws ++ [v]) port = .ok (some (v.value % top)) := by
  induction draws generalizing port with
  | nil =>
    rw [redraw] at hwait
    split at hwait
    next hlt =>
      rw [List.nil_append, redraw, if_pos hlt, remainder_ok v hpos]
      exact redraw_accepted top hv
    next => cases hwait
  | cons w draws ih =>
    rw [redraw] at hwait
    split at hwait
    next hlt =>
      rw [remainder_ok w hpos] at hwait
      rw [List.cons_append, redraw, if_pos hlt, remainder_ok w hpos]
      exact ih hwait
    next => cases hwait

theorem randomNum_concat {least greatest top : Int32} (htop : increment greatest = .ok top)
    (hpos : 0 < top.toInt) {draws : List (Draw randMax)}
    (hwait : randomNum least greatest draws = .ok none) {v : Draw randMax}
    (hv : least ≤ v.value % top) :
    randomNum least greatest (draws ++ [v]) = .ok (some (v.value % top)) := by
  rw [randomNum, htop] at hwait ⊢
  cases draws with
  | nil =>
    rw [List.nil_append]
    dsimp only
    rw [remainder_ok v hpos]
    exact redraw_accepted top hv
  | cons w draws =>
    rw [List.cons_append]
    dsimp only at hwait ⊢
    rw [remainder_ok w hpos] at hwait ⊢
    exact redraw_concat hpos hwait hv

/-- **When there is a way out.** For every range in which the arithmetic is sound and
every `RAND_MAX`: some value of `rand()` is accepted, wherever the loop stands, if and only if
`rand()` reaches the lower bound at all. -/
theorem canEnd_iff (randMax : RandMax) {least greatest : Int32} (h0 : 0 ≤ least)
    (h : least ≤ greatest) (hmax : greatest < Int32.maxValue) :
    CanEnd randMax least greatest ↔ least ≤ randMax.value := by
  obtain ⟨htop, hval⟩ := increment_ok hmax
  have h0' := Int32.le_iff_toInt_le.mp h0
  have h' := Int32.le_iff_toInt_le.mp h
  rw [Int32.toInt_zero] at h0'
  have hpos : 0 < (greatest + 1).toInt := by omega
  constructor
  · rintro ⟨⟨v, hv⟩, -⟩
    exact le_randMax v hpos hv
  · intro hle
    -- `least` itself is drawn
    let v : Draw randMax := ⟨least, h0, hle⟩
    have hlt : v.value.toInt < (greatest + 1).toInt := by
      show least.toInt < (greatest + 1).toInt
      omega
    have hacc : least ≤ v.value % (greatest + 1) := by
      rw [mod_of_range hlt]
      exact Int32.le_refl least
    exact ⟨⟨v, hacc⟩, fun draws hwait => ⟨v, _, randomNum_concat htop hpos hwait hacc⟩⟩

/-- `random_num(2, 4)` -/
theorem canEnd_iff_small : CanEnd ⟨32767, by decide⟩ 2 4 ↔ (2 : Int32) ≤ 32767 :=
  canEnd_iff ⟨32767, by decide⟩ (by decide) (by decide) (by decide)

/-- No draw of 15 bits is a number from 40000 on. -/
theorem cannot_end : ¬ CanEnd ⟨32767, by decide⟩ 40000 50000 := by
  rintro ⟨⟨v, hv⟩, -⟩
  have hle : (40000 : Int32) ≤ 32767 := le_randMax v (by decide) hv
  exact absurd hle (by decide)

end CommonCpp.Number
