import CommonCpp.Lib.Rejection
import CommonCpp.Number.RandomNum

/-!
# How fair `common::random_num` is

A remainder by `greatest + 1` is one of the smaller numbers more often unless
`greatest + 1` divides the number of values that `rand()` has. Rejecting what is below
`least` takes out the surplus where all of it is down there, and only there
(`fair_iff`).
-/

namespace CommonCpp.Number

open CommonCpp.Lib

variable {randMax : RandMax}

/-- How many values `rand()` has. -/
def RandMax.count (randMax : RandMax) : Nat := randMax.value.toInt.toNat + 1

/-- A value of `rand()` as a number. -/
def Draw.toNat (v : Draw randMax) : Nat := v.value.toInt.toNat

theorem ofNat_toInt {n : Nat} (h : n < randMax.count) : (Int32.ofNat n).toInt = n := by
  have hle := randMax.value.toInt_le
  rw [Int32.toInt_maxValue] at hle
  unfold RandMax.count at h
  exact Int32.toInt_ofNat_of_lt (by omega)

/-- The value of `rand()` that is this number. -/
def Draw.ofNat (n : Nat) (h : n < randMax.count) : Draw randMax where
  value := Int32.ofNat n
  nonneg := by
    rw [Int32.le_iff_toInt_le, ofNat_toInt h]
    exact Int.natCast_nonneg n
  le := by
    have hleast := Int32.le_iff_toInt_le.mp randMax.least
    rw [Int32.le_iff_toInt_le, ofNat_toInt h]
    unfold RandMax.count at h
    exact Int.le_trans (by omega) (Int.toNat_of_nonneg (Int.le_trans (by decide) hleast)).le

/-- All values of `rand()`, each once. -/
def Draw.all (randMax : RandMax) : List (Draw randMax) :=
  (List.range randMax.count).pmap Draw.ofNat fun _ h => List.mem_range.mp h

/-- Of the sequences of `k` values of `rand()`, those with which `random_num` returns `r`. -/
def ways (randMax : RandMax) (least greatest r : Int32) (k : Nat) : Nat :=
  (Rejection.sequences (Draw.all randMax) k).countP fun draws =>
    match randomNum least greatest draws with
    | .ok (some port) => port == r
    | _ => false

/-- What the loop makes of one value. -/
def accept (least top : Int32) (v : Draw randMax) : Option Int32 :=
  if v.value % top < least then none else some (v.value % top)

/-! ## Rejection -/

theorem redraw_eq {least top : Int32} (hpos : 0 < top.toInt) (draws : List (Draw randMax))
    (port : Int32) :
    redraw least top draws port
      = .ok (if port < least then draws.findSome? (accept least top) else some port) := by
  induction draws generalizing port with
  | nil => rw [redraw]; rfl
  | cons v draws ih =>
    rw [redraw]
    by_cases hlow : port < least
    · rw [if_pos hlow, if_pos hlow, remainder_ok v hpos, List.findSome?_cons]
      dsimp only
      rw [ih]
      unfold accept
      split <;> rfl
    · rw [if_neg hlow, if_neg hlow]

/-- `random_num` returns the first value that is accepted. -/
theorem randomNum_eq {least greatest top : Int32} (htop : increment greatest = .ok top)
    (hpos : 0 < top.toInt) (draws : List (Draw randMax)) :
    randomNum least greatest draws = .ok (draws.findSome? (accept least top)) := by
  rw [randomNum, htop]
  cases draws with
  | nil => rfl
  | cons v draws =>
    dsimp only
    rw [remainder_ok v hpos, List.findSome?_cons]
    dsimp only
    rw [redraw_eq hpos]
    unfold accept
    split <;> rfl

theorem ways_eq {least greatest top : Int32} (htop : increment greatest = .ok top)
    (hpos : 0 < top.toInt) (r : Int32) (k : Nat) :
    ways randMax least greatest r k
      = Rejection.ways (accept least top) (Draw.all randMax) r k := by
  unfold ways Rejection.ways
  refine List.countP_congr fun draws _ => ?_
  rw [randomNum_eq htop hpos]
  cases draws.findSome? (accept least top) <;> simp

/-! ## Single values -/

theorem map_all (randMax : RandMax) :
    (Draw.all randMax).map Draw.toNat = List.range randMax.count := by
  unfold Draw.all
  rw [List.map_pmap]
  have hsame : ∀ n (h : n < randMax.count), (Draw.ofNat n h).toNat = n := by
    intro n h
    show (Int32.ofNat n).toInt.toNat = n
    rw [ofNat_toInt h, Int.toNat_natCast]
  have hall : ∀ (ns : List Nat) (h : ∀ n ∈ ns, n < randMax.count),
      ns.pmap (fun n hn => (Draw.ofNat n hn).toNat) h = ns := by
    intro ns h
    induction ns with
    | nil => rfl
    | cons n ns ih => rw [List.pmap_cons, hsame, ih]
  exact hall _ _

/-- A value is accepted as a number of the range exactly if that is its remainder. -/
theorem accept_eq_some {least top r : Int32} (hpos : 0 < top.toInt) (hr : least ≤ r)
    (hr0 : 0 ≤ r.toInt) (v : Draw randMax) :
    accept least top v = some r ↔ v.toNat % top.toInt.toNat = r.toInt.toNat := by
  have hmod : (v.value % top).toInt = ((v.toNat % top.toInt.toNat : Nat) : Int) := by
    unfold Draw.toNat
    rw [toInt_draw, Int.natCast_emod, Int.toNat_of_nonneg (draw_nonneg v),
      Int.toNat_of_nonneg (Int.le_of_lt hpos)]
  have hval : v.value % top = r ↔ v.toNat % top.toInt.toNat = r.toInt.toNat := by
    rw [← Int32.toInt_inj, hmod]
    omega
  unfold accept
  rw [← hval, Option.ite_none_left_eq_some, Option.some.injEq]
  refine ⟨fun h => h.2, fun h => ⟨?_, h⟩⟩
  rw [h, Int32.lt_iff_toInt_lt]
  have := Int32.le_iff_toInt_le.mp hr
  omega

/-- How many values are accepted as a number of the range. -/
theorem hits_eq {least greatest top r : Int32} (htop : top.toInt = greatest.toInt + 1)
    (h0 : 0 ≤ least) (hr : least ≤ r) (hle : r ≤ greatest) :
    Rejection.hits (accept least top) (Draw.all randMax) r
      = randMax.count / top.toInt.toNat
        + if r.toInt.toNat < randMax.count % top.toInt.toNat then 1 else 0 := by
  have h0' := Int32.le_iff_toInt_le.mp h0
  have hr' := Int32.le_iff_toInt_le.mp hr
  have hle' := Int32.le_iff_toInt_le.mp hle
  rw [Int32.toInt_zero] at h0'
  have hlt : r.toInt.toNat < top.toInt.toNat := by omega
  rw [← Rejection.countP_mod hlt randMax.count, ← map_all, List.countP_map, Rejection.hits]
  refine List.countP_congr fun v _ => ?_
  simpa using accept_eq_some (by omega) hr (by omega) v

theorem one_more_iff (p q : Prop) [Decidable p] [Decidable q] :
    (if p then 1 else 0) = (if q then 1 else 0) ↔ (p ↔ q) := by
  by_cases hp : p
  · by_cases hq : q <;> simp [hp, hq]
  · by_cases hq : q <;> simp [hp, hq]

/-- **Fairness.** For every range in which the arithmetic is sound, every `RAND_MAX` and
every number of draws: among the sequences of draws with which `random_num` returns, all
numbers of the range are equally frequent if and only if there is only one, or what is
left of the values of `rand()` after dividing their number by `greatest + 1` is at most
`least`. -/
theorem fair_iff (randMax : RandMax) {least greatest : Int32} (h0 : 0 ≤ least)
    (h : least ≤ greatest) (hmax : greatest < Int32.maxValue) (k : Nat) :
    (∀ r r', least ≤ r → r ≤ greatest → least ≤ r' → r' ≤ greatest →
        ways randMax least greatest r (k + 1) = ways randMax least greatest r' (k + 1))
      ↔ least = greatest ∨
        randMax.count % (greatest.toInt.toNat + 1) ≤ least.toInt.toNat := by
  obtain ⟨htop, hval⟩ := increment_ok hmax
  have h0' := Int32.le_iff_toInt_le.mp h0
  have h' := Int32.le_iff_toInt_le.mp h
  rw [Int32.toInt_zero] at h0'
  have hpos : 0 < (greatest + 1).toInt := by omega
  have hnat : (greatest + 1).toInt.toNat = greatest.toInt.toNat + 1 := by omega
  have hne : Draw.all randMax ≠ [] := by
    intro he
    have hlen := congrArg List.length (map_all randMax)
    rw [he, List.length_map, List.length_range] at hlen
    exact absurd hlen (Nat.succ_ne_zero _).symm
  have hone : ∀ r r', least ≤ r → r ≤ greatest → least ≤ r' → r' ≤ greatest →
      (ways randMax least greatest r (k + 1) = ways randMax least greatest r' (k + 1) ↔
        (r.toInt.toNat < randMax.count % (greatest.toInt.toNat + 1) ↔
          r'.toInt.toNat < randMax.count % (greatest.toInt.toNat + 1))) := by
    intro r r' hr hrg hr' hrg'
    rw [ways_eq htop hpos, ways_eq htop hpos, Rejection.ways_eq_iff _ hne,
      hits_eq hval h0 hr hrg, hits_eq hval h0 hr' hrg', hnat, Nat.add_left_cancel_iff,
      one_more_iff]
  have hrest : randMax.count % (greatest.toInt.toNat + 1) < greatest.toInt.toNat + 1 :=
    Nat.mod_lt _ (Nat.succ_pos _)
  constructor
  · intro hall
    -- the two ends of the range differ if anything does
    have hends := (hone least greatest (Int32.le_refl _) h h (Int32.le_refl _)).mp
      (hall least greatest (Int32.le_refl _) h h (Int32.le_refl _))
    rw [← Int32.toInt_inj]
    omega
  · rintro hsame r r' hr hrg hr' hrg'
    refine (hone r r' hr hrg hr' hrg').mpr ?_
    rw [Int32.le_iff_toInt_le] at hr hrg hr' hrg'
    rw [← Int32.toInt_inj] at hsame
    omega

/-- `random_num(2, 4)` with draws of 15 bits: their number is 3 more than a multiple of 5. -/
theorem fair_iff_small :
    (∀ r r', (2 : Int32) ≤ r → r ≤ 4 → (2 : Int32) ≤ r' → r' ≤ 4 →
        ways ⟨32767, by decide⟩ 2 4 r (0 + 1) = ways ⟨32767, by decide⟩ 2 4 r' (0 + 1))
      ↔ (2 : Int32) = 4 ∨
        RandMax.count ⟨32767, by decide⟩ % ((4 : Int32).toInt.toNat + 1)
          ≤ (2 : Int32).toInt.toNat :=
  fair_iff ⟨32767, by decide⟩ (by decide) (by decide) (by decide) 0

end CommonCpp.Number
