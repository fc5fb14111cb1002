import Mathlib.Data.List.Forall2
import Mathlib.Algebra.Ring.Nat

/-!
# Lists of pairs in one string

Pairs are written `key = value` and joined by `&`, with any two symbols in the
place of the delimiters and nothing escaped. A reader splits at every `&` and
cuts each segment at its first `=`. Where no value contains a `&` it reads back
what was written exactly if no key contains either delimiter
(`unframe_frame_iff`): a `=` in a key moves the cut, and any surplus `&` makes
the number of segments wrong, whatever the segments are.
-/

namespace CommonCpp.Lib.Pairs

variable {α : Type}

/-- The segment of one pair. -/
def segment (eq : α) (p : List α × List α) : List α := p.1 ++ eq :: p.2

/-- The segments of a list of pairs, joined. -/
def frame (amp eq : α) (ps : List (List α × List α)) : List α :=
  [amp].intercalate (ps.map (segment eq))

/-- Every pair but the first has a `&` in front of it. -/
theorem frame_cons {amp eq : α} (p : List α × List α) (ps : List (List α × List α)) :
    frame amp eq (p :: ps) = segment eq p ++ ps.flatMap fun q => amp :: segment eq q := by
  induction ps generalizing p with
  | nil => simp [frame]
  | cons q ps ih =>
    have hq := ih q
    unfold frame at hq ⊢
    rw [List.map_cons] at hq
    rw [List.map_cons, List.map_cons, List.intercalate_cons_cons, hq, List.flatMap_cons]
    simp

variable [DecidableEq α]

/-- Cut a segment at its first delimiter. -/
def cutFirst (eq : α) : List α → Option (List α × List α)
  | [] => none
  | c :: rest =>
    if c = eq then some ([], rest) else (cutFirst eq rest).map fun (k, v) => (c :: k, v)

/-- Read the pairs back. -/
def unframe (amp eq : α) (s : List α) : Option (List (List α × List α)) :=
  (s.splitOn amp).mapM (cutFirst eq)

variable {amp eq : α}

/-! ## One segment -/

theorem cutFirst_segment {p : List α × List α} (h : eq ∉ p.1) :
    cutFirst eq (segment eq p) = some p := by
  obtain ⟨k, v⟩ := p
  induction k with
  | nil => simp [segment, cutFirst]
  | cons c k ih =>
    have hc : c ≠ eq := fun he => h (by rw [he]; exact List.mem_cons_self ..)
    have hk := ih fun hm => h (List.mem_cons_of_mem _ hm)
    rw [segment] at hk
    rw [segment, List.cons_append, cutFirst, if_neg hc, hk]
    rfl

/-- What is cut is the segment of the pair. -/
theorem segment_of_cutFirst {s : List α} {p : List α × List α} (h : cutFirst eq s = some p) :
    s = segment eq p := by
  induction s generalizing p with
  | nil => cases h
  | cons c s ih =>
    unfold cutFirst at h
    split at h
    · next hc =>
      cases h
      rw [hc]
      rfl
    · obtain ⟨q, hq, rfl⟩ := Option.map_eq_some_iff.mp h
      rw [ih hq]
      rfl

/-- A key that was read has no `=` in it. -/
theorem not_mem_of_cutFirst {s : List α} {p : List α × List α} (h : cutFirst eq s = some p) :
    eq ∉ p.1 := by
  induction s generalizing p with
  | nil => cases h
  | cons c s ih =>
    unfold cutFirst at h
    split at h
    · cases h
      exact List.not_mem_nil
    · next hc =>
      obtain ⟨q, hq, rfl⟩ := Option.map_eq_some_iff.mp h
      intro hm
      rcases List.mem_cons.mp hm with he | hm
      · exact hc he.symm
      · exact ih hq hm

/-! ## Counting delimiters -/

theorem length_splitOn (s : List α) : (s.splitOn amp).length = s.count amp + 1 := by
  induction s with
  | nil => rfl
  | cons c s ih =>
    rw [List.splitOn_cons_eq_if_modifyHead, List.count_cons]
    split
    · rw [List.length_cons, ih]
    · rw [List.length_modifyHead, ih, Nat.add_zero]

theorem count_intercalate {ss : List (List α)} (h : ss ≠ []) :
    ([amp].intercalate ss).count amp + 1 = ss.length + (ss.map (List.count amp)).sum := by
  induction ss with
  | nil => exact absurd rfl h
  | cons s ss ih =>
    cases ss with
    | nil =>
      simp only [List.intercalate_singleton, List.map_cons, List.map_nil, List.sum_cons,
        List.sum_nil, List.length_singleton]
      omega
    | cons s' ss =>
      have hrest := ih (by simp)
      rw [List.intercalate_cons_cons, List.map_cons, List.sum_cons, List.count_append,
        List.count_append, List.length_cons]
      have hsep : [amp].count amp = 1 := List.count_singleton_self
      omega

/-! ## The list -/

/-- `mapM` succeeds with the results that belong to the elements one by one. -/
theorem mapM_eq_some_iff {β γ : Type} {f : β → Option γ} {xs : List β} {ys : List γ} :
    xs.mapM f = some ys ↔ List.Forall₂ (fun x y => f x = some y) xs ys := by
  induction xs generalizing ys with
  | nil =>
    rw [List.mapM_nil, List.forall₂_nil_left_iff]
    constructor
    · intro h
      cases h
      rfl
    · intro h
      rw [h]
      rfl
  | cons x xs ih =>
    rw [List.mapM_cons, List.forall₂_cons_left_iff]
    constructor
    · intro h
      obtain ⟨y, hy, h⟩ := Option.bind_eq_some_iff.mp h
      obtain ⟨zs, hzs, h⟩ := Option.bind_eq_some_iff.mp h
      cases h
      exact ⟨y, zs, hy, ih.mp hzs, rfl⟩
    · intro h
      obtain ⟨y, zs, hy, hzs, rfl⟩ := h
      rw [hy, ih.mpr hzs]
      rfl

theorem exists_of_mem_right {β γ : Type} {R : β → γ → Prop} {xs : List β} {ys : List γ} {y : γ}
    (h : List.Forall₂ R xs ys) (hy : y ∈ ys) : ∃ x ∈ xs, R x y := by
  induction h with
  | nil => cases hy
  | cons hxy _ ih =>
    rcases List.mem_cons.mp hy with rfl | hy
    · exact ⟨_, List.mem_cons_self .., hxy⟩
    · obtain ⟨x, hx, hxy⟩ := ih hy
      exact ⟨x, List.mem_cons_of_mem _ hx, hxy⟩

theorem segment_count (p : List α × List α) (hdelim : amp ≠ eq) :
    (segment eq p).count amp = p.1.count amp + p.2.count amp := by
  rw [segment, List.count_append, List.count_cons_of_ne hdelim.symm]

/-- **Exact framing.** Where no value contains a `&`, the reader gets back what
was written if and only if no key contains a `&` or a `=`. -/
theorem unframe_frame_iff {ps : List (List α × List α)} (hne : ps ≠ [])
    (hdelim : amp ≠ eq) (hv : ∀ p ∈ ps, amp ∉ p.2) :
    unframe amp eq (frame amp eq ps) = some ps ↔ ∀ p ∈ ps, amp ∉ p.1 ∧ eq ∉ p.1 := by
  have hne' : ps.map (segment eq) ≠ [] := by simpa using hne
  constructor
  · intro h
    have hall := mapM_eq_some_iff.mp h
    -- as many segments as pairs, so no `&` but the joining ones
    have hlen := hall.length_eq
    rw [length_splitOn, frame, count_intercalate hne', List.length_map] at hlen
    have hzero : ((ps.map (segment eq)).map (List.count amp)).sum = 0 := by omega
    intro p hp
    constructor
    · have hcount : (segment eq p).count amp = 0 :=
        List.sum_eq_zero_iff_forall_eq_nat.mp hzero _ (List.mem_map_of_mem (List.mem_map_of_mem hp))
      rw [segment_count p hdelim] at hcount
      exact List.count_eq_zero.mp (by omega)
    · obtain ⟨s, -, hs⟩ := exists_of_mem_right hall hp
      exact not_mem_of_cutFirst hs
  · intro h
    have hfree : ∀ s ∈ ps.map (segment eq), amp ∉ s := by
      intro s hs
      obtain ⟨p, hp, rfl⟩ := List.mem_map.mp hs
      have hcount := segment_count p hdelim
      rw [List.count_eq_zero.mpr (h p hp).1, List.count_eq_zero.mpr (hv p hp)] at hcount
      exact List.count_eq_zero.mp hcount
    rw [unframe, frame, List.splitOn_intercalate amp hfree hne', mapM_eq_some_iff,
      List.forall₂_map_left_iff, List.forall₂_same]
    exact fun p hp => cutFirst_segment (h p hp).2

end CommonCpp.Lib.Pairs
