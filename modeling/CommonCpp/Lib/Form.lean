import CommonCpp.Lib.Pairs
import CommonCpp.Lib.Percent

/-!
# Reading a form

What a server makes of `application/x-www-form-urlencoded`: pairs between `&`, cut at
their first `=`, and in both halves a `+` is a blank and `%XX` a byte.

A writer that puts pairs into `Lib.Pairs.frame` and has no `&` in the values is read
back exactly if each key is one that stands for itself and each value decodes to what
it should (`read_frame_iff`). A key cannot be read back by accident: every `&` in it
makes a segment too many, and what is in front of a `=` is too short to decode to it.
-/

namespace CommonCpp.Lib.Form

open Percent

/-- A `+` stands for a blank. -/
def unplus (s : Bytes) : Bytes := s.map fun c => if c = 0x2B then 0x20 else c

/-- One half of a pair. -/
def decodeHalf (s : Bytes) : Option Bytes := decode (unplus s)

def decodePair (p : Bytes × Bytes) : Option (Bytes × Bytes) :=
  (decodeHalf p.1).bind fun k => (decodeHalf p.2).map fun v => (k, v)

/-- The pairs of a form. -/
def read (s : Bytes) : Option (List (Bytes × Bytes)) :=
  (Pairs.unframe 0x26 0x3D s).bind fun ps => ps.mapM decodePair

/-- A key that needs no code. -/
def Plain (key : Bytes) : Prop := ∀ c ∈ key, c ≠ 0x26 ∧ c ≠ 0x3D ∧ c ≠ percent ∧ c ≠ 0x2B

/-! ## One half -/

theorem unplus_eq_self_iff {s : Bytes} : unplus s = s ↔ 0x2B ∉ s := by
  constructor
  · intro h hm
    have hcount := congrArg (List.count 0x2B) h
    have hzero : (unplus s).count 0x2B = 0 := by
      refine List.count_eq_zero.mpr fun hmem => ?_
      obtain ⟨c, -, hc⟩ := List.mem_map.mp hmem
      split at hc
      · cases hc
      · next hne => exact hne hc
    rw [hzero] at hcount
    exact List.count_eq_zero.mp hcount.symm hm
  · intro h
    refine (List.map_congr_left fun c hc => ?_).trans (List.map_id _)
    refine if_neg fun he => h ?_
    rwa [← he]

/-- Nothing decodes to more than it is. -/
theorem length_le_of_decodeHalf {e s : Bytes} (h : decodeHalf e = some s) :
    s.length ≤ e.length := by
  have hlen := length_of_decode h
  rw [unplus, List.length_map] at hlen
  omega

theorem decode_of_no_percent {s : Bytes} (h : percent ∉ s) : decode s = some s := by
  induction s with
  | nil => rfl
  | cons c s ih =>
    rw [List.mem_cons, not_or] at h
    rw [decode_plain (Ne.symm h.1), ih h.2]
    rfl

/-- A text decodes to itself exactly if there is nothing in it to decode. -/
theorem decodeHalf_self_iff {s : Bytes} : decodeHalf s = some s ↔ percent ∉ s ∧ 0x2B ∉ s := by
  constructor
  · intro h
    have hlen := length_of_decode h
    rw [unplus, List.length_map] at hlen
    have hnone : percent ∉ unplus s := List.count_eq_zero.mp (by unfold unplus; omega)
    have hself := Option.some.inj ((decode_of_no_percent hnone).symm.trans h)
    exact ⟨hself ▸ hnone, unplus_eq_self_iff.mp hself⟩
  · rintro ⟨hpercent, hplus⟩
    unfold decodeHalf
    rw [unplus_eq_self_iff.mpr hplus]
    exact decode_of_no_percent hpercent

theorem plain_iff {key : Bytes} :
    Plain key ↔ 0x26 ∉ key ∧ 0x3D ∉ key ∧ decodeHalf key = some key := by
  rw [decodeHalf_self_iff]
  constructor
  · intro h
    exact ⟨fun hm => (h _ hm).1 rfl, fun hm => (h _ hm).2.1 rfl, fun hm => (h _ hm).2.2.1 rfl,
      fun hm => (h _ hm).2.2.2 rfl⟩
  · rintro ⟨hamp, heq, hpercent, hplus⟩ c hc
    refine ⟨?_, ?_, ?_, ?_⟩
    all_goals
      rintro rfl
      contradiction

theorem decodePair_eq_some {p g : Bytes × Bytes} :
    decodePair p = some g ↔ decodeHalf p.1 = some g.1 ∧ decodeHalf p.2 = some g.2 := by
  unfold decodePair
  rw [Option.bind_eq_some_iff]
  constructor
  · rintro ⟨k, hk, h⟩
    obtain ⟨v, hv, rfl⟩ := Option.map_eq_some_iff.mp h
    exact ⟨hk, hv⟩
  · rintro ⟨hk, hv⟩
    exact ⟨g.1, hk, by rw [hv]; rfl⟩

/-! ## The segments -/

/-- What is in front of the first `=` of a segment. -/
theorem length_cutFirst {k v : Bytes} {q : Bytes × Bytes} (hmem : 0x3D ∈ k)
    (h : Pairs.cutFirst 0x3D (Pairs.segment 0x3D (k, v)) = some q) : q.1.length < k.length := by
  induction k generalizing q with
  | nil => cases hmem
  | cons c k ih =>
    rw [Pairs.segment, List.cons_append, Pairs.cutFirst] at h
    split at h
    · cases h
      exact Nat.succ_pos _
    · next hc =>
      obtain ⟨q', hq', rfl⟩ := Option.map_eq_some_iff.mp h
      rcases List.mem_cons.mp hmem with he | hmem
      · exact absurd he.symm hc
      · exact Nat.succ_lt_succ (ih hmem hq')

/-- A pair that is read as one with its key was read as it stands. -/
theorem cut_decode_iff {p g : Bytes × Bytes} (hkey : p.1 = g.1) :
    (∃ q, Pairs.cutFirst 0x3D (Pairs.segment 0x3D p) = some q ∧ decodePair q = some g) ↔
      0x3D ∉ p.1 ∧ decodeHalf p.1 = some p.1 ∧ decodeHalf p.2 = some g.2 := by
  constructor
  · rintro ⟨q, hcut, hdecode⟩
    have hfree : 0x3D ∉ p.1 := by
      intro hmem
      have hshort := length_cutFirst hmem hcut
      have hlong := length_le_of_decodeHalf (decodePair_eq_some.mp hdecode).1
      rw [← hkey] at hlong
      omega
    cases (Pairs.cutFirst_segment hfree).symm.trans hcut
    rw [decodePair_eq_some, ← hkey] at hdecode
    exact ⟨hfree, hdecode⟩
  · rintro ⟨hfree, hk, hv⟩
    exact ⟨p, Pairs.cutFirst_segment hfree, decodePair_eq_some.mpr ⟨hkey ▸ hk, hv⟩⟩

/-- Two steps on each element. -/
theorem mapM_comp_eq_some {α β γ : Type} {f : α → Option β} {g : β → Option γ} {xs : List α}
    {zs : List γ} : ((xs.mapM f).bind fun ys => ys.mapM g) = some zs ↔
      List.Forall₂ (fun x z => ∃ y, f x = some y ∧ g y = some z) xs zs := by
  rw [Option.bind_eq_some_iff]
  constructor
  · rintro ⟨ys, hys, hzs⟩
    rw [Pairs.mapM_eq_some_iff] at hys hzs
    induction hys generalizing zs with
    | nil =>
      cases hzs
      exact .nil
    | cons hxy _ ih =>
      cases hzs with
      | cons hyz hzs => exact .cons ⟨_, hxy, hyz⟩ (ih hzs)
  · intro h
    induction h with
    | nil => exact ⟨[], rfl, rfl⟩
    | cons hxz _ ih =>
      obtain ⟨y, hxy, hyz⟩ := hxz
      obtain ⟨ys, hys, hzs⟩ := ih
      rw [Pairs.mapM_eq_some_iff] at hys hzs
      exact ⟨y :: ys, Pairs.mapM_eq_some_iff.mpr (.cons hxy hys),
        Pairs.mapM_eq_some_iff.mpr (.cons hyz hzs)⟩

/-- Relations that agree where a third holds. -/
theorem forall₂_congr_of {α β : Type} {R P Q : α → β → Prop} {xs : List α} {ys : List β}
    (h : List.Forall₂ R xs ys) (hiff : ∀ x y, R x y → (P x y ↔ Q x y)) :
    List.Forall₂ P xs ys ↔ List.Forall₂ Q xs ys := by
  induction h with
  | nil => exact iff_of_true .nil .nil
  | cons hxy _ ih => rw [List.forall₂_cons, List.forall₂_cons, hiff _ _ hxy, ih]

/-- As many segments as pairs, and no key has a `&`. -/
theorem amp_free_of_length {ps : List (Bytes × Bytes)} (hne : ps ≠ [])
    (h : ((Pairs.frame 0x26 0x3D ps).splitOn 0x26).length = ps.length) :
    ∀ s ∈ ps.map (Pairs.segment (0x3D : UInt8)), 0x26 ∉ s := by
  have hne' : ps.map (Pairs.segment (0x3D : UInt8)) ≠ [] :=
    fun he => hne (List.map_eq_nil_iff.mp he)
  rw [Pairs.length_splitOn, Pairs.frame, Pairs.count_intercalate hne', List.length_map] at h
  have hzero : ((ps.map (Pairs.segment (0x3D : UInt8))).map (List.count 0x26)).sum = 0 := by omega
  intro s hs
  exact List.count_eq_zero.mp
    (List.sum_eq_zero_iff_forall_eq_nat.mp hzero _ (List.mem_map_of_mem hs))

theorem splitOn_frame {ps : List (Bytes × Bytes)} (hne : ps ≠ [])
    (h : ∀ s ∈ ps.map (Pairs.segment (0x3D : UInt8)), 0x26 ∉ s) :
    (Pairs.frame 0x26 0x3D ps).splitOn 0x26 = ps.map (Pairs.segment 0x3D) :=
  List.splitOn_intercalate 0x26 h fun he => hne (List.map_eq_nil_iff.mp he)

/-- **Reading back.** Pairs are read as what they stand for, with the keys they have,
exactly if every key is plain and every value decodes to what it stands for. -/
theorem read_frame_iff {ps given : List (Bytes × Bytes)} (hne : ps ≠ [])
    (hkeys : List.Forall₂ (fun p g => p.1 = g.1) ps given) (hamp : ∀ p ∈ ps, 0x26 ∉ p.2) :
    read (Pairs.frame 0x26 0x3D ps) = some given ↔
      List.Forall₂ (fun p g => Plain p.1 ∧ decodeHalf p.2 = some g.2) ps given := by
  have hread : (∀ p ∈ ps, 0x26 ∉ p.1) →
      (read (Pairs.frame 0x26 0x3D ps) = some given ↔
        List.Forall₂ (fun p g => 0x3D ∉ p.1 ∧ decodeHalf p.1 = some p.1 ∧
          decodeHalf p.2 = some g.2) ps given) := by
    intro hfree
    have hsegments : ∀ s ∈ ps.map (Pairs.segment (0x3D : UInt8)), 0x26 ∉ s := by
      intro s hs
      obtain ⟨p, hp, rfl⟩ := List.mem_map.mp hs
      have hcount := Pairs.segment_count p (by decide : (0x26 : UInt8) ≠ 0x3D)
      rw [List.count_eq_zero.mpr (hfree p hp), List.count_eq_zero.mpr (hamp p hp)] at hcount
      exact List.count_eq_zero.mp hcount
    unfold read Pairs.unframe
    rw [splitOn_frame hne hsegments, mapM_comp_eq_some, List.forall₂_map_left_iff]
    exact forall₂_congr_of hkeys fun _ _ hkey => cut_decode_iff hkey
  have hplain : List.Forall₂ (fun p g => Plain p.1 ∧ decodeHalf p.2 = some g.2) ps given ↔
      (∀ p ∈ ps, 0x26 ∉ p.1) ∧ List.Forall₂ (fun p g => 0x3D ∉ p.1 ∧
        decodeHalf p.1 = some p.1 ∧ decodeHalf p.2 = some g.2) ps given := by
    rw [← List.forall₂_and_left]
    refine forall₂_congr_of hkeys fun p g _ => ?_
    rw [plain_iff, and_assoc, and_assoc]
  rw [hplain]
  constructor
  · intro h
    have hlen := (mapM_comp_eq_some.mp h).length_eq
    rw [← hkeys.length_eq] at hlen
    have hfree : ∀ p ∈ ps, 0x26 ∉ p.1 := fun p hp hmem =>
      amp_free_of_length hne hlen _ (List.mem_map_of_mem hp) (List.mem_append_left _ hmem)
    exact ⟨hfree, (hread hfree).mp h⟩
  · rintro ⟨hfree, h⟩
    exact (hread hfree).mpr h

end CommonCpp.Lib.Form
