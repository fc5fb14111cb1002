import Mathlib.Data.Set.Insert
import Mathlib.Data.List.Pairwise

/-!
# Covering a growing forest by listings

A general picture of a component that has to keep a *watch* on every node of a
forest that others extend while it works. It learns of new nodes in two ways:
a node created below a watched one is announced, and an announced node is
later *listed*, which brings in everything that is below it by then. A listed
node is *held*: it will be registered, but is not watched until that happened.

`Covered` says that no node is lost: each is held or below one that will still
be listed. `step_covered` is the whole story: coverage survives a step exactly
if the step does not create a node below one that is held and not yet watched.
`le u x` reads "`x` is `u` or below `u`".
-/

namespace CommonCpp.Lib.Cover

variable {ν : Type}

/-- The component as seen from outside. -/
@[ext] structure State (ν : Type) where
  nodes : Set ν
  watched : Set ν
  /-- Watched, or listed and still to be registered. -/
  held : Set ν
  /-- The announced nodes whose listing is still to come. -/
  upcoming : List ν

/-- The order of a forest: below a node there is no way back to two others. -/
structure Forest (le : ν → ν → Prop) : Prop where
  refl : ∀ x, le x x
  trans : ∀ {x y z}, le x y → le y z → le x z
  chain : ∀ {x y z}, le x z → le y z → le x y ∨ le y x

/-- One step. The label of a creation is the parent and the new node. -/
inductive Step (le : ν → ν → Prop) : State ν → Option (ν × ν) → State ν → Prop where
  | stay (t : State ν) : Step le t none t
  /-- A node is created below a watched one, and announced. -/
  | announced {t : State ν} {p d : ν} (hp : p ∈ t.watched) (hd : ∀ x ∈ t.nodes, ¬ le d x)
      (hpd : ∀ u, le u d ↔ u = d ∨ le u p) :
      Step le t (some (p, d))
        { t with nodes := insert d t.nodes, upcoming := t.upcoming ++ [d] }
  /-- A node is created below one that is not watched. -/
  | unseen {t : State ν} {p d : ν} (hp : p ∈ t.nodes) (hp' : p ∉ t.watched)
      (hd : ∀ x ∈ t.nodes, ¬ le d x) (hpd : ∀ u, le u d ↔ u = d ∨ le u p) :
      Step le t (some (p, d)) { t with nodes := insert d t.nodes }
  /-- An announced node is listed with everything below it. -/
  | list {t : State ν} {u : ν} {as bs : List ν} (h : t.upcoming = as ++ u :: bs) :
      Step le t none
        { t with held := t.held ∪ { y | y ∈ t.nodes ∧ le u y }, upcoming := as ++ bs }
  /-- Held nodes are registered. -/
  | register {t : State ν} {w : Set ν} (h : t.watched ⊆ w) (h' : w ⊆ t.held) :
      Step le t none { t with watched := w }

/-- What holds in every state. -/
structure Inv (le : ν → ν → Prop) (t : State ν) : Prop where
  watched_held : t.watched ⊆ t.held
  held_nodes : t.held ⊆ t.nodes
  upcoming_nodes : ∀ u ∈ t.upcoming, u ∈ t.nodes
  /-- Nothing below an announced node is held yet. -/
  apart : ∀ u ∈ t.upcoming, ∀ y, le u y → y ∉ t.held
  /-- No announced node is below another. -/
  antichain : t.upcoming.Pairwise fun u v => ¬ le u v ∧ ¬ le v u

/-- A node that no later step of the component will reach. -/
def Lost (le : ν → ν → Prop) (t : State ν) (d : ν) : Prop :=
  d ∈ t.nodes ∧ d ∉ t.held ∧ ∀ u ∈ t.upcoming, ¬ le u d

def Covered (le : ν → ν → Prop) (t : State ν) : Prop := ∀ d, ¬ Lost le t d

/-- The step creates nothing below a node that is held and not yet watched. -/
def Safe (t : State ν) (ℓ : Option (ν × ν)) : Prop :=
  ∀ p d, ℓ = some (p, d) → p ∈ t.held → p ∈ t.watched

variable {le : ν → ν → Prop} {t t' : State ν} {ℓ : Option (ν × ν)}

/-- A new node is below no announced one, unless its parent is. -/
private theorem not_le_new {p d u : ν} (hI : Inv le t) (hd : ∀ x ∈ t.nodes, ¬ le d x)
    (F : Forest le) (hpd : ∀ u, le u d ↔ u = d ∨ le u p) (hu : u ∈ t.upcoming)
    (hp : p ∈ t.held) : ¬ le u d := by
  intro hle
  rcases (hpd u).mp hle with rfl | hup
  · exact hd u (hI.upcoming_nodes u hu) (F.refl u)
  · exact hI.apart u hu p hup hp

theorem step_inv (F : Forest le) (hI : Inv le t) (hs : Step le t ℓ t') : Inv le t' := by
  cases hs with
  | stay => exact hI
  | announced hp hd hpd =>
    rename_i p d
    -- the new node is below a held one, so below nothing that is upcoming
    have hph : p ∈ t.held := hI.watched_held hp
    refine ⟨hI.watched_held, fun y hy => Or.inr (hI.held_nodes hy), ?_, ?_, ?_⟩
    · intro u hu
      rcases List.mem_append.mp hu with hu | hu
      · exact Or.inr (hI.upcoming_nodes u hu)
      · exact Or.inl (List.mem_singleton.mp hu)
    · intro u hu y hy
      rcases List.mem_append.mp hu with hu | hu
      · exact hI.apart u hu y hy
      · rw [List.mem_singleton.mp hu] at hy
        exact fun h => hd y (hI.held_nodes h) hy
    · refine List.pairwise_append.mpr ⟨hI.antichain, List.pairwise_singleton _ _, ?_⟩
      intro u hu v hv
      rw [List.mem_singleton.mp hv]
      exact ⟨not_le_new hI hd F hpd hu hph, hd u (hI.upcoming_nodes u hu)⟩
  | unseen hp hp' hd hpd =>
    exact ⟨hI.watched_held, fun y hy => Or.inr (hI.held_nodes hy),
      fun u hu => Or.inr (hI.upcoming_nodes u hu), hI.apart, hI.antichain⟩
  | list h =>
    -- what is upcoming lies apart, and one of it is listed
    rename_i u as bs
    have hsub : ∀ v ∈ as ++ bs, v ∈ t.upcoming := by
      intro v hv
      rw [h]
      rcases List.mem_append.mp hv with hv | hv
      · exact List.mem_append_left _ hv
      · exact List.mem_append_right _ (List.mem_cons_of_mem _ hv)
    have hanti := hI.antichain
    rw [h] at hanti
    have hsplit := List.pairwise_append.mp hanti
    have hne : ∀ v ∈ as ++ bs, ¬ le u v ∧ ¬ le v u := by
      intro v hv
      rcases List.mem_append.mp hv with hv | hv
      · exact (hsplit.2.2 v hv u (List.mem_cons_self ..)).symm
      · exact (List.pairwise_cons.mp hsplit.2.1).1 v hv
    refine ⟨fun y hy => Or.inl (hI.watched_held hy), ?_,
      fun v hv => hI.upcoming_nodes v (hsub v hv), ?_, ?_⟩
    · intro y hy
      rcases hy with hy | hy
      · exact hI.held_nodes hy
      · exact hy.1
    · intro v hv y hvy hy
      rcases hy with hy | hy
      · exact hI.apart v (hsub v hv) y hvy hy
      · -- `u` and `v` are both above `y`, so one is below the other
        rcases F.chain hy.2 hvy with huv | hvu
        · exact (hne v hv).1 huv
        · exact (hne v hv).2 hvu
    · exact List.pairwise_append.mpr ⟨hsplit.1, (List.pairwise_cons.mp hsplit.2.1).2,
        fun a ha b hb => hsplit.2.2 a ha b (List.mem_cons_of_mem _ hb)⟩
  | register h h' =>
    exact ⟨h', hI.held_nodes, hI.upcoming_nodes, hI.apart, hI.antichain⟩

/-- Coverage survives a step exactly if the step is safe, and no step brings
it back. -/
theorem step_covered (F : Forest le) (hI : Inv le t) (hs : Step le t ℓ t') :
    Covered le t' ↔ Covered le t ∧ Safe t ℓ := by
  cases hs with
  | stay => exact ⟨fun h => ⟨h, fun _ _ h => by cases h⟩, fun h => h.1⟩
  | announced hp hd hpd =>
    rename_i p d
    constructor
    · intro hc
      refine ⟨fun x hx => hc x ⟨Or.inr hx.1, hx.2.1, ?_⟩, ?_⟩
      · intro u hu
        rcases List.mem_append.mp hu with hu | hu
        · exact hx.2.2 u hu
        · rw [List.mem_singleton.mp hu]
          exact hd x hx.1
      · intro p' d' h _
        cases h
        exact hp
    · intro hcs x hlost
      obtain ⟨hc, -⟩ := hcs
      obtain ⟨hx, hxh, hxu⟩ := hlost
      rcases hx with rfl | hx
      · exact hxu x (List.mem_append_right _ (List.mem_singleton.mpr rfl)) (F.refl x)
      · exact hc x ⟨hx, hxh, fun u hu => hxu u (List.mem_append_left _ hu)⟩
  | unseen hp hp' hd hpd =>
    rename_i p d
    constructor
    · intro hc
      refine ⟨fun x hx => hc x ⟨Or.inr hx.1, hx.2.1, hx.2.2⟩, ?_⟩
      intro p' d' h hph
      cases h
      exfalso
      -- the new node itself is lost
      refine hc d ⟨Or.inl rfl, fun h => hd d (hI.held_nodes h) (F.refl d), fun u hu => ?_⟩
      exact not_le_new hI hd F hpd hu hph
    · intro hcs x hlost
      obtain ⟨hc, hsafe⟩ := hcs
      obtain ⟨hx, hxh, hxu⟩ := hlost
      rcases hx with rfl | hx
      · refine hc p ⟨hp, fun hph => hp' (hsafe p x rfl hph), fun u hu hup => ?_⟩
        exact hxu u hu ((hpd u).mpr (Or.inr hup))
      · exact hc x ⟨hx, hxh, hxu⟩
  | list h =>
    rename_i u as bs
    have hmem : ∀ v, v ∈ t.upcoming ↔ v = u ∨ v ∈ as ++ bs := by
      intro v
      rw [h, List.mem_append, List.mem_cons, List.mem_append]
      exact or_left_comm
    have hlost : ∀ x, Lost le { t with
        held := t.held ∪ { y | y ∈ t.nodes ∧ le u y }, upcoming := as ++ bs } x ↔ Lost le t x := by
      intro x
      constructor
      · intro hlost
        obtain ⟨hx, hxh, hxu⟩ := hlost
        refine ⟨hx, fun hh => hxh (Or.inl hh), fun v hv hvx => ?_⟩
        rcases (hmem v).mp hv with rfl | hv
        · exact hxh (Or.inr ⟨hx, hvx⟩)
        · exact hxu v hv hvx
      · intro hlost
        obtain ⟨hx, hxh, hxu⟩ := hlost
        refine ⟨hx, fun hh => ?_, fun v hv => hxu v ((hmem v).mpr (Or.inr hv))⟩
        rcases hh with hh | hh
        · exact hxh hh
        · exact hxu u ((hmem u).mpr (Or.inl rfl)) hh.2
    exact ⟨fun hc => ⟨fun x hx => hc x ((hlost x).mpr hx), fun _ _ h => by cases h⟩,
      fun hc x hx => hc.1 x ((hlost x).mp hx)⟩
  | register h h' => exact ⟨fun hc => ⟨hc, fun _ _ h => by cases h⟩, fun hc => hc.1⟩

/-- When nothing is left to list or to register, a covered state has every
node watched. -/
theorem all_watched (hc : Covered le t) (hu : t.upcoming = []) (hh : t.held ⊆ t.watched) :
    t.nodes ⊆ t.watched := by
  intro x hx
  by_contra hw
  exact hc x ⟨hx, fun h => hw (hh h), by rw [hu]; intro u h; cases h⟩

end CommonCpp.Lib.Cover
