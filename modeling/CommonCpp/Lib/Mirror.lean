import CommonCpp.Lib.Run
import Mathlib.Data.Set.Insert
import Mathlib.Data.List.Infix

/-!
# A mirror of a tree, kept by edits

Someone who cannot look at a tree but is told of its changes keeps the set of
paths in it. A rename arrives as two edits: what is below the old path is lifted
and held, and placed again below the new one; in between the mirror is not the
tree. `lift_place` says what both come to.

`Follows` is the general notion: a relation between a follower and a system that
every step of the system, and the edits it sends, carry on. It then holds after
a run (`run_follows`).
-/

namespace CommonCpp.Lib

variable {α : Type}

/-- What is known of the tree: its paths, and what was lifted last, each path as
seen from where it was taken. -/
@[ext] structure Mirror (α : Type) where
  paths : Set (List α)
  held : Set (List α)

/-- What the mirror is told. -/
inductive Edit (α : Type) where
  | add (p : List α)
  | remove (p : List α)
  | lift (p : List α)
  | place (p : List α)

namespace Mirror

/-- The paths at or below `p`. -/
def below (p : List α) : Set (List α) := { q | p <+: q }

/-- The mirror of a tree with these paths. -/
def ofPaths (paths : Set (List α)) : Mirror α := ⟨paths, ∅⟩

def edit (m : Mirror α) : Edit α → Mirror α
  | .add p => ⟨insert p m.paths, ∅⟩
  | .remove p => ⟨m.paths \ below p, ∅⟩
  | .lift p => ⟨m.paths \ below p, { r | p ++ r ∈ m.paths }⟩
  | .place p => ⟨m.paths \ below p ∪ (fun r => p ++ r) '' insert [] m.held, ∅⟩

def replay (m : Mirror α) (edits : List (Edit α)) : Mirror α := edits.foldl edit m

@[simp] theorem replay_nil (m : Mirror α) : m.replay [] = m := rfl

@[simp] theorem replay_cons (m : Mirror α) (e : Edit α) (es : List (Edit α)) :
    m.replay (e :: es) = (m.edit e).replay es := rfl

theorem replay_append (m : Mirror α) (es es' : List (Edit α)) :
    m.replay (es ++ es') = (m.replay es).replay es' :=
  List.foldl_append

theorem mem_add {m : Mirror α} {p x : List α} :
    x ∈ (m.edit (.add p)).paths ↔ x = p ∨ x ∈ m.paths := Iff.rfl

theorem mem_remove {m : Mirror α} {p x : List α} :
    x ∈ (m.edit (.remove p)).paths ↔ x ∈ m.paths ∧ ¬ p <+: x := Iff.rfl

theorem mem_lift {m : Mirror α} {p x : List α} :
    x ∈ (m.edit (.lift p)).paths ↔ x ∈ m.paths ∧ ¬ p <+: x := Iff.rfl

/-- A path that was there is at its new place with all that was below it; what was below
the new place before is gone. -/
theorem lift_place {m : Mirror α} {p q : List α} (hp : p ∈ m.paths) (x : List α) :
    x ∈ (m.replay [.lift p, .place q]).paths ↔
      (∃ r, x = q ++ r ∧ p ++ r ∈ m.paths) ∨ ¬ q <+: x ∧ ¬ p <+: x ∧ x ∈ m.paths := by
  have hself : ([] : List α) ∈ { r | p ++ r ∈ m.paths } := by
    show p ++ [] ∈ m.paths
    rw [List.append_nil]
    exact hp
  show x ∈ (m.paths \ below p) \ below q ∪
      (fun r => q ++ r) '' insert [] { r | p ++ r ∈ m.paths } ↔ _
  rw [Set.insert_eq_of_mem hself]
  constructor
  · rintro (⟨⟨hx, hpx⟩, hqx⟩ | ⟨r, hr, rfl⟩)
    · exact Or.inr ⟨hqx, hpx, hx⟩
    · exact Or.inl ⟨r, rfl, hr⟩
  · rintro (⟨r, rfl, hr⟩ | ⟨hqx, hpx, hx⟩)
    · exact Or.inr ⟨r, hr, rfl⟩
    · exact Or.inl ⟨⟨hx, hpx⟩, hqx⟩

end Mirror

/-! ## Following a run -/

variable {σ β ε τ : Type} {step : σ → β → Option σ}

/-- Each step that meets `C`, with what it sends, keeps a follower in the relation. -/
def Follows (step : σ → β → Option σ) (Inv : σ → Prop) (C : σ → β → Prop) (out : σ → β → List ε)
    (take : τ → ε → τ) (R : τ → σ → Prop) : Prop :=
  ∀ {s a s'} {t : τ}, Inv s → C s a → step s a = some s' → R t s → R ((out s a).foldl take t) s'

/-- A follower that keeps up with every step keeps up with a run. -/
theorem run_follows {Inv : σ → Prop} {C : σ → β → Prop} {out : σ → β → List ε}
    {take : τ → ε → τ} {R : τ → σ → Prop}
    (hinv : ∀ {s a s'}, Inv s → C s a → step s a = some s' → Inv s')
    (hstep : Follows step Inv C out take R) :
    ∀ {as : List β} {s s' : σ} {t : τ}, Inv s → Along step C s as → run step s as = some s' →
      R t s → R ((collect step out s as).foldl take t) s' := by
  intro as
  induction as with
  | nil =>
    intro s s' t _ _ h hR
    cases h
    exact hR
  | cons a as ih =>
    intro s s' t hs hal h hR
    obtain ⟨s₁, ha, h'⟩ := run_cons_eq_some.mp h
    rw [collect, ha, List.foldl_append]
    exact ih (hinv hs hal.1 ha) (hal.2 s₁ ha) h' (hstep hs hal.1 ha hR)

end CommonCpp.Lib
