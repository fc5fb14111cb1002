import Mathlib.Logic.Basic

/-!
# Runs of a labelled transition system

A system is a partial step function `step : σ → α → Option σ`: the label says
everything that is left open (which thread moves, what the environment does),
so a run is determined by its start and its list of labels, and a run can be
evaluated. Nothing here mentions a particular system.

`run_invariant` is the induction every safety proof uses, and
`run_invariant_along` the one where only certain steps keep the invariant;
`run_length_le` and `exists_run_to_rest` say that runs of certain steps end;
`run_collect` is the same induction for a log that grows along the run and
`run_countP` for a number that counts certain labels; `run_map` is simulation by
a function and `run_simulates` by a relation; `run_along_iff` settles when a
property that only certain steps destroy, and nothing repairs, holds at the end
of a run.
-/

namespace CommonCpp.Lib

variable {σ α β : Type} {step : σ → α → Option σ}

/-- The state a run ends in; `none` when some step is not enabled. -/
def run (step : σ → α → Option σ) : σ → List α → Option σ
  | s, [] => some s
  | s, a :: as => (step s a).bind fun s' => run step s' as

@[simp] theorem run_nil (s : σ) : run step s [] = some s := rfl

theorem run_cons_eq_some {s t : σ} {a : α} {as : List α} :
    run step s (a :: as) = some t ↔ ∃ s', step s a = some s' ∧ run step s' as = some t := by
  simp only [run, Option.bind_eq_some_iff]

theorem run_append_eq_some {s u : σ} {as bs : List α} :
    run step s (as ++ bs) = some u ↔ ∃ t, run step s as = some t ∧ run step t bs = some u := by
  induction as generalizing s with
  | nil => simp
  | cons a as ih =>
    rw [List.cons_append, run_cons_eq_some]
    constructor
    · rintro ⟨s', ha, h⟩
      obtain ⟨t, ht, hu⟩ := ih.mp h
      exact ⟨t, run_cons_eq_some.mpr ⟨s', ha, ht⟩, hu⟩
    · rintro ⟨t, h, hu⟩
      obtain ⟨s', ha, ht⟩ := run_cons_eq_some.mp h
      exact ⟨s', ha, ih.mpr ⟨t, ht, hu⟩⟩

/-- What every step preserves holds at the end of every run. -/
theorem run_invariant {Inv : σ → Prop}
    (hstep : ∀ {s a s'}, Inv s → step s a = some s' → Inv s') :
    ∀ {as : List α} {s t : σ}, Inv s → run step s as = some t → Inv t := by
  intro as
  induction as with
  | nil => intro s t hs h; cases h; exact hs
  | cons a as ih =>
    intro s t hs h
    obtain ⟨s', ha, h'⟩ := run_cons_eq_some.mp h
    exact ih (hstep hs ha) h'

/-- A function that maps steps to steps maps runs to runs. -/
theorem run_map {τ : Type} {step' : τ → α → Option τ} {f : σ → τ}
    (hstep : ∀ {s a s'}, step s a = some s' → step' (f s) a = some (f s')) :
    ∀ {as : List α} {s t : σ}, run step s as = some t → run step' (f s) as = some (f t) := by
  intro as
  induction as with
  | nil => intro s t h; cases h; rfl
  | cons a as ih =>
    intro s t h
    obtain ⟨s', ha, h'⟩ := run_cons_eq_some.mp h
    exact run_cons_eq_some.mpr ⟨f s', hstep ha, ih h'⟩

/-- A system that answers every step of another keeps up with its runs. -/
theorem run_simulates {τ : Type} {step' : τ → α → Option τ} {R : σ → τ → Prop}
    (hstep : ∀ {s a s' t}, R s t → step s a = some s' → ∃ t', step' t a = some t' ∧ R s' t') :
    ∀ {as : List α} {s s' : σ} {t : τ}, R s t → run step s as = some s' →
      ∃ t', run step' t as = some t' ∧ R s' t' := by
  intro as
  induction as with
  | nil => intro s s' t hR h; cases h; exact ⟨t, rfl, hR⟩
  | cons a as ih =>
    intro s s' t hR h
    obtain ⟨s₁, ha, h'⟩ := run_cons_eq_some.mp h
    obtain ⟨t₁, ht, hR₁⟩ := hstep hR ha
    obtain ⟨t', hrun, hR'⟩ := ih hR₁ h'
    exact ⟨t', run_cons_eq_some.mpr ⟨t₁, ht, hrun⟩, hR'⟩

/-- What each step with a certain label raises by one, and no other step changes, counts
those labels. -/
theorem run_countP {f : σ → Nat} {p : α → Bool}
    (hstep : ∀ {s a s'}, step s a = some s' → f s' = f s + if p a then 1 else 0) :
    ∀ {as : List α} {s t : σ}, run step s as = some t → f t = f s + as.countP p := by
  intro as
  induction as with
  | nil => intro s t h; cases h; rfl
  | cons a as ih =>
    intro s t h
    obtain ⟨s', ha, h'⟩ := run_cons_eq_some.mp h
    rw [ih h', hstep ha, List.countP_cons]
    omega

/-- A number that every step with one of the labels `P` lowers bounds the length of a run
of such steps. -/
theorem run_length_le {Inv : σ → Prop} {P : α → Prop} {f : σ → Nat}
    (hinv : ∀ {s a s'}, Inv s → step s a = some s' → Inv s')
    (hlow : ∀ {s a s'}, Inv s → P a → step s a = some s' → f s' < f s) :
    ∀ {as : List α} {s t : σ}, Inv s → (∀ a ∈ as, P a) → run step s as = some t →
      f t + as.length ≤ f s := by
  intro as
  induction as with
  | nil => intro s t _ _ h; cases h; exact Nat.le_refl _
  | cons a as ih =>
    intro s t hs hP h
    obtain ⟨s', ha, h'⟩ := run_cons_eq_some.mp h
    have hrest := ih (hinv hs ha) (fun b hb => hP b (List.mem_cons_of_mem _ hb)) h'
    have hfirst := hlow hs (hP a (List.mem_cons_self ..)) ha
    rw [List.length_cons]
    omega

/-- Such steps can be taken until none is left. -/
theorem exists_run_to_rest {Inv : σ → Prop} {P : α → Prop} {f : σ → Nat}
    (hinv : ∀ {s a s'}, Inv s → step s a = some s' → Inv s')
    (hlow : ∀ {s a s'}, Inv s → P a → step s a = some s' → f s' < f s) {s : σ} (hs : Inv s) :
    ∃ as t, (∀ a ∈ as, P a) ∧ run step s as = some t ∧ ∀ a, P a → step t a = none := by
  induction hn : f s using Nat.strongRecOn generalizing s with
  | _ n ih =>
    by_cases hrest : ∀ a, P a → step s a = none
    · exact ⟨[], s, List.forall_mem_nil _, rfl, hrest⟩
    · obtain ⟨a, hrest⟩ := Classical.not_forall.mp hrest
      obtain ⟨ha, hstep⟩ := Classical.not_imp.mp hrest
      obtain ⟨s', hs'⟩ := Option.ne_none_iff_exists'.mp hstep
      obtain ⟨as, t, hP, hrun, hend⟩ := ih (f s') (hn ▸ hlow hs ha hs') (hinv hs hs') rfl
      exact ⟨a :: as, t, List.forall_mem_cons.mpr ⟨ha, hP⟩, run_cons_eq_some.mpr ⟨s', hs', hrun⟩,
        hend⟩

/-- Every step of the run is taken in a state, and with a label, that satisfy `C`. -/
def Along (step : σ → α → Option σ) (C : σ → α → Prop) : σ → List α → Prop
  | _, [] => True
  | s, a :: as => C s a ∧ ∀ s', step s a = some s' → Along step C s' as

instance decidableAlong {C : σ → α → Prop} [∀ s a, Decidable (C s a)] :
    ∀ (s : σ) (as : List α), Decidable (Along step C s as)
  | _, [] => isTrue trivial
  | s, a :: as =>
    have : ∀ s', Decidable (Along step C s' as) := fun s' => decidableAlong s' as
    inferInstanceAs (Decidable (C s a ∧ ∀ s' ∈ step s a, Along step C s' as))

/-- What every step that satisfies `C` preserves holds at the end of every run along it. -/
theorem run_invariant_along {Inv : σ → Prop} {C : σ → α → Prop}
    (hstep : ∀ {s a s'}, Inv s → C s a → step s a = some s' → Inv s') :
    ∀ {as : List α} {s t : σ}, Inv s → Along step C s as → run step s as = some t → Inv t := by
  intro as
  induction as with
  | nil => intro s t hs _ h; cases h; exact hs
  | cons a as ih =>
    intro s t hs hal h
    obtain ⟨s', ha, h'⟩ := run_cons_eq_some.mp h
    exact ih (hstep hs hal.1 ha) (hal.2 s' ha) h'

theorem Along.mono {C C' : σ → α → Prop} (himp : ∀ {s a}, C s a → C' s a) :
    ∀ {as : List α} {s : σ}, Along step C s as → Along step C' s as := by
  intro as
  induction as with
  | nil => exact fun _ => trivial
  | cons a as ih => exact fun hal => ⟨himp hal.1, fun s' ha => ih (hal.2 s' ha)⟩

/-- Where an invariant holds, what `C` says of a step may be more than asked. -/
theorem Along.imp {Inv : σ → Prop} {C C' : σ → α → Prop}
    (hinv : ∀ {s a s'}, Inv s → step s a = some s' → Inv s')
    (himp : ∀ {s a}, Inv s → C s a → C' s a) :
    ∀ {as : List α} {s : σ}, Inv s → Along step C s as → Along step C' s as := by
  intro as
  induction as with
  | nil => exact fun _ _ => trivial
  | cons a as ih =>
    intro s hs hal
    exact ⟨himp hs hal.1, fun s' ha => ih (hinv hs ha) (hal.2 s' ha)⟩

/-- The outputs of a run's steps, in order. -/
def collect (step : σ → α → Option σ) (out : σ → α → List β) : σ → List α → List β
  | _, [] => []
  | s, a :: as =>
    out s a ++ match step s a with
      | some s' => collect step out s' as
      | none => []

/-- A log that each step extends by its output is, at the end, the start's log
followed by the outputs of the run. -/
theorem run_collect {Inv : σ → Prop} {log : σ → List β} {out : σ → α → List β}
    (hinv : ∀ {s a s'}, Inv s → step s a = some s' → Inv s')
    (hlog : ∀ {s a s'}, Inv s → step s a = some s' → log s' = log s ++ out s a) :
    ∀ {as : List α} {s t : σ}, Inv s → run step s as = some t →
      log t = log s ++ collect step out s as := by
  intro as
  induction as with
  | nil => intro s t _ h; cases h; simp [collect]
  | cons a as ih =>
    intro s t hs h
    obtain ⟨s', ha, h'⟩ := run_cons_eq_some.mp h
    rw [ih (hinv hs ha) h', hlog hs ha, collect, ha, List.append_assoc]

/-- When a step keeps `Good` exactly if it satisfies `C`, and nothing restores
`Good` once it is gone, `Good` at the end says that all steps satisfied `C`. -/
theorem run_along_iff {Inv Good : σ → Prop} {C : σ → α → Prop}
    (hinv : ∀ {s a s'}, Inv s → step s a = some s' → Inv s')
    (hgood : ∀ {s a s'}, Inv s → step s a = some s' → (Good s' ↔ Good s ∧ C s a)) :
    ∀ {as : List α} {s t : σ}, Inv s → run step s as = some t →
      (Good t ↔ Good s ∧ Along step C s as) := by
  intro as
  induction as with
  | nil => intro s t _ h; cases h; simp [Along]
  | cons a as ih =>
    intro s t hs h
    obtain ⟨s', ha, h'⟩ := run_cons_eq_some.mp h
    rw [ih (hinv hs ha) h', hgood hs ha]
    constructor
    · rintro ⟨⟨hg, hc⟩, hal⟩
      exact ⟨hg, hc, fun s'' h'' => by rwa [Option.some.inj (h''.symm.trans ha)]⟩
    · rintro ⟨hg, hc, hal⟩
      exact ⟨⟨hg, hc⟩, hal s' ha⟩

end CommonCpp.Lib
