import CommonCpp.Monitor.Invariant

/-!
# Which creations are reported

The reader gets to know of an entry only through an event, and an event exists
only if the directory was watched when the entry was made; `watch` registers
the sub-directories it lists but reports none of them. So a creation inside a
directory whose own event is still in the queue is registered later and never
reported.

`log` is what was, is being and will be reported. Each step extends it by the
creation it performs, if its directory is watched (`log_step`); the reader only
moves entries along inside it. Hence `all_reported_iff`: once the queue is empty
and the reader idle, everything created since `watch(root)` has been reported
if and only if every creation was made in a directory watched at that moment.
-/

namespace CommonCpp.Monitor

open CommonCpp.Fs CommonCpp.Lib

/-- The change the reader is working on. -/
def Reader.inflight : Reader Path → List (Change Path)
  | .taken c | .watching c _ | .notify c => [c]
  | .idle | .terminated => []

/-- Reported, being handled, and queued. -/
def Sys.log (s : Sys) : List (Change Path) :=
  s.seen ++ s.reader.inflight ++ s.queue.map s.changeOf

/-- What a step adds to the log. -/
def logged (s : Sys) (a : Act) : List (Change Path) :=
  match a.makes with
  | some (dir, n) => if s.watchedAt dir then [⟨.added, dir ++ [n]⟩] else []
  | none => []

/-- If the step creates an entry, the directory is watched. -/
def MakesInWatched (s : Sys) (a : Act) : Prop :=
  ∀ dir n, a.makes = some (dir, n) → s.Watched dir

variable {root : Path} {s s' : Sys} {a : Act}

/-! ## The log grows by the watched creations -/

theorem Makes.makes {dir : Path} {n : Name} {new : Entry} {mask : UInt32}
    (h : Makes a dir n new mask) : a.makes = some (dir, n) := by
  cases h <;> rfl

theorem Made.log {dir : Path} {n : Name} {new : Entry} {mask : UInt32}
    (hmk : Makes a dir n new mask) (h : Made root s dir n new mask s') (hI : Inv root s) :
    s'.log = s.log ++ logged s a := by
  obtain ⟨hwf, hlink, hmask⟩ := hmk.spec
  obtain ⟨ino, hino, hq⟩ := h.changes hwf hlink hmask hI
  obtain ⟨sub, hsub⟩ := stat_dir_iff.mp hino
  obtain ⟨-, hr, hse⟩ := h.threads
  have hlog : logged s a = if (s.wdOf ino).isSome then [⟨.added, dir ++ [n]⟩] else [] := by
    unfold logged Sys.watchedAt
    rw [hmk.makes]
    dsimp only
    rw [dirAt_eq_some.mpr hsub]
  rw [hlog, Sys.log, Sys.log, hse, hr, hq, ← List.append_assoc]

theorem Registered.log {p : Path} {i : Ino} {wd : Int} (h : Registered s p i wd s')
    (hp : root <+: p) (hi : s.fs.stat p = some (.dir i)) (hI : Inv root s) : s'.log = s.log := by
  rw [Sys.log, Sys.log, h.seen, h.reader, h.changes hp hi hI]

/-- Moving an entry from one stage of the log to the next. -/
theorem log_moved {m : Option Call} {r : Reader Path} {seen : List (Change Path)}
    (h : seen ++ r.inflight = s.seen ++ s.reader.inflight) :
    ({ s with main := m, reader := r, seen := seen } : Sys).log = s.log := by
  show seen ++ r.inflight ++ s.queue.map s.changeOf = s.log
  rw [h]
  rfl

theorem MainDoes.log (h : MainDoes s s') (hI : Inv root s) : s'.log = s.log := by
  cases h with
  | list => rfl
  | add hm ha =>
    have hu := hI.main _ hm _ (List.mem_cons_self ..)
    obtain ⟨i, wd, hi, hreg⟩ := hu.registered ha
    exact hreg.log hu.1 hi hI
  | leave => rfl
  | die => rfl

theorem ReaderDoes.log (h : ReaderDoes s s') (hI : Inv root s) : s'.log = s.log := by
  have hr' := hI.reader
  cases h with
  | take hr hq =>
    -- the front of the queue becomes what is in flight
    rw [Sys.log, Sys.log, hI.take_changes hq, hr]
    simp [Sys.take, Reader.inflight]
  | enter hr => exact log_moved (by rw [hr]; rfl)
  | pass hr => exact log_moved (by rw [hr]; rfl)
  | list hr => exact log_moved (by rw [hr]; rfl)
  | add hr ha =>
    rw [hr] at hr'
    have hu := hr'.2 _ (List.mem_cons_self ..)
    obtain ⟨i, wd, hi, hreg⟩ := hu.registered ha
    rw [← hreg.log hu.1 hi hI]
    exact log_moved (by rw [hreg.reader, hr]; rfl)
  | leave hr => exact log_moved (by rw [hr]; rfl)
  | die hr hc =>
    rw [hr] at hr'
    exact absurd hc (hr'.2.not_throw hI.table)
  | notify hr => exact log_moved (by rw [hr]; simp [Reader.inflight])

/-- A step logs the creation it makes if its directory is watched, and nothing
else. -/
theorem log_step (hI : Inv root s) (h : step root s a = some s') :
    s'.log = s.log ++ logged s a := by
  rcases step_cases h with ⟨dir, n, new, mask, hmk, hm⟩ | ⟨rfl, hm⟩ | ⟨rfl, hr⟩
  · exact hm.log hmk hI
  · rw [hm.log hI]; exact (List.append_nil _).symm
  · rw [hr.log hI]; exact (List.append_nil _).symm

/-- Along a run the log is extended by the watched creations in the order they
were made: none of them is lost, doubled or overtaken on its way to `onchange`. -/
theorem log_run {acts : List Act} (hI : Inv root s) (h : run (step root) s acts = some s') :
    s'.log = s.log ++ collect (step root) logged s acts :=
  run_collect inv_step log_step hI h

/-! ## What was created in a run -/

/-- A step makes one entry or leaves the file system alone. -/
theorem fs_step (hI : Inv root s) (h : step root s a = some s') :
    (a.makes = none ∧ s'.fs = s.fs) ∨
    ∃ dir n node, a.makes = some (dir, n) ∧ s.fs.stat (dir ++ [n]) = none ∧
      ∀ q, s'.fs.stat q = if q = dir ++ [n] then some node else s.fs.stat q := by
  rcases step_cases h with ⟨dir, n, new, mask, hmk, hm⟩ | ⟨rfl, hm⟩ | ⟨rfl, hr⟩
  · exact Or.inr ⟨dir, n, new.node, hmk.makes, hm.stat_absent, hm.stat⟩
  · refine Or.inl ⟨rfl, ?_⟩
    cases hm with
    | add hm ha =>
      obtain ⟨i, wd, hi, hreg⟩ := (hI.main _ hm _ (List.mem_cons_self ..)).registered ha
      exact hreg.fs
    | _ => rfl
  · refine Or.inl ⟨rfl, ?_⟩
    have hr' := hI.reader
    cases hr with
    | add hr ha =>
      rw [hr] at hr'
      obtain ⟨i, wd, hi, hreg⟩ := (hr'.2 _ (List.mem_cons_self ..)).registered ha
      exact hreg.fs
    | _ => rfl

/-- What exists stays. -/
theorem stat_mono (hI : Inv root s) (h : step root s a = some s') {q : Path}
    (hq : s.fs.stat q ≠ none) : s'.fs.stat q ≠ none := by
  rcases fs_step hI h with ⟨-, hfs⟩ | ⟨dir, n, node, -, -, hstat⟩
  · rw [hfs]; exact hq
  · rw [hstat]
    split
    · simp
    · exact hq

/-- The paths created in a run are those that exist at its end and did not at
its start. -/
theorem mem_created_iff {acts : List Act} (hI : Inv root s)
    (h : run (step root) s acts = some s') (p : Path) :
    p ∈ created acts ↔ s'.fs.stat p ≠ none ∧ s.fs.stat p = none := by
  induction acts generalizing s with
  | nil =>
    cases h
    constructor
    · intro hp
      cases hp
    · intro hp
      exact absurd hp.2 hp.1
  | cons a acts ih =>
    obtain ⟨s₁, ha, h'⟩ := run_cons_eq_some.mp h
    have hI₁ : Inv root s₁ := inv_step hI ha
    have hrest := ih hI₁ h'
    rcases fs_step hI ha with ⟨hnone, hfs⟩ | ⟨dir, n, node, hmakes, habs, hstat⟩
    · have hcr : created (a :: acts) = created acts := by
        rw [created, List.filterMap_cons, hnone]
        rfl
      rw [hcr, hrest, hfs]
    · have hcr : created (a :: acts) = (dir ++ [n]) :: created acts := by
        rw [created, List.filterMap_cons, hmakes]
        rfl
      rw [hcr, List.mem_cons, hrest, hstat]
      by_cases hp : p = dir ++ [n]
      · -- made here, and nothing in the rest of the run removes it
        subst hp
        have hex : s'.fs.stat (dir ++ [n]) ≠ none := by
          have h₁ : s₁.fs.stat (dir ++ [n]) ≠ none := by rw [hstat, if_pos rfl]; simp
          have hkeep : ∀ {t : Sys} {b : Act} {t' : Sys},
              (Inv root t ∧ t.fs.stat (dir ++ [n]) ≠ none) → step root t b = some t' →
              Inv root t' ∧ t'.fs.stat (dir ++ [n]) ≠ none := fun ht hs =>
            ⟨inv_step ht.1 hs, stat_mono ht.1 hs ht.2⟩
          exact (run_invariant hkeep ⟨hI₁, h₁⟩ h').2
        exact ⟨fun _ => ⟨hex, habs⟩, fun _ => Or.inl rfl⟩
      · rw [if_neg hp]
        simp [hp]

/-! ## Everything is reported, or not -/

/-- What exists now and did not exist in `fs₀` is in the log. -/
def AllLogged (fs₀ : Entry) (s : Sys) : Prop :=
  ∀ p, s.fs.stat p ≠ none → fs₀.stat p = none → ⟨.added, p⟩ ∈ s.log

/-- The invariant, together with what is needed of the start and of the log. -/
structure LogInv (root : Path) (fs₀ : Entry) (s : Sys) : Prop where
  inv : Inv root s
  start : ∀ p, fs₀.stat p ≠ none → s.fs.stat p ≠ none
  exist : ∀ c ∈ s.log, s.fs.stat c.path ≠ none

theorem mem_logged {c : Change Path} :
    c ∈ logged s a ↔ ∃ dir n, a.makes = some (dir, n) ∧ s.Watched dir ∧ c = ⟨.added, dir ++ [n]⟩ := by
  unfold logged
  cases a.makes with
  | none => simp
  | some x =>
    obtain ⟨dir, n⟩ := x
    dsimp only
    cases hw : s.watchedAt dir with
    | true =>
      rw [if_pos rfl, List.mem_singleton]
      constructor
      · intro hc
        exact ⟨dir, n, rfl, watchedAt_iff.mp hw, hc⟩
      · intro h
        obtain ⟨d, k, hdk, -, hc⟩ := h
        cases hdk
        exact hc
    | false =>
      constructor
      · intro hc
        cases hc
      · intro h
        obtain ⟨d, k, hdk, hd, -⟩ := h
        cases hdk
        rw [watchedAt_iff.mpr hd] at hw
        cases hw

theorem logInv_step {fs₀ : Entry} (hL : LogInv root fs₀ s) (h : step root s a = some s') :
    LogInv root fs₀ s' := by
  refine ⟨inv_step hL.inv h, fun p hp => stat_mono hL.inv h (hL.start p hp), fun c hc => ?_⟩
  rw [log_step hL.inv h] at hc
  rcases List.mem_append.mp hc with hc | hc
  · exact stat_mono hL.inv h (hL.exist c hc)
  · obtain ⟨dir, n, hmakes, -, rfl⟩ := mem_logged.mp hc
    rcases fs_step hL.inv h with ⟨hnone, -⟩ | ⟨dir', n', node, hmakes', -, hstat⟩
    · rw [hnone] at hmakes; cases hmakes
    · rw [hmakes] at hmakes'
      cases hmakes'
      rw [hstat, if_pos rfl]
      simp

/-- A step keeps everything logged exactly if it makes nothing in a directory
that is not watched. -/
theorem allLogged_step {fs₀ : Entry} (hL : LogInv root fs₀ s) (h : step root s a = some s') :
    AllLogged fs₀ s' ↔ AllLogged fs₀ s ∧ MakesInWatched s a := by
  have hlog := log_step hL.inv h
  rcases fs_step hL.inv h with ⟨hnone, hfs⟩ | ⟨dir, n, node, hmakes, habs, hstat⟩
  · have hsafe : MakesInWatched s a := fun dir n hm => by rw [hnone] at hm; cases hm
    have hnil : logged s a = [] := by unfold logged; rw [hnone]
    rw [hnil, List.append_nil] at hlog
    unfold AllLogged
    rw [hfs, hlog]
    exact ⟨fun hg => ⟨hg, hsafe⟩, fun hg => hg.1⟩
  · have hnew : fs₀.stat (dir ++ [n]) = none := by
      by_contra hne
      exact hL.start _ hne habs
    constructor
    · intro hg
      refine ⟨fun p hp hp₀ => ?_, fun dir' n' hm => ?_⟩
      -- the step logs at most the new path, so an older one was logged before
      · have hne : p ≠ dir ++ [n] := fun he => hp (he ▸ habs)
        have hp' := hg p (by rw [hstat, if_neg hne]; exact hp) hp₀
        rw [hlog] at hp'
        rcases List.mem_append.mp hp' with hp' | hp'
        · exact hp'
        · obtain ⟨d, k, hm, -, he⟩ := mem_logged.mp hp'
          rw [hmakes] at hm
          cases hm
          exact absurd (congrArg Change.path he) hne
      -- the new path was not in the log before, so this step put it there
      · rw [hmakes] at hm
        cases hm
        have hp' := hg (dir ++ [n]) (by rw [hstat, if_pos rfl]; simp) hnew
        rw [hlog] at hp'
        rcases List.mem_append.mp hp' with hp' | hp'
        · exact absurd habs (hL.exist _ hp')
        · obtain ⟨d, k, hm, hw, -⟩ := mem_logged.mp hp'
          rw [hmakes] at hm
          cases hm
          exact hw
    · intro hgs p hp hp₀
      obtain ⟨hg, hsafe⟩ := hgs
      rw [hlog]
      by_cases he : p = dir ++ [n]
      · subst he
        exact List.mem_append_right _
          (mem_logged.mpr ⟨dir, n, hmakes, hsafe dir n hmakes, rfl⟩)
      · rw [hstat, if_neg he] at hp
        exact List.mem_append_left _ (hg p hp hp₀)

/-- **Which creations are reported.** After `watch(root)` on any tree, in every
run of creations under the root and reader steps that ends with an empty queue
and the reader at `read`: everything created has been reported as added if and
only if each creation was made in a directory watched at that moment. -/
theorem all_reported_iff (fs : FileSystem) (root : Path) (i : Ino) (s₀ s : Sys)
    (acts : List Act) (hroot : fs.tree.stat root = some (.dir i))
    (hwatch : (Sys.start fs.tree).watch root = some s₀)
    (hrun : run (step root) s₀ acts = some s) (hqueue : s.queue = [])
    (hidle : s.reader = .idle) :
    (∀ p ∈ created acts, ⟨.added, p⟩ ∈ s.seen) ↔ Along (step root) MakesInWatched s₀ acts := by
  obtain ⟨hI, hfs, hq₀, -, hr₀, hse₀, -⟩ := watch_start hroot hwatch
  have hlog₀ : s₀.log = [] := by rw [Sys.log, hq₀, hr₀, hse₀]; rfl
  have hlog : s.log = s.seen := by rw [Sys.log, hqueue, hidle]; simp [Reader.inflight]
  have hL : LogInv root s₀.fs s₀ :=
    ⟨hI, fun p hp => hp, fun c hc => by rw [hlog₀] at hc; cases hc⟩
  have hgood : AllLogged s₀.fs s ↔ AllLogged s₀.fs s₀ ∧ Along (step root) MakesInWatched s₀ acts :=
    run_along_iff logInv_step allLogged_step hL hrun
  have hstart : AllLogged s₀.fs s₀ := fun p hp hp₀ => absurd hp₀ hp
  rw [← and_iff_right hstart (b := Along (step root) MakesInWatched s₀ acts), ← hgood]
  unfold AllLogged
  rw [hlog]
  constructor
  · intro h p hp hp₀
    exact h p ((mem_created_iff hI hrun p).mpr ⟨hp, hp₀⟩)
  · intro h p hp
    obtain ⟨hp, hp₀⟩ := (mem_created_iff hI hrun p).mp hp
    exact h p hp hp₀

/-- `r/a` and at once `r/a/b` are made, then the reader takes, lists, registers
and reports `r/a`. -/
def nestedMkdirs : List Act :=
  [.mkdir [ascii "r"] 0 (ascii "a") 3, .mkdir [ascii "r", ascii "a"] 0 (ascii "b") 4] ++
    List.replicate 7 .reader

/-- Here `r/a/b` is registered with `r/a` and its creation is never reported. -/
theorem creation_unreported :
    ¬ ∀ (fs : FileSystem) (root : Path) (i : Ino) (s₀ s : Sys) (acts : List Act),
      fs.tree.stat root = some (.dir i) → (Sys.start fs.tree).watch root = some s₀ →
      run (step root) s₀ acts = some s → s.queue = [] → s.reader = .idle →
      ∀ p ∈ created acts, ⟨.added, p⟩ ∈ s.seen := by
  intro h
  have hseen := h emptyRoot [ascii "r"] 2 _ _ nestedMkdirs rfl rfl rfl rfl rfl
    [ascii "r", ascii "a", ascii "b"] (by decide)
  revert hseen
  decide

theorem all_reported_iff_nested :
    ∃ s₀ s, (Sys.start emptyRoot.tree).watch [ascii "r"] = some s₀ ∧
      run (step [ascii "r"]) s₀ nestedMkdirs = some s ∧
      ((∀ p ∈ created nestedMkdirs, ⟨.added, p⟩ ∈ s.seen) ↔
        Along (step [ascii "r"]) MakesInWatched s₀ nestedMkdirs) :=
  ⟨_, _, rfl, rfl, all_reported_iff emptyRoot [ascii "r"] 2 _ _ nestedMkdirs rfl rfl rfl rfl rfl⟩

end CommonCpp.Monitor
