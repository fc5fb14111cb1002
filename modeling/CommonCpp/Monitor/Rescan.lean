import CommonCpp.Fs.Crawl
import CommonCpp.Monitor.CatchUp
import CommonCpp.Monitor.Mirror

/-!
# Listing the root afresh

Some creations are never reported. A listener can do without: it takes a call of
`onchange` only as a sign that something happened, and lists the root anew. The
application lists it once when its `watch` has returned; the two take turns.

Such a listing takes a while, and the other thread and other processes go on
during it. What makes it right all the same is the order of the calls of
`_read_async`: `watch` comes before `onchange`. So what a listing misses was made
in a directory that is watched by then, and there is another listing to come,
unless the directory is one that no call of `watch` is ever going to reach.
-/

namespace CommonCpp.Monitor

open CommonCpp.Fs CommonCpp.Lib

/-- Who lists the root: the listener in a call of `onchange`, or the application once
`watch` has returned. -/
inductive Looker where
  | listener
  | application
deriving DecidableEq

/-- The monitor with a listener that keeps a list of what is under the root. -/
structure Rescan where
  sys : Sys
  /-- The application has not begun its listing yet. -/
  due : Bool
  /-- The listing in progress. -/
  look : Option (Looker × Crawl)
  /-- What the last listing came to. -/
  known : List Path

/-- The application has called `watch(root)` and nothing has happened since. -/
def Rescan.called (fs : Entry) (root : Path) : Rescan := ⟨Sys.called fs root, true, none, []⟩

inductive RescanAct where
  | sys (a : Act)
  /-- `paths{root}; find_files(root, paths, true, 0)` is called. -/
  | begins (w : Looker)
  | pull (l : Pull)
  /-- It has returned, and its vector is kept; the listener returns from `onchange`. -/
  | ends
deriving DecidableEq

/-- The reader is in a call of `onchange`. -/
def Sys.reporting (s : Sys) : Bool :=
  match s.reader with
  | .notify _ => true
  | .idle | .taken _ | .watching .. | .terminated => false

def rescanStep (root : Path) (k : Rescan) : RescanAct → Option Rescan
  | .sys a =>
    -- the call of `onchange` ends when the listener is through
    if a = .reader ∧ k.sys.reporting = true then none
    else (step root k.sys a).map fun s => { k with sys := s }
  | .begins .listener =>
    if k.look.isNone ∧ k.sys.reporting = true then
      some { k with look := some (.listener, .start root) }
    else none
  | .begins .application =>
    if k.look.isNone ∧ k.due = true ∧ k.sys.main = none then
      some { k with due := false, look := some (.application, .start root) }
    else none
  | .pull l => k.look.bind fun (w, c) =>
    (c.step 0 k.sys.fs l).map fun c => { k with look := some (w, c) }
  | .ends => k.look.bind fun (w, c) =>
    if c.stack.isEmpty then
      (if w = .listener then step root k.sys .reader else some k.sys).map fun s =>
        { k with sys := s, look := none, known := c.files }
    else none

/-- Nothing is left to do: neither to the monitor nor to the two that list. -/
structure Rescan.AtRest (k : Rescan) : Prop where
  sys : k.sys.AtRest
  due : k.due = false
  look : k.look = none

/-- The list has what `find_files` lists now. -/
def Rescan.Right (root : Path) (k : Rescan) : Prop :=
  ∃ now, snapshot k.sys.fs root = some now ∧ ∀ p, p ∈ k.known ↔ p ∈ now

/-- No directory is made inside one that is listed by `watch` and not yet watched. -/
def KeepsReach (k : Rescan) : RescanAct → Prop
  | .sys a => MakesInRegistered k.sys a
  | .begins _ | .pull _ | .ends => True

/-- Nobody makes anything, and `readdir` gives nothing it need not give. -/
def RescanAct.Works : RescanAct → Prop
  | .sys a => a.makes = none
  | .pull (.late _) => False
  | .begins _ | .pull .next | .ends => True

variable {root : Path} {k k' : Rescan} {a : RescanAct}

/-! ## What a step does -/

/-- What can happen. -/
inductive RescanDoes (root : Path) (k : Rescan) : RescanAct → Rescan → Prop where
  | sys {a : Act} {s : Sys} (ha : ¬ (a = .reader ∧ k.sys.reporting = true))
      (hs : step root k.sys a = some s) : RescanDoes root k (.sys a) { k with sys := s }
  | listener {c : Change Path} (hl : k.look = none) (hr : k.sys.reader = .notify c) :
      RescanDoes root k (.begins .listener) { k with look := some (.listener, .start root) }
  | application (hl : k.look = none) (hd : k.due = true) (hm : k.sys.main = none) :
      RescanDoes root k (.begins .application)
        { k with due := false, look := some (.application, .start root) }
  | pull {w : Looker} {c c' : Crawl} {l : Pull} (hl : k.look = some (w, c))
      (hc : c.step 0 k.sys.fs l = some c') :
      RescanDoes root k (.pull l) { k with look := some (w, c') }
  | returns {c : Crawl} {s : Sys} (hl : k.look = some (.listener, c)) (hc : c.stack = [])
      (hs : step root k.sys .reader = some s) :
      RescanDoes root k .ends { k with sys := s, look := none, known := c.files }
  | keeps {c : Crawl} (hl : k.look = some (.application, c)) (hc : c.stack = []) :
      RescanDoes root k .ends { k with look := none, known := c.files }

theorem reporting_iff {s : Sys} : s.reporting = true ↔ ∃ c, s.reader = .notify c := by
  unfold Sys.reporting
  cases s.reader <;> simp

theorem rescanStep_does (h : rescanStep root k a = some k') : RescanDoes root k a k' := by
  cases a with
  | sys a =>
    rw [rescanStep] at h
    split at h
    · cases h
    · next ha =>
      obtain ⟨s, hs, rfl⟩ := Option.map_eq_some_iff.mp h
      exact .sys ha hs
  | begins w =>
    cases w with
    | listener =>
      rw [rescanStep] at h
      split at h
      · next hif =>
        obtain ⟨hl, hr⟩ := hif
        obtain ⟨c, hc⟩ := reporting_iff.mp hr
        cases h
        exact .listener (Option.isNone_iff_eq_none.mp hl) hc
      · cases h
    | application =>
      rw [rescanStep] at h
      split at h
      · next hif =>
        obtain ⟨hl, hd, hm⟩ := hif
        cases h
        exact .application (Option.isNone_iff_eq_none.mp hl) hd hm
      · cases h
  | pull l =>
    obtain ⟨⟨w, c⟩, hl, h⟩ := Option.bind_eq_some_iff.mp h
    obtain ⟨c', hc, rfl⟩ := Option.map_eq_some_iff.mp h
    exact .pull hl hc
  | ends =>
    obtain ⟨⟨w, c⟩, hl, h⟩ := Option.bind_eq_some_iff.mp h
    dsimp only at h
    split at h
    · next hc =>
      have hc : c.stack = [] := List.isEmpty_iff.mp hc
      obtain ⟨s, hs, rfl⟩ := Option.map_eq_some_iff.mp h
      cases w with
      | listener => exact .returns hl hc hs
      | application =>
        cases hs
        exact .keeps hl hc
    · cases h

/-! ## The invariant -/

/-- What holds in every state. -/
structure RescanInv (root : Path) (k : Rescan) : Prop where
  sys : Tracked root k.sys
  /-- Nobody lists for the application before its `watch` has returned. -/
  due : k.due = false → k.sys.main = none
  fits : ∀ {w c}, k.look = some (w, c) → c.Fits root k.sys.fs
  asking : ∀ {c}, k.look = some (.listener, c) → ∃ ch, k.sys.reader = .notify ch
  known : ∀ q ∈ k.known, q ∈ shown root k.sys.fs

/-- What was there is there after a step, and is what it was. -/
theorem stat_stays {s s' : Sys} {a : Act} (hI : Inv root s) (h : step root s a = some s')
    {p : Path} {node : Node} (hp : s.fs.stat p = some node) : s'.fs.stat p = some node := by
  rcases fs_step hI h with ⟨-, hfs⟩ | ⟨dir, n, new, -, habsent, hstat⟩
  · rw [hfs, hp]
  · have hne : p ≠ dir ++ [n] := by
      rintro rfl
      cases habsent.symm.trans hp
    rw [hstat, if_neg hne, hp]

/-- A step of the monitor leaves what is known and what is being listed in order. -/
theorem RescanInv.move (h : RescanInv root k) {a : Act} {s : Sys} {due : Bool}
    {look : Option (Looker × Crawl)} {known : List Path} (hs : step root k.sys a = some s)
    (hdue : due = false → s.main = none)
    (hlook : ∀ {w c}, look = some (w, c) → c.Fits root k.sys.fs)
    (hasking : ∀ {c}, look = some (.listener, c) → ∃ ch, s.reader = .notify ch)
    (hknown : ∀ q ∈ known, q ∈ shown root k.sys.fs) :
    RescanInv root ⟨s, due, look, known⟩ := by
  have hkeep : ∀ {p node}, k.sys.fs.stat p = some node → s.fs.stat p = some node :=
    stat_stays h.sys.1 hs
  refine ⟨tracked_step h.sys hs, hdue, fun hl => (hlook hl).mono hkeep, hasking, fun q hq => ?_⟩
  obtain ⟨hroot, hsome⟩ := hknown q hq
  obtain ⟨node, hnode⟩ := Option.isSome_iff_exists.mp hsome
  exact ⟨hroot, Option.isSome_of_eq_some (hkeep hnode)⟩

/-- A step that is not the reader's leaves it alone. -/
theorem reader_stays {s s' : Sys} {a : Act} (ha : a ≠ .reader) (hI : Inv root s)
    (h : step root s a = some s') : s'.reader = s.reader := by
  rcases step_cases h with ⟨dir, n, new, mask, -, hm⟩ | ⟨-, hm⟩ | ⟨rfl, -⟩
  · exact hm.threads.2.1
  · cases hm with
    | add hm hadd =>
      obtain ⟨i, wd, -, hreg⟩ := (hI.main _ hm _ (List.mem_cons_self ..)).registered hadd
      exact hreg.reader
    | _ => rfl
  · exact absurd rfl ha

/-- Nobody calls `watch` for the application again. -/
theorem main_stays {s s' : Sys} {a : Act} (hm : s.main = none) (h : step root s a = some s') :
    s'.main = none := by
  rcases step_cases h with ⟨dir, n, new, mask, -, hmade⟩ | ⟨-, hd⟩ | ⟨-, hd⟩
  · rw [hmade.threads.1, hm]
  · cases hd with
    | list hm' | add hm' | leave hm' | die hm' => cases hm.symm.trans hm'
  · cases hd with
    | add hr hadd =>
      obtain ⟨i, wd, -, hreg⟩ := register_cases hadd
      exact hreg.main.trans hm
    | _ => exact hm

theorem rescan_inv (h : RescanInv root k) (hk : rescanStep root k a = some k') :
    RescanInv root k' := by
  have hI := h.sys.1
  obtain ⟨i, hi⟩ := hI.table.rootDir
  cases rescanStep_does hk with
  | @sys a s ha hs =>
    refine h.move hs (fun hd => main_stays (h.due hd) hs) h.fits (fun hl => ?_) h.known
    obtain ⟨ch, hr⟩ := h.asking hl
    have hne : a ≠ .reader := fun hreader => ha ⟨hreader, reporting_iff.mpr ⟨ch, hr⟩⟩
    exact ⟨ch, (reader_stays hne hI hs).trans hr⟩
  | @listener ch hl hr =>
    refine ⟨h.sys, h.due, fun hl => ?_, fun _ => ⟨ch, hr⟩, h.known⟩
    cases hl
    exact (start_has hi).1
  | application hl hd hm =>
    refine ⟨h.sys, fun _ => hm, fun hl => ?_, fun hl => ?_, h.known⟩
    · cases hl
      exact (start_has hi).1
    · cases hl
  | pull hl hc =>
    refine ⟨h.sys, h.due, fun hl' => ?_, fun hl' => ?_, h.known⟩
    · cases hl'
      exact step_fits hI.table.wf (h.fits hl) hc
    · cases hl'
      exact h.asking hl
  | returns hl hc hs =>
    exact h.move hs (fun hd => main_stays (h.due hd) hs) nofun nofun (h.fits hl).files
  | keeps hl hc => exact ⟨h.sys, h.due, nofun, nofun, (h.fits hl).files⟩

/-! ## What the last listing misses is not there -/

/-- No listing is still to begin: only the one in progress, if there is one. -/
structure Rescan.NoneAhead (k : Rescan) : Prop where
  due : k.due = false
  queue : k.sys.queue = []
  reader : k.sys.reader = .idle ∨
    ∃ ch c, k.sys.reader = .notify ch ∧ k.look = some (.listener, c)

/-- The path is on the list, or will be when the listing in progress has ended. -/
def Rescan.Learns (k : Rescan) (q : Path) : Prop :=
  k.look = none ∧ q ∈ k.known ∨ ∃ w c, k.look = some (w, c) ∧ c.Has q

/-- If no listing is still to begin, the one in progress, or the last one, has it all. -/
def UpToDate (root : Path) (k : Rescan) : Prop :=
  k.NoneAhead → ∀ q ∈ shown root k.sys.fs, k.Learns q

/-- Every directory is held by a call of `watch`, or will be. -/
def Reached (root : Path) (k : Rescan) : Prop :=
  Cover.Covered (fun p q => p <+: q) (view root k.sys)

/-- With no listing ahead, no call of `watch` is in progress and nothing is to be taken. -/
theorem quiet {s : Sys} (hmain : s.main = none) (hqueue : s.queue = [])
    (hreader : s.reader = .idle ∨ ∃ ch, s.reader = .notify ch) :
    (view root s).held ⊆ (view root s).watched ∧ (view root s).upcoming = [] := by
  have hnot : ∀ c call, s.reader ≠ .watching c call := by
    intro c call hr
    rcases hreader with h | ⟨ch, h⟩ <;> cases h.symm.trans hr
  refine ⟨held_quiet hmain hnot, ?_⟩
  show s.heard.filter _ = []
  rw [heard_quiet hqueue hmain]
  rcases hreader with h | ⟨ch, h⟩ <;> rw [h] <;> rfl

/-- What is made then is made in a watched directory, and reported. -/
theorem made_queued {s s' : Sys} {dir : Path} {n : Name} {new : Entry} {mask : UInt32}
    (hcov : Cover.Covered (fun p q => p <+: q) (view root s)) (hmain : s.main = none)
    (hreader : s.reader = .idle ∨ ∃ ch, s.reader = .notify ch)
    (h : Made root s dir n new mask s') : s'.queue ≠ [] := by
  intro hempty
  obtain ⟨ino, hino, hq⟩ := h.queue
  rw [hempty] at hq
  obtain ⟨hqueue, hnone⟩ := List.append_eq_nil_iff.mp hq.symm
  obtain ⟨hheld, hup⟩ := quiet hmain hqueue hreader
  refine hcov dir ⟨⟨h.below, ino, hino⟩, fun hin => ?_, fun u hu => ?_⟩
  · obtain ⟨j, wd, hj, hw⟩ := hheld hin
    cases Option.some.inj (hino.symm.trans hj)
    rw [hw] at hnone
    cases hnone
  · rw [hup] at hu
    cases hu

/-- Without a listing ahead, only a creation can bring one about. -/
theorem noneAhead_of_step {s : Sys} {b : Act} (h : RescanInv root k) (hcov : Reached root k)
    (hb : ¬ (b = .reader ∧ k.sys.reporting = true)) (hs : step root k.sys b = some s)
    (hnone : ({ k with sys := s } : Rescan).NoneAhead) : False := by
  have hmain : k.sys.main = none := h.due hnone.due
  rcases step_cases hs with ⟨dir, n, new, mask, -, hmade⟩ | ⟨-, hd⟩ | ⟨rfl, hd⟩
  · refine made_queued hcov hmain ?_ hmade hnone.queue
    rw [← hmade.threads.2.1]
    rcases hnone.reader with hr | ⟨ch, c, hr, -⟩
    · exact Or.inl hr
    · exact Or.inr ⟨ch, hr⟩
  · cases hd with
    | list hm | add hm | leave hm | die hm => cases hmain.symm.trans hm
  · -- whoever lists for the listener does so in a call of `onchange`
    have hlook : ∀ {c}, k.look = some (.listener, c) → False := by
      intro c hl
      exact hb ⟨rfl, reporting_iff.mpr (h.asking hl)⟩
    rcases hnone.reader with hr | ⟨ch, c, -, hl⟩
    · cases hd with
      | notify hn => exact hb ⟨rfl, reporting_iff.mpr ⟨_, hn⟩⟩
      | take | enter | pass | list | add | leave | die => cases hr
    · exact hlook hl

/-- `onchange` returns. -/
theorem step_notify {s s' : Sys} {ch : Change Path} (hr : s.reader = .notify ch)
    (hs : step root s .reader = some s') :
    s' = { s with reader := .idle, seen := s.seen ++ [ch] } := by
  rw [step, Sys.readerStep, hr] at hs
  exact (Option.some.inj hs).symm

/-- A listing that has ended has what it was going to have. -/
theorem Rescan.Learns.listed {w : Looker} {c : Crawl} {q : Path} (h : k.Learns q)
    (hl : k.look = some (w, c)) (hc : c.stack = []) : q ∈ c.files := by
  rcases h with ⟨hl', -⟩ | ⟨w', d, hl', hhas⟩
  · cases hl.symm.trans hl'
  · cases hl.symm.trans hl'
    rcases hhas with hq | ⟨x, hx, -⟩
    · exact hq
    · rw [hc] at hx
      cases hx

theorem upToDate_step (h : RescanInv root k) (hcov : Reached root k) (hup : UpToDate root k)
    (hk : rescanStep root k a = some k') : UpToDate root k' := by
  have hI := h.sys.1
  obtain ⟨i, hi⟩ := hI.table.rootDir
  intro hnone q hq
  cases rescanStep_does hk with
  | sys hb hs => exact (noneAhead_of_step h hcov hb hs hnone).elim
  | listener hl hr => exact Or.inr ⟨_, _, rfl, (start_has hi).2 q hq.1⟩
  | application hl hd hm => exact Or.inr ⟨_, _, rfl, (start_has hi).2 q hq.1⟩
  | @pull w c c' l hl hc =>
    have hbefore : k.NoneAhead := by
      refine ⟨hnone.due, hnone.queue, ?_⟩
      rcases hnone.reader with hr | ⟨ch, d, hr, hl'⟩
      · exact Or.inl hr
      · cases hl'
        exact Or.inr ⟨ch, c, hr, hl⟩
    obtain ⟨node, hnode⟩ := Option.isSome_iff_exists.mp hq.2
    have hw : wants 0 node = true := by cases node <;> rfl
    rcases hup hbefore q hq with ⟨hl', -⟩ | ⟨w', d, hl', hhas⟩
    · cases hl.symm.trans hl'
    · cases hl.symm.trans hl'
      exact Or.inr ⟨w, c', rfl, step_has (h.fits hl) hc hnode hw hhas⟩
  | @returns c s hl hc hs =>
    obtain ⟨ch, hr⟩ := h.asking hl
    cases step_notify hr hs
    have hbefore : k.NoneAhead := ⟨hnone.due, hnone.queue, Or.inr ⟨ch, c, hr, hl⟩⟩
    exact Or.inl ⟨rfl, (hup hbefore q hq).listed hl hc⟩
  | @keeps c hl hc =>
    have hbefore : k.NoneAhead := by
      refine ⟨hnone.due, hnone.queue, ?_⟩
      rcases hnone.reader with hr | ⟨ch, d, -, hl'⟩
      · exact Or.inl hr
      · cases hl'
    exact Or.inl ⟨rfl, (hup hbefore q hq).listed hl hc⟩

/-! ## Runs -/

/-- A step keeps every directory within reach exactly if it makes none inside one that is
listed and not registered. -/
theorem reached_step (h : RescanInv root k) (hk : rescanStep root k a = some k') :
    Reached root k' ↔ Reached root k ∧ KeepsReach k a := by
  cases rescanStep_does hk with
  | sys hb hs => exact tracked_covered h.sys hs
  | returns hl hc hs =>
    have hkeeps : MakesInRegistered k.sys .reader := nofun
    have hiff := tracked_covered h.sys hs
    rw [and_iff_left hkeeps] at hiff
    exact hiff.trans (and_iff_left trivial).symm
  | listener | application | pull | keeps => exact (and_iff_left trivial).symm

theorem called_inv {fs : FileSystem} {i : Ino} (h : fs.tree.stat root = some (.dir i)) :
    RescanInv root (.called fs.tree root) ∧ Reached root (.called fs.tree root) ∧
      UpToDate root (.called fs.tree root) := by
  obtain ⟨ht, hcov⟩ := called_tracked h
  exact ⟨⟨ht, nofun, nofun, nofun, nofun⟩, hcov, fun hnone => by cases hnone.due⟩

theorem reached_iff {acts : List RescanAct} (h : RescanInv root k)
    (hrun : run (rescanStep root) k acts = some k') :
    Reached root k' ↔ Reached root k ∧ Along (rescanStep root) KeepsReach k acts :=
  run_along_iff rescan_inv reached_step h hrun

/-- As long as every directory stays within reach, the list is right at every rest. -/
theorem run_upToDate {acts : List RescanAct} (h : RescanInv root k) (hcov : Reached root k)
    (hup : UpToDate root k) (hal : Along (rescanStep root) KeepsReach k acts)
    (hrun : run (rescanStep root) k acts = some k') :
    RescanInv root k' ∧ Reached root k' ∧ UpToDate root k' := by
  have hstep : ∀ {k a k'}, RescanInv root k ∧ Reached root k ∧ UpToDate root k → KeepsReach k a →
      rescanStep root k a = some k' →
      RescanInv root k' ∧ Reached root k' ∧ UpToDate root k' := by
    intro k a k' hI hc hs
    obtain ⟨h, hcov, hup⟩ := hI
    exact ⟨rescan_inv h hs, (reached_step h hs).mpr ⟨hcov, hc⟩, upToDate_step h hcov hup hs⟩
  exact run_invariant_along hstep ⟨h, hcov, hup⟩ hal hrun

theorem RescanInv.right (h : RescanInv root k) (hup : UpToDate root k) (hrest : k.AtRest) :
    k.Right root := by
  obtain ⟨i, hi⟩ := h.sys.1.table.rootDir
  obtain ⟨now, hnow, hmem⟩ := mem_snapshot h.sys.1.table.wf hi
  refine ⟨now, hnow, fun p => ?_⟩
  rw [hmem]
  constructor
  · exact h.known p
  · intro hp
    have hnone : k.NoneAhead := ⟨hrest.due, hrest.sys.queue, Or.inl hrest.sys.reader⟩
    rcases hup hnone p hp with ⟨-, hq⟩ | ⟨w, c, hl, -⟩
    · exact hq
    · cases hrest.look.symm.trans hl

/-! ## It comes to rest -/

/-- What is left of the listing in progress, its return included. -/
def Rescan.looking (k : Rescan) : Nat := k.look.elim 0 fun x => x.2.left k.sys.fs + 1

/-- A call of `onchange` has begun its listing. -/
def Rescan.asked (k : Rescan) : Nat := k.look.elim 0 fun x => if x.1 = .listener then 1 else 0

/-- How many more listings may begin, and steps of the monitor be taken. -/
def Rescan.rounds (k : Rescan) : Nat := 2 * k.sys.work + (if k.due then 1 else 0) - k.asked

/-- The steps left at most, if nothing is made any more. -/
def Rescan.effort (root : Path) (k : Rescan) : Nat :=
  k.rounds * (k.sys.fs.rounds root + 3) + k.looking

theorem effort_lt {m m' l l' n : Nat} (hm : m' < m) (hl : l' ≤ l + n + 2) :
    m' * (n + 3) + l' < m * (n + 3) + l := by
  have hle : (m' + 1) * (n + 3) ≤ m * (n + 3) := Nat.mul_le_mul_right _ hm
  rw [Nat.succ_mul] at hle
  omega

theorem work_pos {s : Sys} {ch : Change Path} (hr : s.reader = .notify ch) : 0 < s.work := by
  unfold Sys.work
  rw [hr, Reader.work]
  omega

theorem effort_step (h : RescanInv root k) (ha : a.Works) (hk : rescanStep root k a = some k') :
    k'.effort root < k.effort root := by
  have hI := h.sys.1
  obtain ⟨i, hi⟩ := hI.table.rootDir
  have hstart : (Crawl.start root).left k.sys.fs = k.sys.fs.rounds root := by
    simp [Crawl.left, Crawl.start, Item.left]
  unfold Rescan.effort
  cases rescanStep_does hk with
  | @sys b s hb hs =>
    -- a step of the monitor leaves the tree as it is and has less work after it
    have hwork := work_step hI ha hs
    have hfs : s.fs = k.sys.fs := by
      rcases fs_step hI hs with ⟨-, hfs⟩ | ⟨dir, n, node, hmakes, -⟩
      · exact hfs
      · cases hmakes.symm.trans ha
    have hasked : k.asked ≤ 1 := by
      unfold Rescan.asked
      cases k.look with
      | none => exact Nat.zero_le _
      | some x =>
        rw [Option.elim_some]
        split <;> omega
    have hrounds : ({ k with sys := s } : Rescan).rounds < k.rounds := by
      show 2 * s.work + (if k.due then 1 else 0) - k.asked
        < 2 * k.sys.work + (if k.due then 1 else 0) - k.asked
      omega
    have hlooking : ({ k with sys := s } : Rescan).looking = k.looking := by
      show k.look.elim 0 (fun x => x.2.left s.fs + 1) = _
      rw [hfs, Rescan.looking]
    rw [hlooking]
    show _ * (s.fs.rounds root + 3) + _ < _
    rw [hfs]
    exact effort_lt hrounds (by omega)
  | listener hl hr =>
    -- the listing it begins counts against the work the monitor still has
    have hpos := work_pos hr
    refine effort_lt ?_ ?_
    · simp only [Rescan.rounds, Rescan.asked, hl, Option.elim_some, Option.elim_none, if_pos]
      omega
    · simp only [Rescan.looking, hl, Option.elim_some, Option.elim_none, hstart]
      omega
  | application hl hd hm =>
    -- a round that was due is under way
    refine effort_lt ?_ ?_
    · simp [Rescan.rounds, Rescan.asked, hl, hd]
    · simp only [Rescan.looking, hl, Option.elim_some, Option.elim_none, hstart]
      omega
  | @pull w c c' l hl hc =>
    cases l with
    | late n => exact ha.elim
    | next =>
      -- as many rounds, but less left of this listing
      have hleft := step_left hI.table.wf (h.fits hl) hc
      have hrounds : ({ k with look := some (w, c') } : Rescan).rounds = k.rounds := by
        simp only [Rescan.rounds, Rescan.asked, hl, Option.elim_some]
      rw [hrounds]
      simp only [Rescan.looking, hl, Option.elim_some]
      omega
  | @returns c s hl hc hs =>
    -- `onchange` returns, and the monitor goes on
    obtain ⟨ch, hr⟩ := h.asking hl
    have hwork : s.work < k.sys.work := work_step hI rfl hs
    cases step_notify hr hs
    refine effort_lt ?_ ?_
    · simp only [Rescan.rounds, Rescan.asked, hl, Option.elim_some, Option.elim_none, if_pos]
      omega
    · simp only [Rescan.looking, hl, Option.elim_some, Option.elim_none]
      omega
  | keeps hl hc =>
    have hrounds : ∀ known, (⟨k.sys, k.due, none, known⟩ : Rescan).rounds = k.rounds := by
      intro known
      simp [Rescan.rounds, Rescan.asked, hl]
    rw [hrounds]
    simp only [Rescan.looking, hl, Option.elim_some, Option.elim_none]
    omega

/-- A listing that has been begun can go on, or be kept. -/
theorem look_goes_on (h : RescanInv root k) (hl : k.look ≠ none) :
    ∃ a, a.Works ∧ rescanStep root k a ≠ none := by
  obtain ⟨⟨w, c⟩, hl⟩ := Option.ne_none_iff_exists'.mp hl
  by_cases hc : c.stack = []
  · refine ⟨.ends, trivial, ?_⟩
    rw [rescanStep, hl, Option.bind_some]
    dsimp only
    rw [hc, List.isEmpty_nil, if_pos rfl]
    cases w with
    | application => exact Option.some_ne_none _
    | listener =>
      obtain ⟨ch, hr⟩ := h.asking hl
      rw [if_pos rfl, step, Sys.readerStep, hr]
      exact Option.some_ne_none _
  · refine ⟨.pull .next, trivial, ?_⟩
    have hsome : (c.step 0 k.sys.fs .next).isSome = true := next_isSome (h.fits hl) hc
    obtain ⟨c', hc'⟩ := Option.isSome_iff_exists.mp hsome
    rw [rescanStep, hl, Option.bind_some]
    dsimp only
    rw [hc']
    exact Option.some_ne_none _

/-- Nothing is stuck, and no listing throws, before all is done. -/
theorem rescan_rest_iff (h : RescanInv root k) :
    (∀ a, a.Works → rescanStep root k a = none) ↔ k.AtRest := by
  constructor
  · intro hstuck
    have hlook : k.look = none := by
      by_contra hl
      obtain ⟨a, ha, hk⟩ := look_goes_on h hl
      exact hk (hstuck a ha)
    have hnot : k.sys.reporting = false := by
      cases hr : k.sys.reporting with
      | false => rfl
      | true =>
        have hbegin := hstuck (.begins .listener) trivial
        rw [rescanStep, hlook, hr, if_pos ⟨rfl, rfl⟩] at hbegin
        cases hbegin
    have hsys : k.sys.AtRest := by
      refine (atRest_iff h.sys.1).mp fun b hb => ?_
      have hnone := hstuck (.sys b) hb
      rw [rescanStep, hnot, if_neg (fun hb => by cases hb.2)] at hnone
      exact Option.map_eq_none_iff.mp hnone
    refine ⟨hsys, ?_, hlook⟩
    cases hd : k.due with
    | false => rfl
    | true =>
      have hbegin := hstuck (.begins .application) trivial
      rw [rescanStep, hlook, hd, hsys.main, if_pos ⟨rfl, rfl, rfl⟩] at hbegin
      cases hbegin
  · intro hrest a ha
    cases a with
    | sys b =>
      have hnone : step root k.sys b = none := (atRest_iff h.sys.1).mpr hrest.sys b ha
      rw [rescanStep, hnone]
      split <;> rfl
    | begins w =>
      cases w with
      | listener =>
        have hnot : k.sys.reporting = false := by rw [Sys.reporting, hrest.sys.reader]
        rw [rescanStep, hnot, if_neg (fun hb => by cases hb.2)]
      | application => rw [rescanStep, hrest.due, if_neg (fun hb => by cases hb.2.1)]
    | pull l => rw [rescanStep, hrest.look, Option.bind_none]
    | ends => rw [rescanStep, hrest.look, Option.bind_none]

/-! ## A directory out of reach -/

/-- In every directory a name is free. -/
theorem exists_free_name (d : Dir) : ∃ n, isDot n = false ∧ d.get n = none := by
  have hbound : ∃ b, ∀ n, d.get n ≠ none → n.length ≤ b := by
    induction d using Dir.cons_induction with
    | nil => exact ⟨0, fun n hn => absurd rfl hn⟩
    | cons m e rest ih =>
      obtain ⟨b, hb⟩ := ih
      refine ⟨max m.length b, fun n hn => ?_⟩
      rw [get_cons] at hn
      split at hn
      · next hmn =>
        rw [← hmn]
        exact Nat.le_max_left _ _
      · exact Nat.le_trans (hb n hn) (Nat.le_max_right _ _)
  obtain ⟨b, hb⟩ := hbound
  have hlen : (List.replicate (b + 3) (97 : UInt8)).length = b + 3 := List.length_replicate
  refine ⟨List.replicate (b + 3) 97, ?_, ?_⟩
  · simp [isDot, ascii, List.replicate_succ]
  · by_contra hn
    have hle := hb _ hn
    omega

/-- An inode number is free. -/
theorem exists_free_ino (inos : List Ino) : ∃ i, i ∉ inos := by
  have hbound : ∃ b, ∀ i ∈ inos, i ≤ b := by
    induction inos with
    | nil => exact ⟨0, nofun⟩
    | cons j inos ih =>
      obtain ⟨b, hb⟩ := ih
      refine ⟨max j b, List.forall_mem_cons.mpr ⟨Nat.le_max_left _ _, fun i hi => ?_⟩⟩
      exact Nat.le_trans (hb i hi) (Nat.le_max_right _ _)
  obtain ⟨b, hb⟩ := hbound
  exact ⟨b + 1, fun hin => Nat.not_succ_le_self b (hb _ hin)⟩

/-- A file made in a directory without a watch is noticed by nobody. -/
theorem made_unnoticed {s : Sys} {d : Path} {i : Ino} (hroot : root <+: d)
    (hd : s.fs.stat d = some (.dir i)) (hw : s.wdOf i = none) :
    ∃ b n fs', (∀ dir pos n ino, b ≠ .mkdir dir pos n ino) ∧
      step root s b = some { s with fs := fs' } ∧
      s.fs.stat (d ++ [n]) = none ∧ (fs'.stat (d ++ [n])).isSome := by
  obtain ⟨sub, hfind⟩ := stat_dir_iff.mp hd
  obtain ⟨n, hn, hfree⟩ := exists_free_name sub
  obtain ⟨ino, hino⟩ := exists_free_ino s.fs.inos
  have habsent : s.fs.find (d ++ [n]) = none := by
    rw [find_append, hfind, Option.bind_some, find_dir_cons, hn, hfree]
    rfl
  refine ⟨.create d 0 n ino, n, s.fs.addAt d 0 n (.leaf ino none), nofun, ?_, ?_, ?_⟩
  · rw [step, if_pos ⟨hroot, hino⟩, Sys.make, dirAt_eq_some.mpr hfind]
    dsimp only
    rw [if_pos ⟨hn, habsent⟩, Sys.emit, hw]
  · rw [Entry.stat, habsent]
    rfl
  · rw [stat_addAt hfind hn habsent, if_pos (List.prefix_refl _)]
    have hdrop : (d ++ [n]).drop (d.length + 1) = [] := by
      rw [List.drop_eq_nil_iff, List.length_append, List.length_singleton]
    rw [hdrop]
    rfl

/-- What can be made outside `watch`'s hands keeps every directory as near as it was. -/
theorem along_of_forall {acts : List RescanAct}
    (h : ∀ a ∈ acts, ∀ dir pos n ino, a ≠ .sys (.mkdir dir pos n ino)) (k : Rescan) :
    Along (rescanStep root) KeepsReach k acts := by
  induction acts generalizing k with
  | nil => trivial
  | cons a acts ih =>
    obtain ⟨ha, hacts⟩ := List.forall_mem_cons.mp h
    refine ⟨?_, fun s' _ => ih hacts s'⟩
    cases a with
    | sys b =>
      intro dir pos n ino hb
      exact absurd (congrArg RescanAct.sys hb) (ha dir pos n ino)
    | begins | pull | ends => trivial

/-- Once a directory is out of reach, the list can come to be wrong for good. -/
theorem goes_wrong (h : RescanInv root k) (hnot : ¬ Reached root k) :
    ∃ more k', run (rescanStep root) k more = some k' ∧
      Along (rescanStep root) KeepsReach k more ∧ k'.AtRest ∧ ¬ k'.Right root := by
  -- first everything comes to rest, which brings nothing back
  obtain ⟨bs, k₁, hbs, hrun, hend⟩ := exists_run_to_rest rescan_inv effort_step h
  have h₁ : RescanInv root k₁ := run_invariant rescan_inv h hrun
  have hrest : k₁.AtRest := (rescan_rest_iff h₁).mp hend
  have hnot₁ : ¬ Reached root k₁ := fun hreached => hnot ((reached_iff h hrun).mp hreached).1
  obtain ⟨d, hlost⟩ := Classical.not_forall.mp hnot₁
  obtain ⟨⟨hroot, i, hi⟩, hheld, -⟩ := Classical.not_not.mp hlost
  have hw : k₁.sys.wdOf i = none := by
    cases hw : k₁.sys.wdOf i with
    | none => rfl
    | some wd => exact absurd (Or.inl ⟨i, wd, hi, hw⟩) hheld
  -- then a file is made in there
  obtain ⟨b, n, fs', hb, hstep, habsent, hthere⟩ := made_unnoticed hroot hi hw
  have hidle : k₁.sys.reporting = false := by rw [Sys.reporting, hrest.sys.reader]
  have hmake : rescanStep root k₁ (.sys b) = some { k₁ with sys := { k₁.sys with fs := fs' } } := by
    rw [rescanStep, hidle, if_neg (fun hr => by cases hr.2), hstep]
    rfl
  have h₂ := rescan_inv h₁ hmake
  refine ⟨bs ++ [.sys b], { k₁ with sys := { k₁.sys with fs := fs' } },
    run_append_eq_some.mpr ⟨k₁, hrun, run_cons_eq_some.mpr ⟨_, hmake, rfl⟩⟩,
    along_of_forall (fun a ha dir pos m ino hmk => ?_) k,
    ⟨⟨hrest.sys.main, hrest.sys.reader, hrest.sys.queue⟩, hrest.due, hrest.look⟩, ?_⟩
  · rcases List.mem_append.mp ha with ha | ha
    · have hworks := hbs a ha
      rw [hmk] at hworks
      cases hworks
    · rw [hmk] at ha
      cases List.mem_singleton.mp ha
      exact hb dir pos m ino rfl
  · intro hright
    obtain ⟨now, hnow, hknown⟩ := hright
    obtain ⟨j, hj⟩ := h₂.sys.1.table.rootDir
    obtain ⟨now', hnow', hmem⟩ := mem_snapshot h₂.sys.1.table.wf hj
    cases Option.some.inj (hnow.symm.trans hnow')
    have hnew : d ++ [n] ∈ now :=
      (hmem _).mpr ⟨hroot.trans (List.prefix_append _ _), hthere⟩
    have hold := (h₁.known _ ((hknown _).mpr hnew)).2
    rw [habsent] at hold
    cases hold

/-- `r/a` is made when the application has opened `r`, and `r/a/b` in it before the reader
gets to `r/a`: it is never reported, and the listing in the call of `onchange` has it. -/
def listedMeanwhile : List RescanAct :=
  List.replicate 3 (.sys .main) ++ [.begins .application, .pull .next,
    .sys (.mkdir [ascii "r"] 0 (ascii "a") 3),
    .sys (.mkdir [ascii "r", ascii "a"] 0 (ascii "b") 4)] ++
  List.replicate 6 (.sys .reader) ++ [.pull .next, .ends, .begins .listener] ++
  List.replicate 8 (.pull .next) ++ [.ends]

end CommonCpp.Monitor
