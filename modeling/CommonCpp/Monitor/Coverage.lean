import CommonCpp.Lib.Cover
import CommonCpp.Monitor.Invariant

/-!
# Which directories end up watched

`watch` lists a tree first and registers the listed directories one by one
afterwards, while other processes go on making directories and the reader calls
`watch` for those it hears of. This is `Lib.Cover` with directories as nodes
and "at or below" as the order: `view` is the abstraction and `view_step` the
simulation.

`all_known_iff` is the outcome: when no call of `watch` is left and the queue
is empty, every directory under the root is watched and entered in `wd_map`
exactly if no directory was ever made inside one that some call of `watch` had
already listed and not yet registered.
-/

namespace CommonCpp.Monitor

open CommonCpp.Fs CommonCpp.Lib

/-- The paths a call of `watch` has listed and still has to register. -/
def Call.pending : Call → List Path
  | .adding ps => ps
  | .listing _ | .threw => []

/-- The path a call of `watch` still has to list. -/
def Call.upcoming : Call → List Path
  | .listing p => [p]
  | .adding _ | .threw => []

def Reader.pending : Reader Path → List Path
  | .watching _ call => call.pending
  | .idle | .taken _ | .notify _ | .terminated => []

/-- The path the reader is about to list, if it turns out to be a directory. -/
def Reader.upcoming : Reader Path → List Path
  | .taken c => [c.path]
  | .watching _ call => call.upcoming
  | .idle | .notify _ | .terminated => []

/-- The call of the application, if there is one. -/
def Sys.mainPending (s : Sys) : List Path := (s.main.map Call.pending).getD []

def Sys.mainUpcoming (s : Sys) : List Path := (s.main.map Call.upcoming).getD []

/-- Listed by a call of `watch`, and not registered by it yet. -/
def Sys.pending (s : Sys) : List Path := s.mainPending ++ s.reader.pending

/-- The paths `watch` is going to list, those that are no directories included. -/
def Sys.heard (s : Sys) : List Path :=
  s.mainUpcoming ++ s.reader.upcoming ++ (s.queue.map s.changeOf).map Change.path

/-- The monitor as `Lib.Cover` sees it. -/
def view (root : Path) (s : Sys) : Cover.State Path where
  nodes := { p | UnderDir root s p }
  watched := { p | s.Watched p }
  held := { p | s.Watched p ∨ p ∈ s.pending }
  upcoming := s.heard.filter fun p => s.fs.isDirectory p

/-- The parent and the path of a directory an action makes. -/
def madeDir : Act → Option (Path × Path)
  | .mkdir dir _ n _ => some (dir, dir ++ [n])
  | .create .. | .main | .reader => none

/-- The step makes no directory inside one that is listed and not yet watched. -/
def MakesInRegistered (s : Sys) (a : Act) : Prop :=
  ∀ dir pos n ino, a = .mkdir dir pos n ino → dir ∈ s.pending → s.Watched dir

/-- The directory at a path has a watch, and `wd_map` has the path for it. -/
def Sys.Known (s : Sys) (p : Path) : Prop :=
  ∃ i wd, s.fs.stat p = some (.dir i) ∧ s.wdOf i = some wd ∧ s.wdMap wd = some p

variable {root : Path} {s s' : Sys} {a : Act}

/-! ## What the view is made of -/

theorem forest_prefix : Cover.Forest (fun p q : Path => p <+: q) :=
  ⟨fun _ => List.prefix_refl _, fun h h' => h.trans h', fun h h' =>
    List.prefix_or_prefix_of_prefix h h'⟩

/-- A watched path is a directory under the root, and known by that path. -/
theorem TableInv.known (ht : TableInv root s) {p : Path} (h : s.Watched p) :
    root <+: p ∧ s.Known p := by
  obtain ⟨i, wd, hi, hw⟩ := h
  obtain ⟨q, hq, hqi, hm⟩ := ht.live hw
  cases ht.uniq hqi hi
  exact ⟨hq, i, wd, hi, hw, hm⟩

theorem Sys.Known.watched {p : Path} (h : s.Known p) : s.Watched p := by
  obtain ⟨i, wd, hi, hw, -⟩ := h
  exact ⟨i, wd, hi, hw⟩

theorem Sys.Watched.underDir (ht : TableInv root s) {p : Path} (h : s.Watched p) :
    UnderDir root s p := by
  have hroot := (ht.known h).1
  obtain ⟨i, wd, hi, -⟩ := h
  exact ⟨hroot, i, hi⟩

/-- Without a new descriptor no other path is watched than before. -/
theorem watched_congr (ht : TableInv root s) (ht' : TableInv root s') (g : Grows s s')
    (hwd : s'.wdOf = s.wdOf) (p : Path) : s'.Watched p ↔ s.Watched p := by
  constructor
  · intro h
    obtain ⟨i, wd, hi, hw⟩ := h
    rw [hwd] at hw
    -- the descriptor's directory had a path before, and it is still this one
    obtain ⟨q, -, hq, -⟩ := ht.live hw
    cases ht'.uniq (g.stat hq) hi
    exact ⟨i, wd, hq, hw⟩
  · intro h
    obtain ⟨i, wd, hi, hw⟩ := h
    exact ⟨i, wd, g.stat hi, g.wdOf hw⟩

theorem UnderDir.real {p : Path} (h : UnderDir root s p) : Real s.fs p := by
  obtain ⟨-, i, hi⟩ := h
  exact ⟨_, hi, by simp⟩

theorem GoodCall.underDir {call : Call} (h : GoodCall root s call) {p : Path}
    (hp : p ∈ call.pending ∨ p ∈ call.upcoming) : UnderDir root s p := by
  cases call with
  | listing q =>
    rcases hp with hp | hp
    · cases hp
    · cases List.mem_singleton.mp hp
      exact h
  | adding ps =>
    rcases hp with hp | hp
    · exact h p hp
    · cases hp
  | threw => exact h.elim

theorem Inv.mainUnder (hI : Inv root s) {p : Path}
    (hp : p ∈ s.mainPending ∨ p ∈ s.mainUpcoming) : UnderDir root s p := by
  unfold Sys.mainPending Sys.mainUpcoming at hp
  cases hm : s.main with
  | none =>
    rw [hm] at hp
    rcases hp with hp | hp <;> cases hp
  | some call =>
    rw [hm] at hp
    exact (hI.main call hm).underDir hp

/-- Everything heard of is a directory or a file under the root. -/
theorem Inv.heard_real (hI : Inv root s) {p : Path} (hp : p ∈ s.heard) :
    root <+: p ∧ Real s.fs p := by
  rcases List.mem_append.mp hp with hp | hp
  · rcases List.mem_append.mp hp with hp | hp
    · have hu := hI.mainUnder (Or.inr hp)
      exact ⟨hu.1, hu.real⟩
    · have hr := hI.reader
      cases hc : s.reader with
      | taken c =>
        rw [hc] at hr hp
        cases List.mem_singleton.mp hp
        exact hr.2
      | watching c call =>
        rw [hc] at hr hp
        have hu := hr.2.underDir (Or.inr hp)
        exact ⟨hu.1, hu.real⟩
      | _ => rw [hc] at hp; cases hp
  · obtain ⟨c, hc, rfl⟩ := List.mem_map.mp hp
    obtain ⟨e, he, rfl⟩ := List.mem_map.mp hc
    obtain ⟨q, k, hcr⟩ := hI.events e he
    rw [hcr.changeOf hI.table]
    exact ⟨hcr.below.trans (List.prefix_append _ _), hcr.real⟩

/-- What existed is a directory afterwards exactly if it was one. -/
theorem Grows.isDirectory (g : Grows s s') {p : Path} (h : Real s.fs p) :
    s'.fs.isDirectory p = s.fs.isDirectory p := by
  rw [Bool.eq_iff_iff]
  constructor
  · intro hd
    obtain ⟨i, hi⟩ := (g.real h).dir_of_isDirectory hd
    obtain ⟨node, hn, -⟩ := h
    cases Option.some.inj ((g.stat hn).symm.trans hi)
    exact isDirectory_of_dir hn
  · intro hd
    obtain ⟨i, hi⟩ := h.dir_of_isDirectory hd
    exact isDirectory_of_dir (g.stat hi)

theorem Grows.filter_heard (g : Grows s s') (hI : Inv root s) :
    s.heard.filter (fun p => s'.fs.isDirectory p) = s.heard.filter fun p => s.fs.isDirectory p := by
  apply List.filter_congr
  intro p hp
  exact g.isDirectory (hI.heard_real hp).2

/-! ## The simulation: creations -/

section

variable {dir : Path} {n : Name} {new : Entry} {mask : UInt32}

theorem Made.wdOf (h : Made root s dir n new mask s') : s'.wdOf = s.wdOf := by
  obtain ⟨pos, ino, sub, hdir, rfl⟩ := h.state
  exact (emit_fields _ ino mask n).2.1

theorem Made.heard (h : Made root s dir n new mask s') (hnew : new.WF)
    (hlink : ∀ i s, new.node ≠ .leaf i (some s)) (hmask : changeType mask = .added)
    (hI : Inv root s) :
    ∃ ino, s.fs.stat dir = some (.dir ino) ∧
      s'.heard = s.heard ++ if (s.wdOf ino).isSome then [dir ++ [n]] else [] := by
  obtain ⟨ino, hino, hq⟩ := h.changes hnew hlink hmask hI
  obtain ⟨hm, hr, -⟩ := h.threads
  refine ⟨ino, hino, ?_⟩
  unfold Sys.heard Sys.mainUpcoming
  rw [hm, hr, hq]
  split <;> simp

theorem Made.view (h : Made root s dir n new mask s') (hnew : new.WF)
    (hlink : ∀ i s, new.node ≠ .leaf i (some s)) (hmask : changeType mask = .added)
    (hI : Inv root s) :
    (view root s').watched = (view root s).watched ∧ (view root s').held = (view root s).held ∧
      ∃ ino, s.fs.stat dir = some (.dir ino) ∧
        (view root s').upcoming = (view root s).upcoming ++
          if (s.wdOf ino).isSome ∧ s'.fs.isDirectory (dir ++ [n]) then [dir ++ [n]] else [] := by
  have hI' : Inv root s' := h.inv hnew hlink hmask hI
  have hw : ∀ p, s'.Watched p ↔ s.Watched p := watched_congr hI.table hI'.table h.grows h.wdOf
  obtain ⟨hm, hr, -⟩ := h.threads
  have hp : s'.pending = s.pending := by
    unfold Sys.pending Sys.mainPending
    rw [hm, hr]
  obtain ⟨ino, hino, hh⟩ := h.heard hnew hlink hmask hI
  refine ⟨Set.ext hw, Set.ext fun p => ?_, ino, hino, ?_⟩
  · show s'.Watched p ∨ p ∈ s'.pending ↔ s.Watched p ∨ p ∈ s.pending
    rw [hw, hp]
  · show s'.heard.filter _ = s.heard.filter _ ++ _
    rw [hh, List.filter_append, h.grows.filter_heard hI]
    congr 1
    cases (s.wdOf ino).isSome with
    | false => simp
    | true => cases hd : s'.fs.isDirectory (dir ++ [n]) <;> simp [hd]

/-- Nothing that existed is at or below the new entry. -/
theorem Made.not_below (h : Made root s dir n new mask s') {p : Path} {node : Node}
    (hp : s.fs.stat p = some node) : ¬ dir ++ [n] <+: p := by
  intro hle
  exact find_of_le hle (find_ne_none_of_stat hp) h.absent

/-- Making a directory is a creation of the cover picture. -/
theorem Made.view_dir {i : Ino} {sub : Dir} (h : Made root s dir n (.dir i sub) mask s')
    (hnew : (Entry.dir i sub).WF) (hmask : changeType mask = .added) (hI : Inv root s) :
    Cover.Step (fun p q => p <+: q) (Monitor.view root s) (some (dir, dir ++ [n]))
      (Monitor.view root s') := by
  obtain ⟨hwa, hhe, ino, hino, hup⟩ := h.view hnew (by simp [Entry.node]) hmask hI
  have hstat := h.stat
  have hnodes : (Monitor.view root s').nodes = insert (dir ++ [n]) (Monitor.view root s).nodes := by
    ext p
    show UnderDir root s' p ↔ p = dir ++ [n] ∨ UnderDir root s p
    unfold UnderDir
    rw [hstat]
    by_cases hp : p = dir ++ [n]
    · subst hp
      simp [Entry.node, h.below.trans (List.prefix_append dir [n])]
    · simp [hp]
  have hdir : s'.fs.isDirectory (dir ++ [n]) = true :=
    isDirectory_of_dir (by rw [hstat, if_pos rfl]; rfl : s'.fs.stat (dir ++ [n]) = some (.dir i))
  have hd : ∀ x ∈ (Monitor.view root s).nodes, ¬ dir ++ [n] <+: x := by
    intro x hx
    obtain ⟨-, j, hj⟩ := hx
    exact h.not_below hj
  have hpd : ∀ u, u <+: dir ++ [n] ↔ u = dir ++ [n] ∨ u <+: dir := fun u =>
    List.prefix_concat_iff
  -- the new directory is heard of exactly if its parent has a descriptor
  cases hw : s.wdOf ino with
  | some wd =>
    have heq : Monitor.view root s' = { Monitor.view root s with
        nodes := insert (dir ++ [n]) (Monitor.view root s).nodes
        upcoming := (Monitor.view root s).upcoming ++ [dir ++ [n]] } := by
      refine Cover.State.ext hnodes hwa hhe ?_
      rw [hup, hw, hdir]
      simp
    rw [heq]
    exact .announced ⟨ino, wd, hino, hw⟩ hd hpd
  | none =>
    have heq : Monitor.view root s' = { Monitor.view root s with
        nodes := insert (dir ++ [n]) (Monitor.view root s).nodes } := by
      refine Cover.State.ext hnodes hwa hhe ?_
      rw [hup, hw]
      simp
    have hnot : dir ∉ (Monitor.view root s).watched := by
      intro hin
      obtain ⟨j, wd, hj, hjw⟩ := hin
      rw [hino] at hj
      cases hj
      rw [hw] at hjw
      cases hjw
    rw [heq]
    exact .unseen ⟨h.below, ino, hino⟩ hnot hd hpd

/-- Making a file is nothing to it. -/
theorem Made.view_file {i : Ino} (h : Made root s dir n (.leaf i none) mask s')
    (hmask : changeType mask = .added) (hI : Inv root s) :
    Monitor.view root s' = Monitor.view root s := by
  obtain ⟨hwa, hhe, ino, hino, hup⟩ := h.view trivial (by simp [Entry.node]) hmask hI
  have hfile : s'.fs.isDirectory (dir ++ [n]) = false :=
    isDirectory_of_file (by rw [h.stat, if_pos rfl]; rfl)
  refine Cover.State.ext ?_ hwa hhe (by rw [hup, hfile]; simp)
  ext p
  show UnderDir root s' p ↔ UnderDir root s p
  unfold UnderDir
  rw [h.stat]
  by_cases hp : p = dir ++ [n]
  · subst hp
    simp [Entry.node, h.stat_absent]
  · simp [hp]

end

/-! ## The simulation: the two threads -/

/-- Steps that change no watch, what is listed, or what is heard of. -/
theorem view_congr (hfs : s'.fs = s.fs) (hwd : s'.wdOf = s.wdOf) (hp : s'.pending = s.pending)
    (hh : s'.heard.filter (fun p => s.fs.isDirectory p)
      = s.heard.filter fun p => s.fs.isDirectory p) : view root s' = view root s := by
  unfold view UnderDir Sys.Watched
  rw [hfs, hwd, hp, hh]

/-- A call of `watch` lists `p`. -/
theorem view_list {p : Path} (as bs : List Path) (hI : Inv root s) (hu : UnderDir root s p)
    (hfs : s'.fs = s.fs) (hwd : s'.wdOf = s.wdOf) (hh : s.heard = as ++ p :: bs)
    (hh' : s'.heard = as ++ bs)
    (hp : ∀ y, y ∈ s'.pending ↔ y ∈ s.pending ∨ y ∈ (listPaths s.fs p).pending) :
    Cover.Step (fun p q => p <+: q) (view root s) none (view root s') := by
  obtain ⟨hroot, i, hi⟩ := hu
  obtain ⟨ps, hps, hmem⟩ := mem_listPaths hI.table.wf hi
  have hup : (view root s).upcoming = as.filter (fun q => s.fs.isDirectory q) ++
      p :: bs.filter fun q => s.fs.isDirectory q := by
    show s.heard.filter _ = _
    rw [hh, List.filter_append, List.filter_cons_of_pos (isDirectory_of_dir hi)]
  have heq : view root s' = { view root s with
      held := (view root s).held ∪ { y | y ∈ (view root s).nodes ∧ p <+: y }
      upcoming := as.filter (fun q => s.fs.isDirectory q) ++
        bs.filter fun q => s.fs.isDirectory q } := by
    refine Cover.State.ext ?_ ?_ (Set.ext fun y => ?_) ?_
    · show { q | UnderDir root s' q } = { q | UnderDir root s q }
      unfold UnderDir
      rw [hfs]
    · show { q | s'.Watched q } = { q | s.Watched q }
      unfold Sys.Watched
      rw [hfs, hwd]
    · show s'.Watched y ∨ y ∈ s'.pending ↔
        (s.Watched y ∨ y ∈ s.pending) ∨ UnderDir root s y ∧ p <+: y
      have hlist : y ∈ (listPaths s.fs p).pending ↔ UnderDir root s y ∧ p <+: y := by
        rw [hps]
        show y ∈ ps ↔ _
        rw [hmem y]
        constructor
        · intro h
          exact ⟨⟨hroot.trans h.1, h.2⟩, h.1⟩
        · intro h
          exact ⟨h.2, h.1.2⟩
      have hw : s'.Watched y ↔ s.Watched y := by
        unfold Sys.Watched
        rw [hfs, hwd]
      rw [hp, hw, hlist, or_assoc]
    · show s'.heard.filter _ = _
      rw [hh', hfs, List.filter_append]
  rw [heq]
  exact .list hup

/-- A call of `watch` registers `p`. -/
theorem view_register {p : Path} {i : Ino} {wd : Int} {s₁ : Sys} (h : Registered s p i wd s₁)
    (hI : Inv root s) (hu : root <+: p) (hi : s.fs.stat p = some (.dir i)) (hfs : s'.fs = s₁.fs)
    (hwd : s'.wdOf = s₁.wdOf) (hh : s'.heard = s.heard)
    (hp : ∀ y, y ∈ s.pending ↔ y = p ∨ y ∈ s'.pending) :
    Cover.Step (fun p q => p <+: q) (view root s) none (view root s') := by
  have hfs' : s'.fs = s.fs := hfs.trans h.fs
  have hw : ∀ y, s'.Watched y ↔ y = p ∨ s.Watched y := by
    intro y
    unfold Sys.Watched
    rw [hfs', hwd]
    constructor
    · intro hy
      obtain ⟨j, w, hj, hjw⟩ := hy
      rcases h.wdOf_cases hjw with hjw | ⟨rfl, -⟩
      · exact Or.inr ⟨j, w, hj, hjw⟩
      · exact Or.inl (hI.table.uniq hj hi)
    · intro hy
      rcases hy with rfl | ⟨j, w, hj, hjw⟩
      · exact ⟨i, wd, hi, h.wdOf_self⟩
      · exact ⟨j, w, hj, h.wdOf_mono hjw⟩
  have heq : view root s' = { view root s with watched := { y | s'.Watched y } } := by
    refine Cover.State.ext ?_ rfl (Set.ext fun y => ?_) ?_
    · show { q | UnderDir root s' q } = { q | UnderDir root s q }
      unfold UnderDir
      rw [hfs']
    · show s'.Watched y ∨ y ∈ s'.pending ↔ s.Watched y ∨ y ∈ s.pending
      rw [hw, hp, or_assoc, or_left_comm]
    · show s'.heard.filter _ = s.heard.filter _
      rw [hh, hfs']
  rw [heq]
  refine .register (fun y hy => (hw y).mpr (Or.inr hy)) fun y hy => ?_
  rcases (hw y).mp hy with rfl | hy
  · exact Or.inr ((hp y).mpr (Or.inl rfl))
  · exact Or.inl hy

theorem MainDoes.view (h : MainDoes s s') (hI : Inv root s) :
    Cover.Step (fun p q => p <+: q) (Monitor.view root s) none (Monitor.view root s') := by
  cases h with
  | list hm hl =>
    rename_i p
    refine view_list [] (s.reader.upcoming ++ (s.queue.map s.changeOf).map Change.path) hI
      (hI.main _ hm) rfl rfl ?_ ?_ ?_
    · simp [Sys.heard, Sys.mainUpcoming, hm, Call.upcoming]
    · obtain ⟨-, i, hi⟩ := hI.main _ hm
      obtain ⟨ps, hps, -⟩ := mem_listPaths hI.table.wf hi
      simp only [Sys.heard, Sys.mainUpcoming, hps]
      rfl
    · intro y
      simp [Sys.pending, Sys.mainPending, hm, Call.pending, or_comm]
  | add hm ha =>
    have hu := hI.main _ hm _ (List.mem_cons_self ..)
    obtain ⟨i, wd, hi, hreg⟩ := hu.registered ha
    refine view_register hreg hI hu.1 hi rfl rfl ?_ fun y => ?_
    · unfold Sys.heard Sys.mainUpcoming
      rw [← hreg.changes hu.1 hi hI, ← hreg.reader, hm]
      rfl
    · simp [Sys.pending, Sys.mainPending, hm, Call.pending, hreg.reader]
  | leave hm =>
    have heq : Monitor.view root { s with main := none } = Monitor.view root s := by
      refine view_congr rfl rfl ?_ ?_
      · simp [Sys.pending, Sys.mainPending, hm, Call.pending]
      · congr 1
        simp only [Sys.heard, Sys.mainUpcoming, hm]
        rfl
    rw [heq]
    exact .stay _
  | die hm hc => exact absurd hc ((hI.main _ hm).not_throw hI.table)

/-- What is going to be listed goes from the queue to the reader, and stays or
turns out to be no directory. -/
theorem view_reader {r : Reader Path} {seen : List (Change Path)}
    (hp : r.pending = s.reader.pending)
    (hh : r.upcoming.filter (fun p => s.fs.isDirectory p)
      = s.reader.upcoming.filter fun p => s.fs.isDirectory p) :
    Cover.Step (fun p q => p <+: q) (view root s) none
      (view root { s with reader := r, seen := seen }) := by
  have heq : view root { s with reader := r, seen := seen } = view root s := by
    refine view_congr rfl rfl ?_ ?_
    · show s.mainPending ++ r.pending = s.mainPending ++ s.reader.pending
      rw [hp]
    · show (s.mainUpcoming ++ r.upcoming ++ _).filter _
        = (s.mainUpcoming ++ s.reader.upcoming ++ _).filter _
      simp only [List.filter_append]
      rw [hh]
      rfl
  rw [heq]
  exact .stay _

theorem ReaderDoes.view (h : ReaderDoes s s') (hI : Inv root s) :
    Cover.Step (fun p q => p <+: q) (Monitor.view root s) none (Monitor.view root s') := by
  have hgood := hI.reader
  cases h with
  | take hr hq =>
    rename_i e rest
    -- the event's path goes from the queue to the reader
    have heq : Monitor.view root (s.take e rest) = Monitor.view root s := by
      refine view_congr rfl rfl ?_ ?_
      · simp [Sys.pending, Sys.take, Sys.mainPending, hr, Reader.pending]
      · congr 1
        simp only [Sys.heard, hI.take_changes hq, hr]
        simp [Sys.take, Sys.mainUpcoming, Reader.upcoming]
    rw [heq]
    exact .stay _
  | enter hr hd =>
    exact view_reader (by rw [hr]; rfl) (by rw [hr]; rfl)
  | pass hr hd =>
    exact view_reader (by rw [hr]; rfl) (by rw [hr]; simp [Reader.upcoming, hd])
  | list hr hl =>
    rw [hr] at hgood
    refine view_list s.mainUpcoming ((s.queue.map s.changeOf).map Change.path) hI hgood.2 rfl rfl
      ?_ ?_ ?_
    · simp [Sys.heard, hr, Reader.upcoming, Call.upcoming]
    · obtain ⟨-, i, hi⟩ := hgood.2
      obtain ⟨ps, hps, -⟩ := mem_listPaths hI.table.wf hi
      simp only [Sys.heard, Reader.upcoming, hps, Call.upcoming, List.append_nil]
      rfl
    · intro y
      simp [Sys.pending, Sys.mainPending, hr, Reader.pending, Call.pending]
  | add hr ha =>
    rw [hr] at hgood
    have hu := hgood.2 _ (List.mem_cons_self ..)
    obtain ⟨i, wd, hi, hreg⟩ := hu.registered ha
    refine view_register hreg hI hu.1 hi rfl rfl ?_ fun y => ?_
    · unfold Sys.heard Sys.mainUpcoming
      rw [← hreg.changes hu.1 hi hI, ← hreg.main, hr]
      rfl
    · simp [Sys.pending, Sys.mainPending, hr, Reader.pending, Call.pending, hreg.main,
        or_left_comm]
  | leave hr =>
    exact view_reader (by rw [hr]; rfl) (by rw [hr]; rfl)
  | die hr hc =>
    rw [hr] at hgood
    exact absurd hc (hgood.2.not_throw hI.table)
  | notify hr =>
    exact view_reader (by rw [hr]; rfl) (by rw [hr]; rfl)

/-- Every step of the system is a step of the cover picture. -/
theorem view_step (hI : Inv root s) (h : step root s a = some s') :
    Cover.Step (fun p q => p <+: q) (view root s) (madeDir a) (view root s') := by
  rcases step_cases h with ⟨dir, n, new, mask, hmk, hm⟩ | ⟨rfl, hm⟩ | ⟨rfl, hr⟩
  · obtain ⟨hwf, -, hmask⟩ := hmk.spec
    cases hmk with
    | mkdir => exact hm.view_dir hwf hmask hI
    | create =>
      rw [hm.view_file hmask hI]
      exact .stay _
  · exact hm.view hI
  · exact hr.view hI

/-! ## Every directory is watched, or not -/

theorem safe_iff : Cover.Safe (view root s) (madeDir a) ↔ MakesInRegistered s a := by
  unfold Cover.Safe MakesInRegistered
  constructor
  · intro h dir pos n ino ha hp
    exact h dir (dir ++ [n]) (by rw [ha]; rfl) (Or.inr hp)
  · intro h p d ha hp
    cases a with
    | mkdir dir pos n ino =>
      cases ha
      rcases hp with hp | hp
      · exact hp
      · exact h _ _ _ _ rfl hp
    | _ => cases ha

/-- The application has called `watch(root)` and nothing has happened since. -/
def Sys.called (fs : Entry) (root : Path) : Sys :=
  { Sys.start fs with main := some (.listing root) }

/-- The invariants of the system and of its view. -/
def Tracked (root : Path) (s : Sys) : Prop :=
  Inv root s ∧ Cover.Inv (fun p q => p <+: q) (view root s)

theorem tracked_step (ht : Tracked root s) (h : step root s a = some s') : Tracked root s' :=
  ⟨inv_step ht.1 h, Cover.step_inv forest_prefix ht.2 (view_step ht.1 h)⟩

/-- A step keeps the picture covered exactly if it makes no directory inside one
that is listed and not registered. -/
theorem tracked_covered (ht : Tracked root s) (h : step root s a = some s') :
    Cover.Covered (fun p q => p <+: q) (view root s') ↔
      Cover.Covered (fun p q => p <+: q) (view root s) ∧ MakesInRegistered s a := by
  rw [Cover.step_covered forest_prefix ht.2 (view_step ht.1 h), safe_iff]

/-- With no call of `watch` in progress, only watched directories are held. -/
theorem held_quiet (hmain : s.main = none) (hreader : ∀ c call, s.reader ≠ .watching c call) :
    (view root s).held ⊆ (view root s).watched := by
  have hpend : s.pending = [] := by
    unfold Sys.pending Sys.mainPending
    rw [hmain]
    cases hr : s.reader with
    | watching c call => exact absurd hr (hreader c call)
    | _ => rfl
  intro y hy
  rcases hy with hy | hy
  · exact hy
  · rw [hpend] at hy
    cases hy

/-- With an empty queue and no call by the application, only the reader may
have something to list. -/
theorem heard_quiet (hqueue : s.queue = []) (hmain : s.main = none) :
    s.heard = s.reader.upcoming := by
  unfold Sys.heard Sys.mainUpcoming
  rw [hmain, hqueue]
  simp

theorem called_tracked {fs : FileSystem} {i : Ino} (h : fs.tree.stat root = some (.dir i)) :
    Tracked root (Sys.called fs.tree root) ∧
      Cover.Covered (fun p q => p <+: q) (view root (Sys.called fs.tree root)) := by
  have hu : UnderDir root (Sys.called fs.tree root) root := ⟨List.prefix_refl _, i, h⟩
  have hI : Inv root (Sys.called fs.tree root) :=
    (start_inv h).threads (fun call hc => by cases hc; exact hu) trivial
  have hheld : ∀ y, y ∉ (view root (Sys.called fs.tree root)).held := by
    intro y hy
    rcases hy with ⟨j, w, -, hw⟩ | hy
    · cases hw
    · cases hy
  have hup : (view root (Sys.called fs.tree root)).upcoming = [root] :=
    List.filter_cons_of_pos (isDirectory_of_dir h)
  refine ⟨⟨hI, ?_, ?_, ?_, ?_, ?_⟩, ?_⟩
  · intro y hy
    exact Or.inl hy
  · intro y hy
    exact absurd hy (hheld y)
  · intro u hmem
    rw [hup] at hmem
    cases List.mem_singleton.mp hmem
    exact hu
  · intro u _ y _
    exact hheld y
  · rw [hup]
    exact List.pairwise_singleton _ _
  · intro d hd
    obtain ⟨hd, -, hnot⟩ := hd
    exact hnot root (by rw [hup]; exact List.mem_singleton.mpr rfl) hd.1

/-- **Which directories end up watched.** `watch(root)` is called on any tree,
and directories (and files) are made while it runs and the reader calls it
again. In every run that reaches a state with an empty queue and no call of
`watch` in progress: every directory under the root has a watch and its entry
in `wd_map` if and only if no directory was ever made inside one that was listed
and not registered at that moment, and the reader is not just about to call
`watch` for one it has taken from the queue. -/
theorem all_known_iff (fs : FileSystem) (root : Path) (i : Ino) (s : Sys) (acts : List Act)
    (hroot : fs.tree.stat root = some (.dir i))
    (hrun : run (step root) (Sys.called fs.tree root) acts = some s) (hqueue : s.queue = [])
    (hmain : s.main = none) (hreader : ∀ c call, s.reader ≠ .watching c call) :
    (∀ p, root <+: p → (∃ j, s.fs.stat p = some (.dir j)) → s.Known p) ↔
      Along (step root) MakesInRegistered (Sys.called fs.tree root) acts ∧
        ∀ c, s.reader = .taken c → s.fs.isDirectory c.path = false := by
  obtain ⟨ht₀, hcov₀⟩ := called_tracked hroot
  obtain ⟨hI, hC⟩ : Tracked root s := run_invariant tracked_step ht₀ hrun
  have hcov : Cover.Covered (fun p q => p <+: q) (view root s) ↔
      Along (step root) MakesInRegistered (Sys.called fs.tree root) acts := by
    have hiff := run_along_iff tracked_step tracked_covered ht₀ hrun
    rwa [and_iff_right hcov₀] at hiff
  have hheld : (view root s).held ⊆ (view root s).watched := held_quiet hmain hreader
  have hheard : s.heard = s.reader.upcoming := heard_quiet hqueue hmain
  constructor
  · intro hall
    have hnodes : (view root s).nodes ⊆ (view root s).watched := fun p hp =>
      (hall p hp.1 hp.2).watched
    refine ⟨hcov.mp fun d hd => hd.2.1 (Or.inl (hnodes hd.1)), fun c hc => ?_⟩
    cases hd : s.fs.isDirectory c.path with
    | false => rfl
    | true =>
      -- what is still to be listed cannot be watched yet
      exfalso
      have hup : c.path ∈ (view root s).upcoming := by
        refine List.mem_filter.mpr ⟨?_, hd⟩
        rw [hheard, hc]
        exact List.mem_singleton.mpr rfl
      exact hC.apart c.path hup c.path (List.prefix_refl _)
        (Or.inl (hnodes (hC.upcoming_nodes _ hup)))
  · intro h p hp hdir
    obtain ⟨hal, htaken⟩ := h
    have hup : (view root s).upcoming = [] := by
      show s.heard.filter _ = []
      rw [hheard]
      cases hr : s.reader with
      | taken c => simp [Reader.upcoming, htaken c hr]
      | watching c call => exact absurd hr (hreader c call)
      | _ => rfl
    have hw : p ∈ (view root s).watched :=
      Cover.all_watched (hcov.mpr hal) hup hheld (show UnderDir root s p from ⟨hp, hdir⟩)
    exact (hI.table.known hw).2

/-- `r` is listed, then `r/a` is made, then `r` is registered. -/
def mkdirAfterListing : List Act :=
  [.main, .mkdir [ascii "r"] 0 (ascii "a") 3, .main, .main]

/-- Nothing will ever watch `r/a`: no event was queued for it, and nobody lists
`r` again. -/
theorem directory_unwatched :
    ¬ ∀ (fs : FileSystem) (root : Path) (i : Ino) (s : Sys) (acts : List Act),
      fs.tree.stat root = some (.dir i) →
      run (step root) (Sys.called fs.tree root) acts = some s → s.queue = [] →
      s.main = none → (∀ c call, s.reader ≠ .watching c call) →
      ∀ p, root <+: p → (∃ j, s.fs.stat p = some (.dir j)) → s.Known p := by
  intro h
  obtain ⟨j, wd, hj, hw, -⟩ := h emptyRoot [ascii "r"] 2 _ mkdirAfterListing rfl rfl rfl rfl
    (fun c call hr => by cases hr) [ascii "r", ascii "a"] (by decide) ⟨3, rfl⟩
  cases hj
  cases hw

theorem all_known_iff_after_listing :
    ∃ s, run (step [ascii "r"]) (Sys.called emptyRoot.tree [ascii "r"]) mkdirAfterListing = some s ∧
      ((∀ p, [ascii "r"] <+: p → (∃ j, s.fs.stat p = some (.dir j)) → s.Known p) ↔
        Along (step [ascii "r"]) MakesInRegistered (Sys.called emptyRoot.tree [ascii "r"])
            mkdirAfterListing ∧
          ∀ c, s.reader = .taken c → s.fs.isDirectory c.path = false) :=
  ⟨_, rfl, all_known_iff emptyRoot [ascii "r"] 2 _ mkdirAfterListing rfl rfl rfl rfl
    fun c call hr => by cases hr⟩

end CommonCpp.Monitor
