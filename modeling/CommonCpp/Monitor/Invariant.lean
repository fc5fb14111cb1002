import CommonCpp.Fs.Move
import CommonCpp.Monitor.System

/-!
# What holds in every state of the monitor

Under creations only, a path keeps its inode for good. So the watch table, the
queued events and the paths the two threads work on all keep meaning what they
meant when they came about: `Inv`. In particular `wd_map` sends the descriptor
of a directory to its path (`live`), every queued event is a creation in a
watched directory (`events`), and no call of `watch` throws.

`step_cases` says once what a step can do; the invariants here and in the
modules after this one follow from it.
-/

namespace CommonCpp.Monitor

open CommonCpp.Fs CommonCpp.Lib

/-! ## What one step does -/

/-- The entry and the mask of a creation. -/
inductive Makes : Act → Path → Name → Entry → UInt32 → Prop where
  | mkdir (dir : Path) (pos : Nat) (n : Name) (ino : Ino) :
      Makes (.mkdir dir pos n ino) dir n (.dir ino .nil) (IN_CREATE ||| IN_ISDIR)
  | create (dir : Path) (pos : Nat) (n : Name) (ino : Ino) :
      Makes (.create dir pos n ino) dir n (.leaf ino none) IN_CREATE

/-- `s'` is `s` after entry `new` was made as `n` in `dir`. -/
structure Made (root : Path) (s : Sys) (dir : Path) (n : Name) (new : Entry) (mask : UInt32)
    (s' : Sys) : Prop where
  below : root <+: dir
  bare : ∀ m r, new.stat (m :: r) = none
  fresh : new.node.ino ∉ s.fs.inos
  legit : isDot n = false
  absent : s.fs.find (dir ++ [n]) = none
  state : ∃ pos ino sub, s.fs.find dir = some (.dir ino sub) ∧
    s' = { s with fs := s.fs.addAt dir pos n new }.emit ino mask n

/-- What the reader can do. -/
inductive ReaderDoes (s : Sys) : Sys → Prop where
  | take {e : Event} {rest : List Event} (hr : s.reader = .idle) (hq : s.queue = e :: rest) :
      ReaderDoes s (s.take e rest)
  | enter {c : Change Path} (hr : s.reader = .taken c) (hd : s.fs.isDirectory c.path = true) :
      ReaderDoes s { s with reader := .watching c (.listing c.path) }
  | pass {c : Change Path} (hr : s.reader = .taken c) (hd : s.fs.isDirectory c.path = false) :
      ReaderDoes s { s with reader := .notify c }
  | list {c : Change Path} {p : Path} (hr : s.reader = .watching c (.listing p))
      (hl : listPaths s.fs p ≠ .threw) :
      ReaderDoes s { s with reader := .watching c (listPaths s.fs p) }
  | add {c : Change Path} {p : Path} {ps : List Path} {s' : Sys}
      (hr : s.reader = .watching c (.adding (p :: ps))) (ha : s.register p = some s') :
      ReaderDoes s { s' with reader := .watching c (.adding ps) }
  | leave {c : Change Path} (hr : s.reader = .watching c (.adding [])) :
      ReaderDoes s { s with reader := .notify c }
  | die {c : Change Path} {call : Call} (hr : s.reader = .watching c call)
      (hc : s.callStep call = (s, some .threw)) :
      ReaderDoes s { s with reader := .terminated }
  | notify {c : Change Path} (hr : s.reader = .notify c) :
      ReaderDoes s { s with reader := .idle, seen := s.seen ++ [c] }

/-- What the application's call of `watch` can do. -/
inductive MainDoes (s : Sys) : Sys → Prop where
  | list {p : Path} (hm : s.main = some (.listing p)) (hl : listPaths s.fs p ≠ .threw) :
      MainDoes s { s with main := some (listPaths s.fs p) }
  | add {p : Path} {ps : List Path} {s' : Sys} (hm : s.main = some (.adding (p :: ps)))
      (ha : s.register p = some s') : MainDoes s { s' with main := some (.adding ps) }
  | leave (hm : s.main = some (.adding [])) : MainDoes s { s with main := none }
  | die {call : Call} (hm : s.main = some call) (hc : s.callStep call = (s, some .threw)) :
      MainDoes s { s with main := some .threw }

theorem make_cases {s s' : Sys} {dir : Path} {pos : Nat} {n : Name} {new : Entry} {mask : UInt32}
    (h : s.make dir pos n new mask = some s') :
    isDot n = false ∧ s.fs.find (dir ++ [n]) = none ∧
      ∃ ino sub, s.fs.find dir = some (.dir ino sub) ∧
        s' = { s with fs := s.fs.addAt dir pos n new }.emit ino mask n := by
  unfold Sys.make at h
  cases hd : s.fs.dirAt dir with
  | none => rw [hd] at h; cases h
  | some x =>
    obtain ⟨ino, sub⟩ := x
    rw [hd] at h
    dsimp only at h
    split at h
    · next hg =>
      refine ⟨hg.1, hg.2, ino, sub, dirAt_eq_some.mp hd, ?_⟩
      exact (Option.some.inj h).symm
    · cases h

theorem mainStep_cases {s s' : Sys} (h : s.mainStep = some s') : MainDoes s s' := by
  unfold Sys.mainStep at h
  cases hm : s.main with
  | none => rw [hm] at h; cases h
  | some call =>
    rw [hm] at h
    cases call with
    | threw => cases h
    | listing p =>
      cases Option.some.inj h
      by_cases hl : listPaths s.fs p = .threw
      · show MainDoes s { s with main := some (listPaths s.fs p) }
        rw [hl]
        exact .die hm (by rw [Sys.callStep, hl])
      · exact .list hm hl
    | adding ps =>
      cases ps with
      | nil => cases Option.some.inj h; exact .leave hm
      | cons p ps =>
        simp only [Sys.callStep] at h
        cases ha : s.register p with
        | none =>
          rw [ha] at h
          cases Option.some.inj h
          exact .die hm (by rw [Sys.callStep, ha])
        | some s₁ =>
          rw [ha] at h
          cases Option.some.inj h
          exact .add hm ha

theorem readerStep_cases {s s' : Sys} (h : s.readerStep = some s') : ReaderDoes s s' := by
  unfold Sys.readerStep at h
  cases hr : s.reader with
  | idle =>
    rw [hr] at h
    cases hq : s.queue with
    | nil => rw [hq] at h; cases h
    | cons e rest => rw [hq] at h; cases Option.some.inj h; exact .take hr hq
  | taken c =>
    rw [hr] at h
    cases hd : s.fs.isDirectory c.path with
    | true => simp only [hd, if_true, Option.some.injEq] at h; subst h; exact .enter hr hd
    | false =>
      simp only [hd, Bool.false_eq_true, if_false, Option.some.injEq] at h
      subst h
      exact .pass hr hd
  | watching c call =>
    rw [hr] at h
    cases call with
    | threw =>
      simp only [Sys.callStep, Option.some.injEq] at h
      subst h
      exact .die hr rfl
    | listing p =>
      simp only [Sys.callStep] at h
      by_cases hl : listPaths s.fs p = .threw
      · -- `find_files` could not open the directory
        rw [hl, Option.some.injEq] at h
        subst h
        exact .die hr (by rw [Sys.callStep, hl])
      · split at h
        · next heq => cases heq
        · next heq => exact absurd (Option.some.inj (Prod.mk.inj heq).2) hl
        · next heq =>
          obtain ⟨h1, h2⟩ := Prod.mk.inj heq
          rw [← h1, ← Option.some.inj h2, Option.some.injEq] at h
          subst h
          exact .list hr hl
    | adding ps =>
      cases ps with
      | nil =>
        simp only [Sys.callStep, Option.some.injEq] at h
        subst h
        exact .leave hr
      | cons p ps =>
        cases ha : s.register p with
        | none =>
          simp only [Sys.callStep, ha, Option.some.injEq] at h
          subst h
          exact .die hr (by rw [Sys.callStep, ha])
        | some s₁ =>
          simp only [Sys.callStep, ha, Option.some.injEq] at h
          subst h
          exact .add hr ha
  | notify c =>
    rw [hr] at h
    cases Option.some.inj h
    exact .notify hr
  | terminated => rw [hr] at h; cases h

/-- Every step is a creation or a step of one of the two threads. -/
theorem step_cases {root : Path} {s s' : Sys} {a : Act} (h : step root s a = some s') :
    (∃ dir n new mask, Makes a dir n new mask ∧ Made root s dir n new mask s') ∨
    (a = .main ∧ MainDoes s s') ∨ (a = .reader ∧ ReaderDoes s s') := by
  cases a with
  | mkdir dir pos n ino =>
    left
    simp only [step] at h
    split at h
    · next hg =>
      obtain ⟨hdot, habs, i, sub, hdir, hs'⟩ := make_cases h
      exact ⟨dir, n, _, _, .mkdir dir pos n ino, hg.1, fun m r => by
        rw [Entry.stat, find_dir_cons]; split <;> rfl, hg.2, hdot, habs, pos, i, sub, hdir, hs'⟩
    · cases h
  | create dir pos n ino =>
    left
    simp only [step] at h
    split at h
    · next hg =>
      obtain ⟨hdot, habs, i, sub, hdir, hs'⟩ := make_cases h
      exact ⟨dir, n, _, _, .create dir pos n ino, hg.1, fun _ _ => rfl, hg.2, hdot, habs, pos, i,
        sub, hdir, hs'⟩
    · cases h
  | main => exact Or.inr (Or.inl ⟨rfl, mainStep_cases h⟩)
  | reader => exact Or.inr (Or.inr ⟨rfl, readerStep_cases h⟩)

/-! ## Registering a directory -/

/-- What registering a path does, for the inode `i` it leads to: that has
descriptor `wd` afterwards, its old one or the next free one, and `wd_map[wd]`
is the path. -/
structure Registered (s : Sys) (p : Path) (i : Ino) (wd : Int) (s' : Sys) : Prop where
  old_or_new : s.wdOf i = some wd ∧ s'.wdOf = s.wdOf ∧ s'.nextWd = s.nextWd ∨
    s.wdOf i = none ∧ wd = s.nextWd ∧ s'.wdOf = Function.update s.wdOf i (some wd) ∧
      s'.nextWd = s.nextWd + 1
  map : s'.wdMap = Function.update s.wdMap wd (some p)
  fs : s'.fs = s.fs
  queue : s'.queue = s.queue
  main : s'.main = s.main
  reader : s'.reader = s.reader
  seen : s'.seen = s.seen

theorem register_ino {s : Sys} {p : Path} {i : Ino} (h : inodeOf s.fs p = some i) :
    ∃ wd s', s.register p = some s' ∧ Registered s p i wd s' := by
  unfold Sys.register Sys.inotifyAddWatch
  rw [h]
  cases hw : s.wdOf i with
  | some wd =>
    refine ⟨wd, { s with wdMap := Function.update s.wdMap wd (some p) }, ?_, ?_⟩
    · simp only [Option.map_some, hw]
    · exact ⟨Or.inl ⟨hw, rfl, rfl⟩, rfl, rfl, rfl, rfl, rfl, rfl⟩
  | none =>
    refine ⟨s.nextWd, { s with
      wdOf := Function.update s.wdOf i (some s.nextWd)
      nextWd := s.nextWd + 1
      wdMap := Function.update s.wdMap s.nextWd (some p) }, ?_, ?_⟩
    · simp only [Option.map_some, hw]
    · exact ⟨Or.inr ⟨hw, rfl, rfl, rfl⟩, rfl, rfl, rfl, rfl, rfl, rfl⟩

/-- A registration that succeeds is one of an inode. -/
theorem register_cases {s s' : Sys} {p : Path} (h : s.register p = some s') :
    ∃ i wd, inodeOf s.fs p = some i ∧ Registered s p i wd s' := by
  cases hi : inodeOf s.fs p with
  | none =>
    unfold Sys.register Sys.inotifyAddWatch at h
    rw [hi] at h
    cases h
  | some i =>
    obtain ⟨wd, s₁, hs₁, hreg⟩ := register_ino hi
    cases Option.some.inj (h.symm.trans hs₁)
    exact ⟨i, wd, rfl, hreg⟩

theorem inodeOf_dir {fs : Entry} {p : Path} {i : Ino} (h : fs.stat p = some (.dir i)) :
    inodeOf fs p = some i := by
  rw [inodeOf, resolve_of_stat h (by simp), Option.bind_some, h]
  rfl

theorem register_dir {s : Sys} {p : Path} {i : Ino} (h : s.fs.stat p = some (.dir i)) :
    ∃ wd s', s.register p = some s' ∧ Registered s p i wd s' := register_ino (inodeOf_dir h)

theorem Registered.wdOf_self {s s' : Sys} {p : Path} {i : Ino} {wd : Int}
    (h : Registered s p i wd s') : s'.wdOf i = some wd := by
  rcases h.old_or_new with ⟨ho, hw, -⟩ | ⟨-, -, hw, -⟩
  · rw [hw, ho]
  · rw [hw, Function.update_self]

/-- A descriptor, once given, stays. -/
theorem Registered.wdOf_mono {s s' : Sys} {p : Path} {i : Ino} {wd : Int}
    (h : Registered s p i wd s') {j : Ino} {w : Int} (hj : s.wdOf j = some w) :
    s'.wdOf j = some w := by
  rcases h.old_or_new with ⟨-, hw, -⟩ | ⟨hn, -, hw, -⟩
  · rw [hw, hj]
  · have hji : j ≠ i := fun he => by rw [he, hn] at hj; cases hj
    rw [hw, Function.update_of_ne hji, hj]

/-- Only the registered directory gets a descriptor. -/
theorem Registered.wdOf_cases {s s' : Sys} {p : Path} {i : Ino} {wd : Int}
    (h : Registered s p i wd s') {j : Ino} {w : Int} (hj : s'.wdOf j = some w) :
    s.wdOf j = some w ∨ j = i ∧ w = wd := by
  rcases h.old_or_new with ⟨-, hw, -⟩ | ⟨-, -, hw, -⟩
  · left; rw [← hw, hj]
  · by_cases hji : j = i
    · subst hji
      rw [hw, Function.update_self, Option.some.injEq] at hj
      exact Or.inr ⟨rfl, hj.symm⟩
    · left; rw [hw, Function.update_of_ne hji] at hj; exact hj

/-- Listing what opens yields the path itself and the directories below it. -/
theorem listPaths_of_openDir {fs : Entry} {p : Path} {i : Ino} {sub : Dir}
    (h : fs.openDir p = some (i, sub)) :
    listPaths fs p = .adding (p :: listing Path.append true 2 p sub) := by
  have ho : Openable Path.append (fun _ => true) p sub := openable_true p sub
  obtain ⟨calls, hf⟩ := findFiles_ok true 2 rfl ho ⟨[p], []⟩
  rw [listPaths, h]
  dsimp only
  rw [hf]
  rfl

theorem stat_dir_root {i j : Ino} {d : Dir} {z : Path} (hz : z ≠ []) :
    (Entry.dir i d).stat z = (Entry.dir j d).stat z := by
  cases z with
  | nil => exact absurd rfl hz
  | cons n z => rfl

/-- What `watch(p)` will register, for a directory `p`: every directory at or
below `p`. -/
theorem mem_listPaths {fs : Entry} (hwf : fs.WF) {p : Path} {i : Ino}
    (h : fs.stat p = some (.dir i)) :
    ∃ ps, listPaths fs p = .adding ps ∧
      ∀ y, y ∈ ps ↔ p <+: y ∧ ∃ j, fs.stat y = some (.dir j) := by
  obtain ⟨sub, hsub⟩ := stat_dir_iff.mp h
  refine ⟨_, listPaths_of_openDir (openDir_of_find hsub), fun y => ?_⟩
  rw [List.mem_cons, mem_listing_dirs (wf_find hwf hsub : (Entry.dir i sub).WF)]
  constructor
  · intro hy
    rcases hy with rfl | ⟨z, j, rfl, hz, hstat⟩
    · exact ⟨List.prefix_refl _, i, h⟩
    · refine ⟨List.prefix_append _ _, j, ?_⟩
      rw [stat_append hsub, stat_dir_root hz, hstat]
  · intro hy
    obtain ⟨⟨z, rfl⟩, j, hstat⟩ := hy
    cases z with
    | nil => left; simp
    | cons n z =>
      right
      refine ⟨n :: z, j, rfl, by simp, ?_⟩
      rw [stat_append hsub] at hstat
      exact hstat

/-! ## The invariant -/

/-- The entry a path names is a directory or a regular file. -/
def Real (fs : Entry) (p : Path) : Prop :=
  ∃ node, fs.stat p = some node ∧ ∀ i s, node ≠ .leaf i (some s)

/-- The file system is sound, and no descriptor is used twice. -/
structure Wired (s : Sys) : Prop where
  wf : s.fs.WF
  uniq : s.fs.Unique
  wdLt : ∀ {i w}, s.wdOf i = some w → w < s.nextWd
  wdInj : ∀ {i j w}, s.wdOf i = some w → s.wdOf j = some w → i = j

/-- The watch table and `wd_map` fit the file system. -/
structure TableInv (root : Path) (s : Sys) : Prop extends Wired s where
  rootDir : ∃ i, s.fs.stat root = some (.dir i)
  live : ∀ {i w}, s.wdOf i = some w →
    ∃ p, root <+: p ∧ s.fs.stat p = some (.dir i) ∧ s.wdMap w = some p

/-- The event is the creation of `n` in the watched directory `p`. -/
structure Creation (root : Path) (s : Sys) (e : Event) (p : Path) (n : Name) : Prop where
  named : ∃ mask, e = .named e.wd mask n ∧ changeType mask = .added
  below : root <+: p
  watched : ∃ i, s.fs.stat p = some (.dir i) ∧ s.wdOf i = some e.wd
  real : Real s.fs (p ++ [n])

/-- A directory at or below the root. -/
def UnderDir (root : Path) (s : Sys) (p : Path) : Prop :=
  root <+: p ∧ ∃ i, s.fs.stat p = some (.dir i)

/-- A change of an existing entry below the root. -/
def GoodChange (root : Path) (s : Sys) (c : Change Path) : Prop :=
  c.ct = .added ∧ root <+: c.path ∧ Real s.fs c.path

def GoodCall (root : Path) (s : Sys) : Call → Prop
  | .listing p => UnderDir root s p
  | .adding ps => ∀ p ∈ ps, UnderDir root s p
  | .threw => False

def GoodReader (root : Path) (s : Sys) : Reader Path → Prop
  | .idle => True
  | .taken c => GoodChange root s c
  | .watching c call => GoodChange root s c ∧ GoodCall root s call
  | .notify c => GoodChange root s c
  | .terminated => False

/-- The invariant of every run of creations, `watch(root)` and the reader. -/
structure Inv (root : Path) (s : Sys) : Prop where
  table : TableInv root s
  events : ∀ e ∈ s.queue, ∃ p n, Creation root s e p n
  main : ∀ call, s.main = some call → GoodCall root s call
  reader : GoodReader root s s.reader

/-- Paths and descriptors keep their meaning from `s` to `s'`. -/
structure Grows (s s' : Sys) : Prop where
  stat : ∀ {p node}, s.fs.stat p = some node → s'.fs.stat p = some node
  wdOf : ∀ {i w}, s.wdOf i = some w → s'.wdOf i = some w

section

variable {root : Path} {s s' : Sys}

theorem Grows.same (hfs : s'.fs = s.fs) (hwd : s'.wdOf = s.wdOf) : Grows s s' :=
  ⟨fun h => by rw [hfs]; exact h, fun h => by rw [hwd]; exact h⟩

theorem Grows.real (g : Grows s s') {p : Path} (h : Real s.fs p) : Real s'.fs p := by
  obtain ⟨node, hn, hnode⟩ := h
  exact ⟨node, g.stat hn, hnode⟩

theorem Grows.underDir (g : Grows s s') {p : Path} (h : UnderDir root s p) :
    UnderDir root s' p := by
  obtain ⟨hp, i, hi⟩ := h
  exact ⟨hp, i, g.stat hi⟩

theorem Grows.creation (g : Grows s s') {e : Event} {p : Path} {n : Name}
    (h : Creation root s e p n) : Creation root s' e p n := by
  obtain ⟨i, hi, hw⟩ := h.watched
  exact ⟨h.named, h.below, ⟨i, g.stat hi, g.wdOf hw⟩, g.real h.real⟩

theorem Grows.goodChange (g : Grows s s') {c : Change Path} (h : GoodChange root s c) :
    GoodChange root s' c := ⟨h.1, h.2.1, g.real h.2.2⟩

theorem Grows.goodCall (g : Grows s s') {call : Call} (h : GoodCall root s call) :
    GoodCall root s' call := by
  cases call with
  | listing p => exact g.underDir h
  | adding ps => exact fun p hp => g.underDir (h p hp)
  | threw => exact h

theorem Grows.goodReader (g : Grows s s') {r : Reader Path} (h : GoodReader root s r) :
    GoodReader root s' r := by
  cases r with
  | idle => trivial
  | taken c => exact g.goodChange h
  | watching c call => exact ⟨g.goodChange h.1, g.goodCall h.2⟩
  | notify c => exact g.goodChange h
  | terminated => exact h

/-- The table invariant looks at four fields only. -/
theorem Wired.same (h : Wired s) (hfs : s'.fs = s.fs) (hwd : s'.wdOf = s.wdOf)
    (hnext : s'.nextWd = s.nextWd) : Wired s' := by
  refine ⟨hfs ▸ h.wf, hfs ▸ h.uniq, ?_, ?_⟩
  · intro i w hw
    rw [hwd] at hw
    rw [hnext]
    exact h.wdLt hw
  · intro i j w hi hj
    rw [hwd] at hi hj
    exact h.wdInj hi hj

theorem TableInv.same (h : TableInv root s) (hfs : s'.fs = s.fs) (hwd : s'.wdOf = s.wdOf)
    (hnext : s'.nextWd = s.nextWd) (hmap : s'.wdMap = s.wdMap) : TableInv root s' := by
  refine ⟨h.toWired.same hfs hwd hnext, hfs ▸ h.rootDir, ?_⟩
  intro i w hw
  rw [hwd] at hw
  rw [hfs, hmap]
  exact h.live hw

/-! ## Creations -/

/-- Everything `emit` leaves alone. -/
theorem emit_fields (s : Sys) (ino : Ino) (mask : UInt32) (n : Name) :
    (s.emit ino mask n).fs = s.fs ∧ (s.emit ino mask n).wdOf = s.wdOf ∧
      (s.emit ino mask n).nextWd = s.nextWd ∧ (s.emit ino mask n).wdMap = s.wdMap ∧
      (s.emit ino mask n).main = s.main ∧ (s.emit ino mask n).reader = s.reader ∧
      (s.emit ino mask n).seen = s.seen := by
  unfold Sys.emit
  cases s.wdOf ino <;> exact ⟨rfl, rfl, rfl, rfl, rfl, rfl, rfl⟩

theorem emit_queue (s : Sys) (ino : Ino) (mask : UInt32) (n : Name) :
    (s.emit ino mask n).queue = s.queue ++
      match s.wdOf ino with
      | some wd => [.named wd mask n]
      | none => [] := by
  unfold Sys.emit
  cases s.wdOf ino <;> simp

variable {dir : Path} {n : Name} {new : Entry} {mask : UInt32}

/-- The new entry, and nothing else, is new. -/
theorem Made.stat (h : Made root s dir n new mask s') (q : Path) :
    s'.fs.stat q = if q = dir ++ [n] then some new.node else s.fs.stat q := by
  obtain ⟨pos, ino, sub, hdir, rfl⟩ := h.state
  rw [(emit_fields _ _ _ _).1]
  exact stat_addAt_bare h.bare hdir h.legit h.absent q

theorem Made.stat_absent (h : Made root s dir n new mask s') : s.fs.stat (dir ++ [n]) = none :=
  stat_none_iff.mpr h.absent

theorem Made.grows (h : Made root s dir n new mask s') : Grows s s' := by
  refine ⟨fun {p node} hp => ?_, fun {i w} hw => ?_⟩
  · rw [h.stat, if_neg]
    · exact hp
    · intro he
      rw [he, h.stat_absent] at hp
      cases hp
  · obtain ⟨pos, ino, sub, hdir, rfl⟩ := h.state
    rw [(emit_fields _ _ _ _).2.1]
    exact hw

theorem Made.tableInv (h : Made root s dir n new mask s') (hnew : new.WF)
    (ht : TableInv root s) : TableInv root s' := by
  have g := h.grows
  obtain ⟨pos, ino, sub, hdir, hs'⟩ := h.state
  obtain ⟨hfs, hwd, hnext, hmap, -⟩ := hs' ▸ emit_fields _ ino mask n
  refine ⟨⟨?_, ?_, ?_, ?_⟩, ?_, ?_⟩
  · rw [hfs]
    exact wf_addAt ht.wf hnew hdir h.legit h.absent
  · rw [hfs]
    exact unique_addAt_bare ht.uniq h.bare h.fresh hdir h.legit h.absent
  · intro i w hw
    rw [hnext]
    exact ht.wdLt (hwd ▸ hw)
  · intro i j w hi hj
    exact ht.wdInj (hwd ▸ hi) (hwd ▸ hj)
  -- nothing is moved or removed, so the old paths still lead where they led
  · obtain ⟨i, hi⟩ := ht.rootDir
    exact ⟨i, g.stat hi⟩
  · intro i w hw
    obtain ⟨p, hp, hi, hm⟩ := ht.live (hwd ▸ hw)
    exact ⟨p, hp, g.stat hi, by rw [hmap]; exact hm⟩

/-- An event is queued for a creation exactly when the directory is watched. -/
theorem Made.queue (h : Made root s dir n new mask s') :
    ∃ ino, s.fs.stat dir = some (.dir ino) ∧
      s'.queue = s.queue ++
        match s.wdOf ino with
        | some wd => [.named wd mask n]
        | none => [] := by
  obtain ⟨pos, ino, sub, hdir, rfl⟩ := h.state
  exact ⟨ino, stat_dir_iff.mpr ⟨sub, hdir⟩, emit_queue _ ino mask n⟩

theorem Made.threads (h : Made root s dir n new mask s') :
    s'.main = s.main ∧ s'.reader = s.reader ∧ s'.seen = s.seen := by
  obtain ⟨pos, ino, sub, hdir, rfl⟩ := h.state
  obtain ⟨-, -, -, -, hm, hr, hse⟩ := emit_fields { s with fs := s.fs.addAt dir pos n new } ino mask n
  exact ⟨hm, hr, hse⟩

/-- The event of a creation in a watched directory says what was created. -/
theorem Made.creation (h : Made root s dir n new mask s')
    (hlink : ∀ i s, new.node ≠ .leaf i (some s)) (hmask : changeType mask = .added)
    {ino : Ino} {wd : Int} (hino : s.fs.stat dir = some (.dir ino)) (hw : s.wdOf ino = some wd) :
    Creation root s' (.named wd mask n) dir n where
  named := ⟨mask, rfl, hmask⟩
  below := h.below
  watched := ⟨ino, h.grows.stat hino, h.grows.wdOf hw⟩
  real := ⟨new.node, by rw [h.stat, if_pos rfl], hlink⟩

theorem Made.inv (h : Made root s dir n new mask s') (hnew : new.WF)
    (hlink : ∀ i s, new.node ≠ .leaf i (some s)) (hmask : changeType mask = .added)
    (hI : Inv root s) : Inv root s' := by
  have g := h.grows
  obtain ⟨hm, hr, -⟩ := h.threads
  refine ⟨h.tableInv hnew hI.table, ?_, ?_, ?_⟩
  · intro e he
    obtain ⟨ino, hino, hq⟩ := h.queue
    rw [hq] at he
    rcases List.mem_append.mp he with he | he
    · obtain ⟨p, m, hc⟩ := hI.events e he
      exact ⟨p, m, g.creation hc⟩
    · -- the one event the creation itself may have queued
      cases hw : s.wdOf ino with
      | none => rw [hw] at he; cases he
      | some wd =>
        rw [hw] at he
        cases List.mem_singleton.mp he
        exact ⟨dir, n, h.creation hlink hmask hino hw⟩
  · intro call hc
    exact g.goodCall (hI.main call (hm ▸ hc))
  · rw [hr]
    exact g.goodReader hI.reader

/-! ## Registering and reading -/

theorem UnderDir.registered {p : Path} (h : UnderDir root s p) (hs : s.register p = some s') :
    ∃ i wd, s.fs.stat p = some (.dir i) ∧ Registered s p i wd s' := by
  obtain ⟨-, i, hi⟩ := h
  obtain ⟨j, wd, hj, hreg⟩ := register_cases hs
  cases (inodeOf_dir hi).symm.trans hj
  exact ⟨i, wd, hi, hreg⟩

theorem Registered.grows {p : Path} {i : Ino} {wd : Int} (h : Registered s p i wd s') :
    Grows s s' := ⟨fun hp => by rw [h.fs]; exact hp, h.wdOf_mono⟩

/-- Nobody else has the descriptor of the registered directory. -/
theorem Registered.own {p : Path} {i : Ino} {wd : Int} (h : Registered s p i wd s')
    (hs : Wired s) {j : Ino} (hj : s'.wdOf j = some wd) : j = i := by
  rcases h.wdOf_cases hj with hj | ⟨hj, -⟩
  · rcases h.old_or_new with ⟨ho, -⟩ | ⟨-, hw, -⟩
    · exact hs.wdInj hj ho
    · -- a fresh descriptor is above every one given out before
      have hlt := hs.wdLt hj
      omega
  · exact hj

theorem Registered.wired {p : Path} {i : Ino} {wd : Int} (h : Registered s p i wd s')
    (hs : Wired s) : Wired s' := by
  have hlt : wd < s'.nextWd := by
    rcases h.old_or_new with ⟨ho, -, hn⟩ | ⟨-, hw, -, hn⟩
    · rw [hn]; exact hs.wdLt ho
    · rw [hn, hw]; omega
  have hle : s.nextWd ≤ s'.nextWd := by
    rcases h.old_or_new with ⟨-, -, hn⟩ | ⟨-, -, -, hn⟩
    · omega
    · omega
  refine ⟨h.fs ▸ hs.wf, h.fs ▸ hs.uniq, ?_, ?_⟩
  · intro j w hj
    rcases h.wdOf_cases hj with hj | ⟨-, rfl⟩
    · exact Int.lt_of_lt_of_le (hs.wdLt hj) hle
    · exact hlt
  · intro j k w hj hk
    by_cases hw : w = wd
    · rw [hw] at hj hk
      rw [h.own hs hj, h.own hs hk]
    · rcases h.wdOf_cases hj with hj' | ⟨-, he⟩
      · rcases h.wdOf_cases hk with hk' | ⟨-, he⟩
        · exact hs.wdInj hj' hk'
        · exact absurd he hw
      · exact absurd he hw

theorem Registered.tableInv {p : Path} {i : Ino} {wd : Int} (h : Registered s p i wd s')
    (hp : root <+: p) (hi : s.fs.stat p = some (.dir i)) (ht : TableInv root s) :
    TableInv root s' := by
  refine ⟨h.wired ht.toWired, h.fs ▸ ht.rootDir, ?_⟩
  intro j w hj
  rw [h.fs, h.map]
  by_cases hw : w = wd
  · -- the entry just written: only the registered inode has this descriptor
    rw [hw] at hj ⊢
    cases h.own ht.toWired hj
    exact ⟨p, hp, hi, Function.update_self ..⟩
  · rcases h.wdOf_cases hj with hj | ⟨-, he⟩
    · rw [Function.update_of_ne hw]
      exact ht.live hj
    · exact absurd he hw

/-- The change built for a queued event is the creation it stands for. -/
theorem Creation.changeOf {e : Event} {p : Path} {n : Name} (ht : TableInv root s)
    (h : Creation root s e p n) : s.changeOf e = ⟨.added, p ++ [n]⟩ := by
  obtain ⟨mask, he, hmask⟩ := h.named
  obtain ⟨i, hi, hw⟩ := h.watched
  obtain ⟨q, -, hq, hm⟩ := ht.live hw
  -- a directory has one path, so `wd_map` holds the one it was created under
  have hpq : q = p := ht.uniq hq hi
  have hlook : s.lookup e.wd = p := by rw [Sys.lookup, hm, hpq]; rfl
  rw [Sys.changeOf, hlook, he]
  simp only [Event.named, Event.fullPath, hmask]

/-- Taking a creation event leaves `wd_map` as it is. -/
theorem Creation.take_wdMap {e : Event} {p : Path} {n : Name} (rest : List Event)
    (ht : TableInv root s) (h : Creation root s e p n) : (s.take e rest).wdMap = s.wdMap := by
  obtain ⟨i, hi, hw⟩ := h.watched
  obtain ⟨q, -, -, hm⟩ := ht.live hw
  show Function.update s.wdMap e.wd (some (s.lookup e.wd)) = s.wdMap
  rw [Sys.lookup, hm]
  exact Function.update_eq_self_iff.mpr hm.symm

/-! ## The pieces of a step -/

theorem Makes.spec {a : Act} (h : Makes a dir n new mask) :
    new.WF ∧ (∀ i s, new.node ≠ .leaf i (some s)) ∧ changeType mask = .added := by
  cases h with
  | mkdir => exact ⟨trivial, by simp [Entry.node], rfl⟩
  | create => exact ⟨trivial, by simp [Entry.node], rfl⟩

/-- An existing directory or file that `is_directory` accepts is a directory. -/
theorem Real.dir_of_isDirectory {fs : Entry} {p : Path} (h : Real fs p)
    (hd : fs.isDirectory p = true) : ∃ i, fs.stat p = some (.dir i) := by
  obtain ⟨node, hn, hnode⟩ := h
  cases node with
  | dir i => exact ⟨i, hn⟩
  | leaf i link =>
    cases link with
    | none => rw [isDirectory_of_file hn] at hd; cases hd
    | some l => exact absurd rfl (hnode i l)

/-- No step of a good call throws. -/
theorem GoodCall.not_throw (ht : TableInv root s) {call : Call} (h : GoodCall root s call) :
    s.callStep call ≠ (s, some .threw) := by
  cases call with
  | listing p =>
    obtain ⟨-, i, hi⟩ := h
    obtain ⟨ps, hps, -⟩ := mem_listPaths ht.wf hi
    rw [Sys.callStep, hps]
    simp
  | adding ps =>
    cases ps with
    | nil => simp [Sys.callStep]
    | cons p ps =>
      obtain ⟨-, i, hi⟩ := h p (List.mem_cons_self ..)
      obtain ⟨wd, s', hs', -⟩ := register_dir hi
      rw [Sys.callStep, hs']
      simp
  | threw => exact h.elim

/-- What a listing yields is fit for registering. -/
theorem UnderDir.goodCall (ht : TableInv root s) {p : Path} (h : UnderDir root s p) :
    GoodCall root s (listPaths s.fs p) := by
  obtain ⟨hp, i, hi⟩ := h
  obtain ⟨ps, hps, hmem⟩ := mem_listPaths ht.wf hi
  rw [hps]
  intro y hy
  obtain ⟨hpy, hdir⟩ := (hmem y).mp hy
  exact ⟨hp.trans hpy, hdir⟩

/-- A step of a thread that leaves the file system, the kernel and `wd_map` alone. -/
theorem Inv.threads (hI : Inv root s) {m : Option Call} {r : Reader Path} {seen : List (Change Path)}
    (hm : ∀ call, m = some call → GoodCall root s call) (hr : GoodReader root s r) :
    Inv root { s with main := m, reader := r, seen := seen } := by
  have g : Grows s { s with main := m, reader := r, seen := seen } := .same rfl rfl
  refine ⟨hI.table.same rfl rfl rfl rfl, ?_, fun call hc => g.goodCall (hm call hc),
    g.goodReader hr⟩
  intro e he
  obtain ⟨p, k, hc⟩ := hI.events e he
  exact ⟨p, k, g.creation hc⟩

/-- Registering one more path in one of the threads. -/
theorem Registered.inv {p : Path} {i : Ino} {wd : Int} (h : Registered s p i wd s')
    (hp : root <+: p) (hi : s.fs.stat p = some (.dir i)) (hI : Inv root s) : Inv root s' := by
  have g := h.grows
  refine ⟨h.tableInv hp hi hI.table, ?_, ?_, ?_⟩
  · intro e he
    rw [h.queue] at he
    obtain ⟨q, k, hc⟩ := hI.events e he
    exact ⟨q, k, g.creation hc⟩
  · intro call hc
    rw [h.main] at hc
    exact g.goodCall (hI.main call hc)
  · rw [h.reader]
    exact g.goodReader hI.reader

/-! ## What the queue will be reported as -/

theorem changeOf_congr (h : s'.wdMap = s.wdMap) : s'.changeOf = s.changeOf := by
  funext e
  rw [Sys.changeOf, Sys.changeOf, Sys.lookup, Sys.lookup, h]

/-- A creation in a watched directory adds itself to what is to be reported. -/
theorem Made.changes (h : Made root s dir n new mask s') (hnew : new.WF)
    (hlink : ∀ i s, new.node ≠ .leaf i (some s)) (hmask : changeType mask = .added)
    (hI : Inv root s) :
    ∃ ino, s.fs.stat dir = some (.dir ino) ∧
      s'.queue.map s'.changeOf = s.queue.map s.changeOf ++
        if (s.wdOf ino).isSome then [⟨.added, dir ++ [n]⟩] else [] := by
  have hI' : Inv root s' := h.inv hnew hlink hmask hI
  have hmap : s'.wdMap = s.wdMap := by
    obtain ⟨pos, ino, sub, hdir, rfl⟩ := h.state
    exact (emit_fields _ ino mask n).2.2.2.1
  obtain ⟨ino, hino, hq⟩ := h.queue
  refine ⟨ino, hino, ?_⟩
  rw [changeOf_congr hmap, hq]
  cases hw : s.wdOf ino with
  | none => simp
  | some wd =>
    have hchange := (h.creation hlink hmask hino hw).changeOf hI'.table
    rw [changeOf_congr hmap] at hchange
    simp [hchange]

/-- Registering a path does not change what queued events will be reported as. -/
theorem Registered.changes {p : Path} {i : Ino} {wd : Int} (h : Registered s p i wd s')
    (hp : root <+: p) (hi : s.fs.stat p = some (.dir i)) (hI : Inv root s) :
    s'.queue.map s'.changeOf = s.queue.map s.changeOf := by
  have hI' := h.inv hp hi hI
  rw [h.queue]
  apply List.map_congr_left
  intro e he
  obtain ⟨q, k, hc⟩ := hI.events e he
  rw [hc.changeOf hI.table, (h.grows.creation hc).changeOf hI'.table]

/-- Nor does taking one of them. -/
theorem Inv.take_changes {e : Event} {rest : List Event} (hI : Inv root s)
    (hq : s.queue = e :: rest) :
    s.queue.map s.changeOf = s.changeOf e :: (s.take e rest).queue.map (s.take e rest).changeOf := by
  obtain ⟨p, k, hc⟩ := hI.events e (by rw [hq]; exact List.mem_cons_self ..)
  rw [changeOf_congr (hc.take_wdMap rest hI.table), hq]
  rfl

/-! ## Every step keeps the invariant -/

theorem MainDoes.inv (h : MainDoes s s') (hI : Inv root s) : Inv root s' := by
  cases h with
  | list hm hl =>
    refine hI.threads (fun call hc => ?_) hI.reader
    cases hc
    exact UnderDir.goodCall hI.table (hI.main _ hm)
  | add hm ha =>
    have hgood := hI.main _ hm
    have hu := hgood _ (List.mem_cons_self ..)
    obtain ⟨i, wd, hi, hreg⟩ := hu.registered ha
    have hI' := hreg.inv hu.1 hi hI
    refine hI'.threads (fun call hc => ?_) hI'.reader
    cases hc
    exact fun q hq => hreg.grows.underDir (hgood q (List.mem_cons_of_mem _ hq))
  | leave hm => exact hI.threads (fun call hc => by cases hc) hI.reader
  -- a call that works on directories under the root does not throw
  | die hm hc => exact absurd hc ((hI.main _ hm).not_throw hI.table)

theorem ReaderDoes.inv (h : ReaderDoes s s') (hI : Inv root s) : Inv root s' := by
  have hr' := hI.reader
  cases h with
  | take hr hq =>
    rename_i e rest
    obtain ⟨p, k, hc⟩ := hI.events e (by rw [hq]; exact List.mem_cons_self ..)
    have hmap := hc.take_wdMap rest hI.table
    have g : Grows s (s.take e rest) := .same rfl rfl
    -- `operator[]` may enter a key, but the one it reads here is there already
    refine ⟨hI.table.same rfl rfl rfl hmap, ?_, fun call hm => g.goodCall (hI.main call hm), ?_⟩
    · intro e' he'
      obtain ⟨p', k', hc'⟩ := hI.events e' (by rw [hq]; exact List.mem_cons_of_mem _ he')
      exact ⟨p', k', g.creation hc'⟩
    · show GoodChange root _ (s.changeOf e)
      rw [hc.changeOf hI.table]
      exact ⟨rfl, hc.below.trans (List.prefix_append _ _), g.real hc.real⟩
  | enter hr hd =>
    -- `is_directory` follows links, but the runs here make none
    rw [hr] at hr'
    exact hI.threads hI.main ⟨hr', hr'.2.1, hr'.2.2.dir_of_isDirectory hd⟩
  | pass hr hd =>
    rw [hr] at hr'
    exact hI.threads hI.main hr'
  | list hr hl =>
    rw [hr] at hr'
    exact hI.threads hI.main ⟨hr'.1, UnderDir.goodCall hI.table hr'.2⟩
  | add hr ha =>
    rw [hr] at hr'
    have hu := hr'.2 _ (List.mem_cons_self ..)
    obtain ⟨i, wd, hi, hreg⟩ := hu.registered ha
    have hI' := hreg.inv hu.1 hi hI
    exact hI'.threads hI'.main ⟨hreg.grows.goodChange hr'.1,
      fun q hq => hreg.grows.underDir (hr'.2 q (List.mem_cons_of_mem _ hq))⟩
  | leave hr =>
    rw [hr] at hr'
    exact hI.threads hI.main hr'.1
  | die hr hc =>
    rw [hr] at hr'
    exact absurd hc (hr'.2.not_throw hI.table)
  | notify hr => exact hI.threads hI.main trivial

/-- Every step keeps the invariant. -/
theorem inv_step {a : Act} (hI : Inv root s) (h : step root s a = some s') : Inv root s' := by
  rcases step_cases h with ⟨dir, n, new, mask, hmk, hm⟩ | ⟨-, hm⟩ | ⟨-, hr⟩
  · obtain ⟨hwf, hlink, hmask⟩ := hmk.spec
    exact hm.inv hwf hlink hmask hI
  · exact hm.inv hI
  · exact hr.inv hI

/-- Registering a list of directories, one after the other. -/
theorem foldlM_register {ps : List Path} (hI : Inv root s) (hps : ∀ p ∈ ps, UnderDir root s p) :
    ∃ s', ps.foldlM Sys.register s = some s' ∧ Inv root s' ∧ s'.fs = s.fs ∧ s'.queue = s.queue ∧
      s'.main = s.main ∧ s'.reader = s.reader ∧ s'.seen = s.seen ∧ Grows s s' ∧
      ∀ p ∈ ps, s'.Watched p := by
  induction ps generalizing s with
  | nil =>
    exact ⟨s, rfl, hI, rfl, rfl, rfl, rfl, rfl, .same rfl rfl, fun p hp => by cases hp⟩
  | cons p ps ih =>
    obtain ⟨hp, i, hi⟩ := hps p (List.mem_cons_self ..)
    obtain ⟨wd, s₁, hs₁, hreg⟩ := register_dir hi
    obtain ⟨s', hs', hI', hfs, hq, hm, hr, hse, g, hw⟩ := ih (hreg.inv hp hi hI)
      (fun q hq => hreg.grows.underDir (hps q (List.mem_cons_of_mem _ hq)))
    refine ⟨s', ?_, hI', hfs.trans hreg.fs, hq.trans hreg.queue, hm.trans hreg.main,
      hr.trans hreg.reader, hse.trans hreg.seen,
      ⟨fun h => g.stat (hreg.grows.stat h), fun h => g.wdOf (hreg.grows.wdOf h)⟩, ?_⟩
    · rw [List.foldlM_cons, hs₁]
      exact hs'
    · intro q hq
      rcases List.mem_cons.mp hq with rfl | hq
      · exact ⟨i, wd, g.stat (hreg.grows.stat hi), g.wdOf hreg.wdOf_self⟩
      · exact hw q hq

theorem wired_start (fs : FileSystem) : Wired (Sys.start fs.tree) := by
  refine ⟨fs.wf, unique_of_nodup fs.nodup, ?_, ?_⟩
  · intro i w hw; cases hw
  · intro i j w hw; cases hw

/-- A monitor that has not watched anything yet. -/
theorem start_inv {fs : FileSystem} {i : Ino} (h : fs.tree.stat root = some (.dir i)) :
    Inv root (Sys.start fs.tree) := by
  refine ⟨⟨wired_start fs, ⟨i, h⟩, ?_⟩, ?_, ?_, trivial⟩
  · intro i w hw; cases hw
  · intro e he; cases he
  · intro call hc; cases hc

/-- After `watch(root)` on a tree nobody changes meanwhile, every directory
under the root is watched. -/
theorem watch_start {fs : FileSystem} {i : Ino} {s₀ : Sys}
    (h : fs.tree.stat root = some (.dir i)) (hw : (Sys.start fs.tree).watch root = some s₀) :
    Inv root s₀ ∧ s₀.fs = fs.tree ∧ s₀.queue = [] ∧ s₀.main = none ∧ s₀.reader = .idle ∧
      s₀.seen = [] ∧ ∀ p, UnderDir root s₀ p → s₀.Watched p := by
  obtain ⟨ps, hps, hmem⟩ := mem_listPaths fs.wf h
  have hI : Inv root (Sys.start fs.tree) := start_inv h
  obtain ⟨s', hs', hI', hfs, hq, hm, hr, hse, -, hwatched⟩ :=
    foldlM_register hI
      (fun y hy => (hmem y).mp hy : ∀ y ∈ ps, UnderDir root (Sys.start fs.tree) y)
  have hwatch : (Sys.start fs.tree).watch root = some s' := by
    have hlist : listPaths (Sys.start fs.tree).fs root = .adding ps := hps
    rw [Sys.watch, hlist]
    exact hs'
  cases Option.some.inj (hw.symm.trans hwatch)
  refine ⟨hI', hfs, hq, hm, hr, hse, fun p hp => ?_⟩
  obtain ⟨hp, j, hj⟩ := hp
  rw [hfs] at hj
  exact hwatched p ((hmem p).mpr ⟨hp, j, hj⟩)

end

end CommonCpp.Monitor
