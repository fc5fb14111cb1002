import CommonCpp.Monitor.Operation
import Mathlib.Data.List.Infix

/-!
# Which paths are reported

`wd_map` is right about a directory if it sends the directory's descriptor to
its path. As long as it is right about every directory under the root, every
named event is reported with the path of the entry that changed. Renames keep
it so, because a directory that is moved is listed and registered again.

Three things break it: a symbolic link to a directory, which is registered as if
it were one (and takes the descriptor over from the real path); a change in a
directory that was moved out of the tree with its watch; and a record without a
name that reads as a path outside the root or through a link.
-/

namespace CommonCpp.Monitor

open CommonCpp.Fs CommonCpp.Lib

/-- `wd_map` has the path of the directory at `p`, if there is one. -/
def Sys.Right (s : Sys) (p : Path) : Prop :=
  ∀ i, s.fs.stat p = some (.dir i) → ∃ wd, s.wdOf i = some wd ∧ s.wdMap wd = some p

/-- `wd_map` has a path under the root for every watch, of a directory that was
moved away too. -/
def Rooted (root : Path) (s : Sys) : Prop :=
  ∀ {i wd}, s.wdOf i = some wd → root <+: s.lookup wd

/-- What the reader does leaves the tree, and what `wd_map` was right about, as it was. -/
structure Keeps (root : Path) (s s' : Sys) : Prop where
  fs : s'.fs = s.fs
  wdOf : ∀ {i wd}, s.wdOf i = some wd → s'.wdOf i = some wd
  right : ∀ {p}, s.Right p → s'.Right p
  rooted : Rooted root s → Rooted root s'
  dead : ∀ {wd}, Dead s wd → Dead s' wd ∧ s'.lookup wd = s.lookup wd

variable {root : Path} {s s' s₁ : Sys}

theorem Keeps.refl (s : Sys) : Keeps root s s := ⟨rfl, id, id, id, fun h => ⟨h, rfl⟩⟩

theorem Keeps.trans (h : Keeps root s s₁) (h' : Keeps root s₁ s') : Keeps root s s' := by
  refine ⟨h'.fs.trans h.fs, fun hw => h'.wdOf (h.wdOf hw), fun hr => h'.right (h.right hr),
    fun hr => h'.rooted (h.rooted hr), ?_⟩
  intro wd hd
  obtain ⟨hd₁, hl₁⟩ := h.dead hd
  obtain ⟨hd', hl'⟩ := h'.dead hd₁
  exact ⟨hd', hl'.trans hl₁⟩

/-! ## A call of `watch` -/

theorem Registered.keeps {p : Path} {i : Ino} {wd : Int} (h : Registered s p i wd s')
    (hs : Wired s) (hp : root <+: p) (hi : s.fs.stat p = some (.dir i)) : Keeps root s s' := by
  refine ⟨h.fs, h.wdOf_mono, ?_, ?_, ?_⟩
  · intro q hq j hj
    rw [h.fs] at hj
    obtain ⟨w, hw, hm⟩ := hq j hj
    refine ⟨w, h.wdOf_mono hw, ?_⟩
    rw [h.map]
    by_cases he : w = wd
    · -- the same descriptor is the same directory, and that has one path
      subst he
      have hji : j = i := h.own hs (h.wdOf_mono hw)
      subst hji
      rw [Function.update_self, hs.uniq hi hj]
    · rw [Function.update_of_ne he]
      exact hm
  · intro hroot j w hj
    unfold Sys.lookup
    rw [h.map]
    by_cases he : w = wd
    · rw [he, Function.update_self]
      exact hp
    · rw [Function.update_of_ne he]
      rcases h.wdOf_cases hj with hj | ⟨-, hw⟩
      · exact hroot hj
      · exact absurd hw he
  · -- a descriptor that ended is not given out again
    intro w hw
    have hne : w ≠ wd := by
      intro he
      rcases h.old_or_new with ⟨ho, -⟩ | ⟨-, hnew, -⟩
      · exact hw.2 i (he ▸ ho)
      · have hlt := hw.1
        omega
    refine ⟨⟨?_, ?_⟩, ?_⟩
    · have hlt := hw.1
      rcases h.old_or_new with ⟨-, -, hn⟩ | ⟨-, -, -, hn⟩
      · omega
      · omega
    · intro j hj
      rcases h.wdOf_cases hj with hj | ⟨-, he⟩
      · exact hw.2 j hj
      · exact hne he
    · unfold Sys.lookup
      rw [h.map, Function.update_of_ne hne]

theorem Registered.right {p : Path} {i : Ino} {wd : Int} (h : Registered s p i wd s')
    (hi : s.fs.stat p = some (.dir i)) : s'.Right p := by
  intro j hj
  rw [h.fs, hi] at hj
  cases hj
  exact ⟨wd, h.wdOf_self, by rw [h.map, Function.update_self]⟩

/-- Registering real directories makes `wd_map` right about them. -/
theorem registers {ps : List Path} (hs : Wired s) (hps : ∀ p ∈ ps, UnderDir root s p) :
    ∃ s', ps.foldlM Sys.register s = some s' ∧ Wired s' ∧ Keeps root s s' ∧
      s'.queue = s.queue ∧ s'.reader = s.reader ∧ s'.seen = s.seen ∧ ∀ p ∈ ps, s'.Right p := by
  induction ps generalizing s with
  | nil => exact ⟨s, rfl, hs, .refl s, rfl, rfl, rfl, List.forall_mem_nil _⟩
  | cons p ps ih =>
    obtain ⟨hp, i, hi⟩ := hps p (List.mem_cons_self ..)
    obtain ⟨wd, s₁, hreg, h₁⟩ := register_dir hi
    obtain ⟨s', hfold, hs', hk, hqueue, hread, hseen, hright⟩ :=
      ih (h₁.wired hs) fun q hq => h₁.grows.underDir (hps q (List.mem_cons_of_mem _ hq))
    refine ⟨s', ?_, hs', (h₁.keeps hs hp hi).trans hk, hqueue.trans h₁.queue,
      hread.trans h₁.reader, hseen.trans h₁.seen, ?_⟩
    · rw [List.foldlM_cons, hreg]
      exact hfold
    · intro q hq
      rcases List.mem_cons.mp hq with rfl | hq
      · exact hk.right (h₁.right hi)
      · exact hright q hq

/-- `watch` of a real directory makes `wd_map` right about it and all below it. -/
theorem watch_dir {p : Path} {i : Ino} (hs : Wired s) (hp : root <+: p)
    (hi : s.fs.stat p = some (.dir i)) :
    ∃ s', s.watch p = some s' ∧ Wired s' ∧ Keeps root s s' ∧ s'.queue = s.queue ∧
      s'.reader = s.reader ∧ s'.seen = s.seen ∧ ∀ q, p <+: q → s'.Right q := by
  obtain ⟨ps, hps, hmem⟩ := mem_listPaths hs.wf hi
  have hunder : ∀ q ∈ ps, UnderDir root s q := by
    intro q hq
    obtain ⟨hpq, hdir⟩ := (hmem q).mp hq
    exact ⟨hp.trans hpq, hdir⟩
  obtain ⟨s', hfold, hs', hk, hqueue, hread, hseen, hright⟩ := registers hs hunder
  refine ⟨s', ?_, hs', hk, hqueue, hread, hseen, ?_⟩
  · unfold Sys.watch
    rw [hps]
    exact hfold
  · intro q hq j hj
    have hj₀ : s.fs.stat q = some (.dir j) := by rw [← hk.fs]; exact hj
    exact hright q ((hmem q).mpr ⟨hq, j, hj₀⟩) j hj

/-! ## One event -/

/-- The path is no symbolic link to a directory, and does not lead through one. -/
def NoLink (fs : Entry) (p : Path) : Prop :=
  fs.isDirectory p = true → ∃ i, fs.stat p = some (.dir i)

theorem noLink_iff {fs : Entry} {p : Path} :
    (fs.isDirectory p = true → (fs.dirAt p).isSome = true) ↔ NoLink fs p := by
  refine imp_congr_right fun _ => ?_
  rw [Option.isSome_iff_exists]
  constructor
  · intro ⟨⟨i, sub⟩, h⟩
    exact ⟨i, stat_dir_iff.mpr ⟨sub, dirAt_eq_some.mp h⟩⟩
  · intro ⟨i, hi⟩
    obtain ⟨sub, hsub⟩ := stat_dir_iff.mp hi
    exact ⟨(i, sub), dirAt_eq_some.mpr hsub⟩

instance (fs : Entry) (p : Path) : Decidable (NoLink fs p) := decidable_of_iff _ noLink_iff

/-- There is no link to a directory on the path. A `.` or `..` counts as one: it
leads to a directory under another path than its own. -/
def Linkless (fs : Entry) (p : Path) : Prop := ∀ q, q <+: p → NoLink fs q

instance (fs : Entry) (p : Path) : Decidable (Linkless fs p) :=
  decidable_of_iff (∀ q ∈ p.inits, NoLink fs q)
    (forall_congr' fun _ => imp_congr_left (List.mem_inits _ _))

/-- The path is under the root, and so is what it leads to. -/
structure Within (root : Path) (fs : Entry) (p : Path) : Prop where
  below : root <+: p
  linkless : Linkless fs p

/-- Entering an absent key, and moving on in the queue, changes nothing that matters. -/
theorem keeps_take (s : Sys) (e : Event) (rest : List Event) : Keeps root s (s.take e rest) := by
  have hmap : ∀ {w p}, s.wdMap w = some p → (s.take e rest).wdMap w = some p := by
    intro w p hw
    show Function.update s.wdMap e.wd (some (s.lookup e.wd)) w = some p
    by_cases he : w = e.wd
    · rw [he, Function.update_self, Sys.lookup, ← he, hw]
      rfl
    · rw [Function.update_of_ne he]
      exact hw
  have hlookup : ∀ w, (s.take e rest).lookup w = s.lookup w := by
    intro w
    show (Function.update s.wdMap e.wd (some (s.lookup e.wd)) w).getD [] = s.lookup w
    by_cases he : w = e.wd
    · rw [he, Function.update_self]
      rfl
    · rw [Function.update_of_ne he]
      rfl
  refine ⟨rfl, id, ?_, ?_, fun hw => ⟨hw, hlookup _⟩⟩
  · intro p hp i hi
    obtain ⟨w, hw, hm⟩ := hp i hi
    exact ⟨w, hw, hmap hm⟩
  · intro hroot i w hw
    rw [hlookup]
    exact hroot hw

/-- What handling an event does, if its path is under the root and no link to a
directory. -/
theorem handle_event {e : Event} (hs : Wired s) (hroot : root <+: (s.changeOf e).path)
    (hlink : NoLink s.fs (s.changeOf e).path) :
    ∃ s', s.handle e = some s' ∧ Wired s' ∧ Keeps root s s' ∧ s'.queue = s.queue.tail ∧
      s'.reader = .idle ∧ s'.seen = s.seen ++ [s.changeOf e] ∧
      (s.fs.isDirectory (s.changeOf e).path = true →
        ∀ q, (s.changeOf e).path <+: q → s'.Right q) := by
  have htake : Keeps root s (s.take e s.queue.tail) := keeps_take s e s.queue.tail
  have hwired : Wired (s.take e s.queue.tail) := hs.same rfl rfl rfl
  have hfs : (s.take e s.queue.tail).fs = s.fs := rfl
  unfold Sys.handle Sys.descend
  rw [hfs]
  by_cases hdir : s.fs.isDirectory (s.changeOf e).path = true
  · obtain ⟨i, hi⟩ := hlink hdir
    obtain ⟨t, hwatch, ht, hk, hqueue, -, hseen, hright⟩ := watch_dir hwired hroot hi
    refine ⟨{ t with reader := .idle, seen := t.seen ++ [s.changeOf e] }, ?_,
      ht.same rfl rfl rfl, ?_, hqueue, rfl, ?_, fun _ => hright⟩
    · rw [if_pos hdir, hwatch]
      rfl
    · have hkt := htake.trans hk
      exact ⟨hkt.fs, hkt.wdOf, hkt.right, hkt.rooted, hkt.dead⟩
    · dsimp only
      rw [hseen]
      rfl
  · refine ⟨{ s.take e s.queue.tail with reader := .idle, seen := s.seen ++ [s.changeOf e] }, ?_,
      hwired.same rfl rfl rfl, ⟨htake.fs, htake.wdOf, htake.right, htake.rooted, htake.dead⟩, rfl,
      rfl, rfl, fun h => absurd h hdir⟩
    rw [if_neg hdir]
    rfl

/-! ## The whole queue -/

/-- An event and the change it will be reported as, however far the reader has come. -/
def Tied (root : Path) (s : Sys) (y : Event × Change Path) : Prop :=
  ∀ s', Keeps root s s' → s'.changeOf y.1 = y.2

/-- The report of such an event. -/
def reportOf (s : Sys) (y : Event × Change Path) : Report := ⟨y.1, y.2, s.fs⟩

theorem drain_list {ys : List (Event × Change Path)} (hs : Wired s)
    (hys : ∀ y ∈ ys, Within root s.fs y.2.path ∧ Tied root s y) :
    ∃ s', run Sys.handle s (ys.map Prod.fst) = some s' ∧ Wired s' ∧ Keeps root s s' ∧
      s'.queue = s.queue.drop ys.length ∧ (s.reader = .idle → s'.reader = .idle) ∧
      s'.seen = s.seen ++ ys.map Prod.snd ∧
      collect Sys.handle (fun s e => [⟨e, s.changeOf e, s.fs⟩]) s (ys.map Prod.fst)
        = ys.map (reportOf s) ∧
      ∀ y ∈ ys, s.fs.isDirectory y.2.path = true → ∀ q, y.2.path <+: q → s'.Right q := by
  induction ys generalizing s with
  | nil =>
    exact ⟨s, rfl, hs, .refl s, rfl, id, (List.append_nil _).symm, rfl, List.forall_mem_nil _⟩
  | cons y ys ih =>
    obtain ⟨hwithin, htied⟩ := hys y (List.mem_cons_self ..)
    have hy : s.changeOf y.1 = y.2 := htied s (.refl s)
    rw [← hy] at hwithin
    obtain ⟨s₁, hone, hs₁, hk, hqueue, hread, hseen, hright⟩ :=
      handle_event hs hwithin.below (hwithin.linkless _ (List.prefix_refl _))
    have hys₁ : ∀ z ∈ ys, Within root s₁.fs z.2.path ∧ Tied root s₁ z := by
      intro z hz
      obtain ⟨hz, ht⟩ := hys z (List.mem_cons_of_mem _ hz)
      exact ⟨hk.fs ▸ hz, fun s' hs' => ht s' (hk.trans hs')⟩
    obtain ⟨s', hrun, hs', hk', hqueue', hread', hseen', hlog, hright'⟩ := ih hs₁ hys₁
    refine ⟨s', ?_, hs', hk.trans hk', ?_, fun _ => hread' hread, ?_, ?_, ?_⟩
    · rw [List.map_cons, run, hone]
      exact hrun
    · rw [hqueue', hqueue, List.length_cons, List.drop_tail]
    · rw [hseen', hseen, hy, List.append_assoc]
      rfl
    · have hsame : reportOf s₁ = reportOf s := by
        unfold reportOf
        rw [hk.fs]
      rw [List.map_cons, collect, hone]
      dsimp only
      rw [hlog, hy, hsame]
      rfl
    · intro z hz hdir q hq
      rcases List.mem_cons.mp hz with rfl | hz
      · rw [← hy] at hdir hq
        exact hk'.right (hright hdir q hq)
      · exact hright' z hz (hk.fs ▸ hdir) q hq

/-! ## One operation -/

/-- Between two operations: everything under the root is watched, with its path. -/
structure Settled (root : Path) (s : Sys) : Prop where
  wired : Wired s
  rootDir : ∃ i, s.fs.stat root = some (.dir i)
  right : ∀ {p}, root <+: p → s.Right p
  rooted : Rooted root s
  queue : s.queue = []
  reader : s.reader = .idle

/-- The changes of entries below the root. -/
def changesBelow (root : Path) (op : Op) : List (Change Path) :=
  (op.places.filter fun x => root <+: x.dir).map Place.change

/-- The changes reported for events that carry a name. -/
def named (log : List Report) : List (Change Path) :=
  (log.filter fun r => r.event.name.isSome).map Report.change

theorem named_append (log log' : List Report) : named (log ++ log') = named log ++ named log' := by
  unfold named
  rw [List.filter_append, List.map_append]

/-- The operation changes no entry of a directory that is watched but not under
the root; it puts no symbolic link to a directory under the root; and if it ends
a watch, then what stands behind the record of that is no absolute path outside
the root, and there is no such link on the path it spells in the directory. -/
structure Attributable (root : Path) (s : Sys) (op : Op) : Prop where
  inside : ∀ x ∈ op.places, s.Watched x.dir → root <+: x.dir
  placed : ∀ s', s.apply op = some s' → ∀ p ∈ op.placed, root <+: p → NoLink s'.fs p
  behindBelow : ∀ x, s.ends op = some x → x.2.absolute = true → root <+: x.2.elems
  behindLinkless : ∀ s', s.apply op = some s' → ∀ x, s.ends op = some x →
    Linkless s'.fs (x.2.under (s.lookup x.1))

instance (root : Path) (s : Sys) (op : Op) : Decidable (Attributable root s op) :=
  decidable_of_iff ((∀ x ∈ op.places, s.Watched x.dir → root <+: x.dir) ∧
      (∀ s' ∈ s.apply op, ∀ p ∈ op.placed, root <+: p → NoLink s'.fs p) ∧
      (∀ x ∈ s.ends op, x.2.absolute = true → root <+: x.2.elems) ∧
      ∀ s' ∈ s.apply op, ∀ x ∈ s.ends op, Linkless s'.fs (x.2.under (s.lookup x.1)))
    ⟨fun h => ⟨h.1, h.2.1, h.2.2.1, h.2.2.2⟩,
      fun h => ⟨h.inside, h.placed, h.behindBelow, h.behindLinkless⟩⟩

/-- The bit that says that the entry is a directory is not looked at. -/
theorem changeType_bit {op : Op} {x : Place} (hx : x ∈ op.places) {bit : UInt32}
    (hbit : bit = 0 ∨ bit = IN_ISDIR) : changeType (x.mask ||| bit) = changeType x.mask := by
  have hmask : x.mask ∈ [IN_CREATE, IN_MOVED_FROM, IN_MOVED_TO, IN_DELETE, IN_MODIFY] := by
    cases op <;> simp only [Op.places, List.mem_cons, List.not_mem_nil, or_false] at hx
    case rename => rcases hx with rfl | rfl <;> simp
    all_goals subst hx; simp
  have hall : ∀ mask ∈ [IN_CREATE, IN_MOVED_FROM, IN_MOVED_TO, IN_DELETE, IN_MODIFY],
      changeType (mask ||| 0) = changeType mask ∧
        changeType (mask ||| IN_ISDIR) = changeType mask := by
    intro mask hmem
    simp only [List.mem_cons, List.not_mem_nil, or_false] at hmem
    rcases hmem with rfl | rfl | rfl | rfl | rfl <;> decide
  rcases hbit with rfl | rfl
  · exact (hall _ hmask).1
  · exact (hall _ hmask).2

/-- The named events of an operation, with what they are about: the changed
entries below the root. -/
theorem announced {places : List Place} (bit : UInt32)
    (hdirs : ∀ x ∈ places, ∃ i, s.fs.stat x.dir = some (.dir i))
    (hinside : ∀ x ∈ places, s.Watched x.dir → root <+: x.dir)
    (hright : ∀ {p}, root <+: p → s.Right p) :
    ∃ ys : List (Event × Change Path), ys.map Prod.fst = places.flatMap (s.announce bit) ∧
      ys.map Prod.snd = (places.filter fun x => root <+: x.dir).map Place.change ∧
      ∀ y ∈ ys, ∃ x ∈ places, ∃ i wd, root <+: x.dir ∧ s.fs.stat x.dir = some (.dir i) ∧
        s.wdOf i = some wd ∧ y = (.named wd (x.mask ||| bit) x.name, x.change) := by
  induction places with
  | nil => exact ⟨[], rfl, rfl, List.forall_mem_nil _⟩
  | cons x places ih =>
    obtain ⟨ys, hfst, hsnd, hys⟩ := ih (fun z hz => hdirs z (List.mem_cons_of_mem _ hz))
      (fun z hz => hinside z (List.mem_cons_of_mem _ hz))
    obtain ⟨i, hi⟩ := hdirs x (List.mem_cons_self ..)
    have hrest : ∀ y ∈ ys, ∃ z ∈ x :: places, ∃ i wd, root <+: z.dir ∧
        s.fs.stat z.dir = some (.dir i) ∧ s.wdOf i = some wd ∧
        y = (.named wd (z.mask ||| bit) z.name, z.change) := by
      intro y hy
      obtain ⟨z, hz, h⟩ := hys y hy
      exact ⟨z, List.mem_cons_of_mem _ hz, h⟩
    obtain ⟨sub, hsub⟩ := stat_dir_iff.mp hi
    by_cases hroot : root <+: x.dir
    · obtain ⟨wd, hwd, -⟩ := hright hroot i hi
      refine ⟨(.named wd (x.mask ||| bit) x.name, x.change) :: ys, ?_, ?_, ?_⟩
      · rw [List.map_cons, List.flatMap_cons, hfst, Sys.announce, dirAt_eq_some.mpr hsub]
        dsimp only
        rw [hwd]
        rfl
      · rw [List.map_cons, hsnd, List.filter_cons_of_pos (by simpa using hroot)]
        rfl
      · intro y hy
        rcases List.mem_cons.mp hy with rfl | hy
        · exact ⟨x, List.mem_cons_self .., i, wd, hroot, hi, hwd, rfl⟩
        · exact hrest y hy
    · -- outside the root no changed directory is watched, so nothing is queued
      have hnone : s.wdOf i = none := by
        cases hw : s.wdOf i with
        | none => rfl
        | some wd => exact absurd (hinside x (List.mem_cons_self ..) ⟨i, wd, hi, hw⟩) hroot
      refine ⟨ys, ?_, ?_, hrest⟩
      · rw [hfst, List.flatMap_cons, Sys.announce, dirAt_eq_some.mpr hsub]
        dsimp only
        rw [hnone]
        rfl
      · rw [hsnd, List.filter_cons_of_neg (by simpa using hroot)]

section

variable {op : Op}

/-- What was right about a directory that stays is still right. -/
theorem Applied.right (h : Applied s op s') {p : Path} {i : Ino} (hright : s.Right p)
    (hi : s.fs.stat p = some (.dir i)) (hi' : s'.fs.stat p = some (.dir i)) : s'.Right p := by
  intro j hj
  rw [hi'] at hj
  cases hj
  obtain ⟨wd, hwd, hmap⟩ := hright i hi
  exact ⟨wd, by rw [h.wdOf hi', hwd], by rw [h.wdMap, hmap]⟩

/-- A new entry is no part of the way to the root. -/
theorem Applied.not_above (h : Applied s op s') (hkeeps : op.KeepsRoot root) {i : Ino}
    (hroot : s.fs.stat root = some (.dir i)) {q : Path} (hq : q ∈ op.placed) : ¬ q <+: root := by
  rcases h.fresh q hq with htaken | hnone
  · exact hkeeps q htaken
  · intro hp
    exact find_of_le hp (find_ne_none_of_stat hroot) (stat_none_iff.mp hnone)

theorem path_of_placed {q : Path} (hq : q ∈ op.placed) : ∃ x ∈ op.places, x.path = q := by
  cases op with
  | mkdir dir _ n _ | create dir _ n _ | symlink dir _ n _ _ =>
    exact ⟨⟨dir, n, IN_CREATE⟩, List.mem_singleton.mpr rfl, (List.mem_singleton.mp hq).symm⟩
  | rename _ _ dst _ m _ =>
    exact ⟨⟨dst, m, IN_MOVED_TO⟩, by simp [Op.places], (List.mem_singleton.mp hq).symm⟩
  | delete | modify => cases hq

/-- A watch that ends is one of a directory that is removed or replaced. -/
theorem place_of_ends {z : Int × Spelling} (h : s.ends op = some z) :
    ∃ x ∈ op.places, s.wdAt x.path = some z.1 := by
  cases op with
  | mkdir | create | symlink | modify => cases h
  | rename src n dst _ m _ =>
    obtain ⟨w, hw, rfl⟩ := Option.map_eq_some_iff.mp h
    exact ⟨⟨dst, m, IN_MOVED_TO⟩, List.mem_cons_of_mem _ (List.mem_singleton_self _), hw⟩
  | delete dir n _ _ =>
    obtain ⟨w, hw, rfl⟩ := Option.map_eq_some_iff.mp h
    exact ⟨⟨dir, n, IN_DELETE⟩, List.mem_singleton_self _, hw⟩

/-- It was there. -/
theorem wd_of_ends {wd : Int} {behind : Spelling} (h : s.ends op = some (wd, behind)) :
    ∃ i, s.wdOf i = some wd := by
  obtain ⟨x, -, hx⟩ := place_of_ends h
  obtain ⟨⟨i, sub⟩, -, hi⟩ := Option.bind_eq_some_iff.mp hx
  exact ⟨i, hi⟩

theorem dir_of_le {fs : Entry} {p q : Path} {i : Ino} (hp : fs.stat p = some (.dir i))
    (hq : q <+: p) : ∃ j, fs.stat q = some (.dir j) := by
  obtain ⟨r, rfl⟩ := hq
  cases r with
  | nil => exact ⟨i, by rw [List.append_nil] at hp; exact hp⟩
  | cons n r => exact stat_dir_of_below (find_ne_none_of_stat hp)

/-- The event of a changed entry below the root is tied to that change. -/
theorem Applied.tied (h : Applied s op s') {x : Place} {i : Ino} {wd : Int} {bit : UInt32}
    (hx : x ∈ op.places) (hbit : bit = 0 ∨ bit = IN_ISDIR) (hright : s.Right x.dir)
    (hi : s.fs.stat x.dir = some (.dir i)) (hwd : s.wdOf i = some wd) :
    Tied root s' (.named wd (x.mask ||| bit) x.name, x.change) := by
  obtain ⟨j, hj, hj'⟩ := h.dirs x hx
  cases hi.symm.trans hj
  intro u hu
  have hiu : u.fs.stat x.dir = some (.dir i) := by rw [hu.fs]; exact hj'
  -- `wd_map` was right about the directory, and nothing has changed that since
  obtain ⟨w, hw, hmap⟩ := hu.right (h.right hright hi hj') i hiu
  have hwd' : s'.wdOf i = some wd := by rw [h.wdOf hj', hwd]
  cases hw.symm.trans (hu.wdOf hwd')
  have hlookup : u.lookup wd = x.dir := by rw [Sys.lookup, hmap]; rfl
  show (⟨changeType (x.mask ||| bit), u.lookup wd ++ [x.name]⟩ : Change Path) = x.change
  rw [hlookup, changeType_bit hx hbit]
  rfl

/-- The record of a watch that ended is read alike however far the reader has come. -/
theorem Applied.tied_dead (h : Applied s op s') {e : Event} (he : Dead s' e.wd) :
    Tied root s' (e, s.changeOf e) := by
  intro u hu
  have hlookup : u.lookup e.wd = s.lookup e.wd := by
    rw [(hu.dead he).2, Sys.lookup, Sys.lookup, h.wdMap]
  unfold Sys.changeOf
  rw [hlookup]

/-- No changed entry is or lies behind a link, unless one is put there. -/
theorem Applied.linkless (h : Applied s op s') {x : Place} (hx : x ∈ op.places)
    (hnew : x.path ∈ op.placed → NoLink s'.fs x.path) : Linkless s'.fs x.path := by
  obtain ⟨i, -, hi⟩ := h.dirs x hx
  intro q hq
  rcases List.prefix_concat_iff.mp hq with rfl | hq
  · rcases h.vacated x hx with hplaced | ⟨hdot, hnone⟩ | ⟨j, hfile⟩
    · exact hnew hplaced
    · intro hdir
      rw [isDirectory_missing hi hdot hnone] at hdir
      cases hdir
    · intro hdir
      have hfile : s'.fs.stat x.path = some (.leaf j none) := hfile
      cases (isDirectory_of_file hfile).symm.trans hdir
  · exact fun _ => dir_of_le hi hq

/-- What is reported for a changed entry is under the root, and no link. -/
theorem Applied.within (h : Applied s op s') (hcond : Attributable root s op)
    (happly : s.apply op = some s') {x : Place} (hx : x ∈ op.places) (hroot : root <+: x.dir) :
    Within root s'.fs x.path := by
  have hpath : root <+: x.path := hroot.trans (List.prefix_append _ _)
  exact ⟨hpath, h.linkless hx fun hplaced => hcond.placed s' happly _ hplaced hpath⟩

/-- So is what is reported for the record of a watch that ended. -/
theorem Attributable.within (h : Attributable root s op) (happly : s.apply op = some s')
    (hroot : Rooted root s) {e : Event} (hname : e.name = none)
    (hends : s.ends op = some (e.wd, e.behind)) : Within root s'.fs (s.changeOf e).path := by
  have hpath : (s.changeOf e).path = e.behind.under (s.lookup e.wd) := by
    unfold Sys.changeOf Event.fullPath
    rw [hname]
  rw [hpath]
  refine ⟨?_, h.behindLinkless s' happly _ hends⟩
  unfold Spelling.under
  split
  · next habs => exact h.behindBelow _ hends habs
  · obtain ⟨i, hwd⟩ := wd_of_ends hends
    exact (hroot hwd).trans (List.prefix_append _ _)

/-- Where the operation is under the root and a NUL stands behind the record of a watch it
ends, that record is about the directory that was there, and nothing is left to ask of what
stands behind it. -/
theorem attributable_of_nul (hs : Settled root s) (hbelow : ∀ x ∈ op.places, root <+: x.dir)
    (hplaced : ∀ s', s.apply op = some s' → ∀ p ∈ op.placed, root <+: p → NoLink s'.fs p)
    (hnul : ∀ z, s.ends op = some z → z.2 = ⟨false, []⟩) : Attributable root s op := by
  refine ⟨fun x hx _ => hbelow x hx, hplaced, fun z hz habs => ?_, fun s' happly z hz => ?_⟩
  · rw [hnul z hz] at habs
    cases habs
  · obtain ⟨x, hx, hwdAt⟩ := place_of_ends hz
    have hpath : root <+: x.path := (hbelow x hx).trans (List.prefix_append _ _)
    obtain ⟨⟨i, sub⟩, hdir, hwd⟩ := Option.bind_eq_some_iff.mp hwdAt
    obtain ⟨w, hw, hmap⟩ := hs.right hpath i (stat_dir_iff.mpr ⟨sub, dirAt_eq_some.mp hdir⟩)
    cases hw.symm.trans hwd
    have hunder : z.2.under (s.lookup z.1) = x.path := by
      rw [hnul z hz, Sys.lookup, hmap]
      exact List.append_nil _
    rw [hunder]
    exact (apply_cases hs.wired happly).linkless hx fun hin => hplaced s' happly _ hin hpath

/-- What an operation queues, with what each event will be reported as: the
changes below the root, and records without a name in front of them or behind. -/
theorem Applied.queued (h : Applied s op s') (hs : Settled root s)
    (hcond : Attributable root s op) (happly : s.apply op = some s') :
    ∃ zs : List (Event × Change Path), s'.queue = zs.map Prod.fst ∧
      (zs.filter fun z => z.1.name.isSome).map Prod.snd = changesBelow root op ∧
      ∀ z ∈ zs, Within root s'.fs z.2.path ∧ Tied root s' z := by
  obtain ⟨bit, before, after, hbit, hqueue, hgone⟩ := h.queue hs.queue
  have hdirs : ∀ x ∈ op.places, ∃ i, s.fs.stat x.dir = some (.dir i) := by
    intro x hx
    obtain ⟨i, hi, -⟩ := h.dirs x hx
    exact ⟨i, hi⟩
  -- the records without a name are those the filter takes out
  obtain ⟨ys, hfst, hsnd, hys⟩ := announced bit hdirs hcond.inside hs.right
  have hnamed : ys.filter (fun z => z.1.name.isSome) = ys := by
    refine List.filter_eq_self.mpr fun y hy => ?_
    obtain ⟨x, -, i, wd, -, -, -, rfl⟩ := hys y hy
    rfl
  have hbare : ∀ es : List Event, (∀ e ∈ es, e ∈ before ++ after) →
      (es.map fun e => (e, s.changeOf e)).filter (fun z => z.1.name.isSome) = [] := by
    intro es hes
    refine List.filter_eq_nil_iff.mpr fun z hz => ?_
    obtain ⟨e, he, rfl⟩ := List.mem_map.mp hz
    dsimp only
    rw [(hgone e (hes e he)).1]
    exact Bool.false_ne_true
  have hfst' : ∀ es : List Event, (es.map fun e => (e, s.changeOf e)).map Prod.fst = es := by
    intro es
    rw [List.map_map]
    exact List.map_id es
  refine ⟨(before.map fun e => (e, s.changeOf e)) ++ ys ++ after.map fun e => (e, s.changeOf e),
    ?_, ?_, fun z hz => ?_⟩
  · rw [hqueue, List.map_append, List.map_append, hfst, hfst', hfst']
  · rw [List.filter_append, List.filter_append, hnamed,
      hbare before fun _ => List.mem_append_left _, hbare after fun _ => List.mem_append_right _,
      List.nil_append, List.append_nil, hsnd]
    rfl
  · have hdead : ∀ e ∈ before ++ after, Within root s'.fs (s.changeOf e).path ∧
        Tied root s' (e, s.changeOf e) := by
      intro e he
      obtain ⟨hname, hdead, hends⟩ := hgone e he
      exact ⟨hcond.within happly hs.rooted hname hends, h.tied_dead hdead⟩
    rcases List.mem_append.mp hz with hz | hz
    · rcases List.mem_append.mp hz with hz | hy
      · obtain ⟨e, he, rfl⟩ := List.mem_map.mp hz
        exact hdead e (List.mem_append_left _ he)
      · obtain ⟨x, hx, i, wd, hroot, hi, hwd, rfl⟩ := hys z hy
        exact ⟨h.within hcond happly hx hroot, h.tied hx hbit (hs.right hroot) hi hwd⟩
    · obtain ⟨e, he, rfl⟩ := List.mem_map.mp hz
      exact hdead e (List.mem_append_right _ he)

/-- Once the changed directories have been listed again, `wd_map` is right about
everything under the root. -/
theorem Applied.right_again {u : Sys} (h : Applied s op s') (hs : Settled root s)
    (hkeeps : op.KeepsRoot root) (hk : Keeps root s' u)
    (hlisted : ∀ c ∈ changesBelow root op, s'.fs.isDirectory c.path = true →
      ∀ q, c.path <+: q → u.Right q) {p : Path} (hp : root <+: p) : u.Right p := by
  intro i hi
  have hi' : s'.fs.stat p = some (.dir i) := by rw [← hk.fs]; exact hi
  rcases h.stays hi' with hold | ⟨q, hq, hqp⟩
  · exact hk.right (h.right (hs.right hp) hold hi') i hi
  · -- at or below the new entry: its event made the reader list it
    obtain ⟨i₀, hi₀⟩ := hs.rootDir
    have hnot := h.not_above hkeeps hi₀ hq
    obtain ⟨x, hx, rfl⟩ := path_of_placed hq
    have hroot : root <+: x.dir := by
      rcases List.prefix_or_prefix_of_prefix hp hqp with hle | hle
      · rcases List.prefix_concat_iff.mp hle with he | hle
        · exact absurd (he ▸ List.prefix_refl _) hnot
        · exact hle
      · exact absurd hle hnot
    have hmem : x.change ∈ changesBelow root op :=
      List.mem_map_of_mem (List.mem_filter.mpr ⟨hx, by simpa using hroot⟩)
    obtain ⟨j, hj⟩ := dir_of_le hi' hqp
    exact hlisted x.change hmem (isDirectory_of_dir hj) p hqp i hi

theorem named_reports (s : Sys) (zs : List (Event × Change Path)) :
    named (zs.map (reportOf s)) = (zs.filter fun z => z.1.name.isSome).map Prod.snd := by
  rw [named, List.filter_map, List.map_map]
  rfl

/-- **One operation.** The reader reports exactly the changes below the root, under
their own paths, and is settled again. -/
theorem attribute_step (hs : Settled root s) (hcond : Attributable root s op)
    (h : opStep root s op = some s') :
    Settled root s' ∧ s'.seen = s.seen ++ (reported s op).map Report.change ∧
      named (reported s op) = changesBelow root op ∧
      ∀ r ∈ reported s op, Within root r.fs r.change.path := by
  obtain ⟨hkeeps, h⟩ := Option.ite_none_right_eq_some.mp h
  obtain ⟨t, happly, hdrain⟩ := Option.bind_eq_some_iff.mp h
  have ht := apply_cases hs.wired happly
  obtain ⟨zs, hqueue, hchanges, hall⟩ := ht.queued hs hcond happly
  obtain ⟨u, hrun, hu, hk, hqueue', hread, hseen, hlog, hright⟩ := drain_list ht.wired hall
  rw [← hqueue] at hrun hlog
  cases Option.some.inj (hdrain.symm.trans hrun)
  have hreported : reported s op = zs.map (reportOf t) := by
    unfold reported
    rw [happly]
    exact hlog
  have hlisted : ∀ c ∈ changesBelow root op, t.fs.isDirectory c.path = true →
      ∀ q, c.path <+: q → s'.Right q := by
    intro c hc
    rw [← hchanges] at hc
    obtain ⟨z, hz, rfl⟩ := List.mem_map.mp hc
    exact hright z (List.mem_filter.mp hz).1
  refine ⟨⟨hu, ?_, ht.right_again hs hkeeps hk hlisted, ?_, ?_, ?_⟩, ?_, ?_, ?_⟩
  · obtain ⟨i, hi⟩ := hs.rootDir
    exact ⟨i, by rw [hk.fs]; exact ht.keeps hi hkeeps⟩
  · refine hk.rooted fun hw => ?_
    rw [Sys.lookup, ht.wdMap]
    exact hs.rooted (ht.watches hw)
  · rw [hqueue', hqueue]
    exact List.drop_eq_nil_of_le (List.length_map _).le
  · exact hread (ht.reader.trans hs.reader)
  · rw [hseen, ht.seen, hreported, List.map_map]
    rfl
  · rw [hreported, named_reports, hchanges]
  · intro r hr
    rw [hreported] at hr
    obtain ⟨z, hz, rfl⟩ := List.mem_map.mp hr
    exact (hall z hz).1

end

/-! ## A run -/

/-- The reports of a run. -/
def reportLog (root : Path) (s : Sys) (ops : List Op) : List Report :=
  collect (opStep root) reported s ops

theorem attribute_run {ops : List Op} (hs : Settled root s)
    (hcond : Along (opStep root) (Attributable root) s ops)
    (h : run (opStep root) s ops = some s') :
    Settled root s' ∧ s'.seen = s.seen ++ (reportLog root s ops).map Report.change ∧
      named (reportLog root s ops) = ops.flatMap (changesBelow root) ∧
      ∀ r ∈ reportLog root s ops, Within root r.fs r.change.path := by
  induction ops generalizing s with
  | nil =>
    cases h
    exact ⟨hs, (List.append_nil _).symm, rfl, List.forall_mem_nil _⟩
  | cons op ops ih =>
    obtain ⟨s₁, hstep, hrun⟩ := run_cons_eq_some.mp h
    obtain ⟨hs₁, hseen, hnamed, hbelow⟩ := attribute_step hs hcond.1 hstep
    obtain ⟨hs', hseen', hnamed', hbelow'⟩ := ih hs₁ (hcond.2 s₁ hstep) hrun
    have hlog : reportLog root s (op :: ops) = reported s op ++ reportLog root s₁ ops := by
      unfold reportLog
      rw [collect, hstep]
    refine ⟨hs', ?_, ?_, ?_⟩
    · rw [hseen', hseen, hlog, List.map_append, List.append_assoc]
    · rw [hlog, named_append, hnamed, hnamed', List.flatMap_cons]
    · rw [hlog]
      exact List.forall_mem_append.mpr ⟨hbelow, hbelow'⟩

/-- `watch(root)` settles the monitor. -/
theorem settled_start {fs : FileSystem} {i : Ino} {s₀ : Sys}
    (hroot : fs.tree.stat root = some (.dir i))
    (hwatch : (Sys.start fs.tree).watch root = some s₀) :
    Settled root s₀ ∧ s₀.seen = [] := by
  obtain ⟨s', hs', hwired, hk, hqueue, hread, hseen, hright⟩ :=
    watch_dir (wired_start fs) (List.prefix_refl root) hroot
  cases Option.some.inj (hwatch.symm.trans hs')
  refine ⟨⟨hwired, ⟨i, by rw [hk.fs]; exact hroot⟩, fun hp => hright _ hp, ?_, hqueue, hread⟩, hseen⟩
  -- nothing was watched before
  exact hk.rooted fun hw => by cases hw

/-- **Which paths are reported.** After `watch(root)` on any tree, in every run of
operations the reader keeps up with, each of which changes no entry of a
directory that is watched but not under the root, puts no link to a directory
under the root, and ends no watch whose record is read as a path outside the root
or over such a link: the events that carry a name are reported with exactly the
changes of entries below the root, in order, each under the entry's own path;
and every path that is reported lies under the root, with no link to a directory
on it at that moment. -/
theorem attributed (fs : FileSystem) (root : Path) (i : Ino) (s₀ s : Sys) (ops : List Op)
    (hroot : fs.tree.stat root = some (.dir i))
    (hwatch : (Sys.start fs.tree).watch root = some s₀)
    (hrun : run (opStep root) s₀ ops = some s)
    (hcond : Along (opStep root) (Attributable root) s₀ ops) :
    s.seen = (reportLog root s₀ ops).map Report.change ∧
      named (reportLog root s₀ ops) = ops.flatMap (changesBelow root) ∧
      ∀ r ∈ reportLog root s₀ ops, Within root r.fs r.change.path := by
  obtain ⟨hs, hseen₀⟩ := settled_start hroot hwatch
  obtain ⟨-, hseen, hnamed, hwithin⟩ := attribute_run hs hcond hrun
  rw [hseen₀, List.nil_append] at hseen
  exact ⟨hseen, hnamed, hwithin⟩

/-- A directory, a link to it, and a file in it. -/
def linkToDirectory : List Op :=
  [.mkdir [ascii "r"] 0 (ascii "a") 3, .symlink [ascii "r"] 0 (ascii "l") 4 ⟨false, [ascii "a"]⟩,
    .create [ascii "r", ascii "a"] 0 (ascii "f") 5]

/-- The file `r/a/f` is reported as `r/l/f`. -/
theorem link_misattributed :
    ¬ ∀ (fs : FileSystem) (root : Path) (i : Ino) (s₀ s : Sys) (ops : List Op),
      fs.tree.stat root = some (.dir i) → (Sys.start fs.tree).watch root = some s₀ →
      run (opStep root) s₀ ops = some s →
      named (reportLog root s₀ ops) = ops.flatMap (changesBelow root) := by
  intro h
  have hnamed := h emptyRoot [ascii "r"] 2 _ _ linkToDirectory rfl rfl rfl
  revert hnamed
  decide

/-- A directory is made, renamed, filled, emptied and removed, a file in it is written to,
and a link to the file made beside the directory. Behind the record of the watch that ends
stands the record of the removal, which begins with the descriptor 1. -/
def lifeOfDirectory : List Op :=
  [.mkdir [ascii "r"] 0 (ascii "a") 3,
    .rename [ascii "r"] (ascii "a") [ascii "r"] 0 (ascii "b") ⟨false, []⟩,
    .create [ascii "r", ascii "b"] 0 (ascii "f") 4,
    .modify [ascii "r", ascii "b"] (ascii "f"),
    .symlink [ascii "r"] 0 (ascii "l") 5 ⟨false, [ascii "b", ascii "f"]⟩,
    .delete [ascii "r", ascii "b"] (ascii "f") ⟨false, []⟩ false,
    .delete [ascii "r"] (ascii "b") ⟨false, [[1]]⟩ true]

theorem attributed_lifeOfDirectory :
    ∃ s₀ s, (Sys.start emptyRoot.tree).watch [ascii "r"] = some s₀ ∧
      run (opStep [ascii "r"]) s₀ lifeOfDirectory = some s ∧
      s.seen = (reportLog [ascii "r"] s₀ lifeOfDirectory).map Report.change ∧
      named (reportLog [ascii "r"] s₀ lifeOfDirectory)
        = lifeOfDirectory.flatMap (changesBelow [ascii "r"]) ∧
      ∀ r ∈ reportLog [ascii "r"] s₀ lifeOfDirectory, Within [ascii "r"] r.fs r.change.path :=
  ⟨_, _, rfl, rfl,
    attributed emptyRoot [ascii "r"] 2 _ _ lifeOfDirectory rfl rfl rfl (by decide +kernel)⟩

end CommonCpp.Monitor
