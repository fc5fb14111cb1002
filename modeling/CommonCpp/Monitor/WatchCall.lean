import CommonCpp.Files.Enumeration

/-!
# What one call of `linux_monitor::watch` leaves behind

The call on strings, in a tree that does not change meanwhile. How inotify picks
the descriptor of a directory that has none yet is left open: `Choice` is any
rule that takes an unused one. `wd_map` ends up with every directory of the tree
under the path it has from the watched one, whatever its keys held before, and
with all other keys as they were (`watched`).
-/

namespace CommonCpp.Monitor

open CommonCpp.Fs CommonCpp.Lib CommonCpp.Files

/-- The watches of an inotify instance: no two inodes have one descriptor. -/
structure WatchTable where
  entries : List (Ino × Int32)
  nodup : (entries.map Prod.snd).Nodup

def WatchTable.wdOf (t : WatchTable) (ino : Ino) : Option Int32 := t.entries.lookup ino

/-- How a new descriptor is chosen: an unused one, or none if there is none. -/
def Choice : Type := (t : WatchTable) → Option { w : Int32 // w ∉ t.entries.map Prod.snd }

/-- `inotify_add_watch` on an inode; `none` is the error return. -/
def WatchTable.add (choose : Choice) (t : WatchTable) (ino : Ino) : Option (Int32 × WatchTable) :=
  match t.wdOf ino with
  | some w => some (w, t)
  | none => (choose t).map fun w =>
      (w.val, ⟨(ino, w.val) :: t.entries, List.nodup_cons.mpr ⟨w.property, t.nodup⟩⟩)

/-- What a call of `watch` works on. -/
structure Watching where
  table : WatchTable
  wdMap : Int32 → Option Bytes

/-- The body of `watch`'s loop, for the inode a path leads to. -/
def Watching.register (choose : Choice) (s : Watching) (ino : Ino) (path : Bytes) :
    Option Watching :=
  (s.table.add choose ino).map fun (wd, table) =>
    ⟨table, Function.update s.wdMap wd (some path)⟩

def Watching.registerPath (choose : Choice) (fs : Entry) (s : Watching) (path : Bytes) :
    Option Watching :=
  (inodeOf fs (parse path)).bind fun ino => s.register choose ino path

/-- `linux_monitor::watch`; `none` is an exception. -/
def Watching.watch (choose : Choice) (fs : Entry) (s : Watching) (p : Bytes) : Option Watching :=
  (pathsToWatch fs p).bind fun paths => paths.foldlM (Watching.registerPath choose fs) s

/-! ## Registering -/

theorem mem_of_wdOf {t : WatchTable} {i : Ino} {w : Int32} (h : t.wdOf i = some w) :
    (i, w) ∈ t.entries := by
  obtain ⟨front, back, hsplit, -⟩ := List.lookup_eq_some_iff.mp h
  rw [hsplit]
  exact List.mem_append_right _ (List.mem_cons_self ..)

theorem wdOf_distinct {t : WatchTable} {i j : Ino} {w : Int32} (hi : t.wdOf i = some w)
    (hj : t.wdOf j = some w) : i = j := by
  have heq := List.inj_on_of_nodup_map t.nodup (mem_of_wdOf hi) (mem_of_wdOf hj) rfl
  exact congrArg Prod.fst heq

variable {choose : Choice}

/-- What registering one path does. -/
structure Enters (s : Watching) (ino : Ino) (path : Bytes) (s' : Watching) : Prop where
  descriptor : ∃ wd, s'.table.wdOf ino = some wd ∧
    s'.wdMap = Function.update s.wdMap wd (some path)
  keeps : ∀ {i w}, s.table.wdOf i = some w → s'.table.wdOf i = some w

theorem register_enters {s s' : Watching} {ino : Ino} {path : Bytes}
    (h : s.register choose ino path = some s') : Enters s ino path s' := by
  obtain ⟨⟨wd, table⟩, hadd, rfl⟩ := Option.map_eq_some_iff.mp h
  unfold WatchTable.add at hadd
  cases hw : s.table.wdOf ino with
  | some w =>
    simp only [hw, Option.some.injEq, Prod.mk.injEq] at hadd
    obtain ⟨rfl, rfl⟩ := hadd
    exact ⟨⟨w, hw, rfl⟩, id⟩
  | none =>
    simp only [hw] at hadd
    obtain ⟨w, -, hpair⟩ := Option.map_eq_some_iff.mp hadd
    obtain ⟨rfl, rfl⟩ := Prod.mk.inj hpair
    refine ⟨⟨w.val, List.lookup_cons_self .., rfl⟩, fun {i v} hi => ?_⟩
    have hne : i ≠ ino := by
      rintro rfl
      rw [hw] at hi
      cases hi
    have hother : (i == ino) = false := beq_eq_false_iff_ne.mpr hne
    show List.lookup i ((ino, w.val) :: s.table.entries) = some v
    rw [List.lookup_cons, hother]
    exact hi

/-- What registering a list of inodes under paths does, if no inode comes twice. -/
structure EntersAll (s : Watching) (entries : List (Ino × Bytes)) (s' : Watching) : Prop where
  entered : ∀ x ∈ entries, ∃ wd, s'.table.wdOf x.1 = some wd ∧ s'.wdMap wd = some x.2
  frame : ∀ wd, (∀ x ∈ entries, s'.table.wdOf x.1 ≠ some wd) → s'.wdMap wd = s.wdMap wd
  keeps : ∀ {i w}, s.table.wdOf i = some w → s'.table.wdOf i = some w

theorem registerAll_enters {entries : List (Ino × Bytes)} (hnodup : (entries.map Prod.fst).Nodup)
    {s s' : Watching}
    (h : entries.foldlM (fun s x => s.register choose x.1 x.2) s = some s') :
    EntersAll s entries s' := by
  induction entries generalizing s with
  | nil =>
    cases h
    exact ⟨List.forall_mem_nil _, fun _ _ => rfl, id⟩
  | cons x entries ih =>
    rw [List.map_cons, List.nodup_cons] at hnodup
    rw [List.foldlM_cons] at h
    obtain ⟨s₁, hs₁, h⟩ := Option.bind_eq_some_iff.mp h
    have hone := register_enters hs₁
    have hall := ih hnodup.2 h
    obtain ⟨wd, hwd, hmap⟩ := hone.descriptor
    -- no later entry has this descriptor
    have hlater : ∀ y ∈ entries, s'.table.wdOf y.1 ≠ some wd := by
      intro y hy hsame
      have heq := wdOf_distinct (hall.keeps hwd) hsame
      exact hnodup.1 (heq ▸ List.mem_map_of_mem hy)
    refine ⟨?_, ?_, fun hi => hall.keeps (hone.keeps hi)⟩
    · intro y hy
      rcases List.mem_cons.mp hy with rfl | hy
      · refine ⟨wd, hall.keeps hwd, ?_⟩
        rw [hall.frame wd hlater, hmap, Function.update_self]
      · exact hall.entered y hy
    · intro w hw
      have hne : w ≠ wd := by
        rintro rfl
        exact hw x (List.mem_cons_self ..) (hall.keeps hwd)
      rw [hall.frame w fun y hy => hw y (List.mem_cons_of_mem _ hy), hmap,
        Function.update_of_ne hne]

/-! ## When every call succeeds -/

/-- A table that calls of `inotify_add_watch` on some of the inodes `S` lead to. -/
inductive WatchTable.Leads (choose : Choice) (S : Ino → Prop) (t : WatchTable) : WatchTable → Prop
  | start : Leads choose S t t
  | add {t₁ t₂ : WatchTable} {i : Ino} {wd : Int32} :
      Leads choose S t t₁ → S i → t₁.add choose i = some (wd, t₂) → Leads choose S t t₂

/-- No call of `inotify_add_watch` on one of the inodes fails, in whatever table the
calls before it have led to. -/
def WatchTable.Succeeds (choose : Choice) (S : Ino → Prop) (t : WatchTable) : Prop :=
  ∀ t', t.Leads choose S t' → ∀ i, S i → (t'.add choose i).isSome = true

theorem WatchTable.Leads.after {S : Ino → Prop} {t t₁ t' : WatchTable} {i : Ino} {wd : Int32}
    (hi : S i) (hadd : t.add choose i = some (wd, t₁)) (h : t₁.Leads choose S t') :
    t.Leads choose S t' := by
  induction h with
  | start => exact .add .start hi hadd
  | add _ hk hnext ih => exact .add ih hk hnext

/-- The loop runs to its end. -/
theorem registerAll_returns {S : Ino → Prop} {entries : List (Ino × Bytes)}
    (hall : ∀ x ∈ entries, S x.1) {s : Watching} (h : s.table.Succeeds choose S) :
    ∃ s', entries.foldlM (fun s x => s.register choose x.1 x.2) s = some s' := by
  induction entries generalizing s with
  | nil => exact ⟨s, rfl⟩
  | cons x entries ih =>
    obtain ⟨hx, hrest⟩ := List.forall_mem_cons.mp hall
    obtain ⟨⟨wd, t₁⟩, hadd⟩ := Option.isSome_iff_exists.mp (h _ .start _ hx)
    obtain ⟨s', hs'⟩ := ih hrest (s := ⟨t₁, Function.update s.wdMap wd (some x.2)⟩)
      fun t' ht' => h t' (.after hx hadd ht')
    refine ⟨s', ?_⟩
    rw [List.foldlM_cons, Watching.register, hadd]
    exact hs'

/-! ## The directories of a tree -/

/-- Directories have names the kernel takes, all the way down. -/
theorem isName_of_dir {d : Dir} (hd : d.Names) {z : Path} {i j : Ino}
    (hz : (Entry.dir j d).stat z = some (.dir i)) : ∀ n ∈ z, IsName n := by
  induction z generalizing d j with
  | nil => exact List.forall_mem_nil _
  | cons m z ih =>
    obtain ⟨-, e, hget, hrest⟩ := stat_cons_eq_some.mp hz
    cases e with
    | leaf ino link => cases z <;> cases hrest
    | dir ino sub =>
      obtain ⟨hm, hsub⟩ := isName_of_get hd hget
      intro n hn
      rcases List.mem_cons.mp hn with rfl | hn
      · exact hm
      · exact ih hsub hrest n hn

/-- The directories of the tree, the watched one first, by the names that lead to them. -/
def dirPaths (d : Dir) : List Path :=
  [] :: (d.descendants.filter (Descendant.wanted true 2)).map Descendant.elems

theorem mem_dirPaths {d : Dir} (hd : d.WF) (j : Ino) (z : Path) :
    z ∈ dirPaths d ↔ ∃ i, (Entry.dir j d).stat z = some (.dir i) := by
  unfold dirPaths
  constructor
  · intro h
    rcases List.mem_cons.mp h with rfl | h
    · exact ⟨j, rfl⟩
    · obtain ⟨x, hx, rfl⟩ := List.mem_map.mp h
      obtain ⟨hmem, hwant⟩ := List.mem_filter.mp hx
      obtain ⟨hne, node, hstat, hdir⟩ := (mem_descendants hd x).mp hmem
      rw [stat_dir_root hne] at hstat
      cases node with
      | leaf ino link => simp [Descendant.wanted, ← hdir, Node.isDir] at hwant
      | dir ino => exact ⟨ino, hstat⟩
  · rintro ⟨i, hstat⟩
    by_cases hz : z = []
    · rw [hz]
      exact List.mem_cons_self ..
    · refine List.mem_cons_of_mem _
        (List.mem_map.mpr ⟨⟨z, true⟩, List.mem_filter.mpr ⟨?_, rfl⟩, rfl⟩)
      refine (mem_descendants hd _).mpr ⟨hz, .dir i, ?_, rfl⟩
      rw [stat_dir_root hz]
      exact hstat

theorem nodup_dirPaths {d : Dir} (hd : d.WF) : (dirPaths d).Nodup := by
  unfold dirPaths
  rw [List.nodup_cons]
  constructor
  · intro h
    obtain ⟨x, hx, hnil⟩ := List.mem_map.mp h
    exact elems_ne_nil (List.mem_filter.mp hx).1 hnil
  · exact (nodup_elems hd).sublist (List.filter_sublist.map _)

theorem pathsToWatch_dirPaths {fs : Entry} {p : Bytes} {i : Ino} {d : Dir}
    (hopen : fs.openDir (parse p) = some (i, d)) :
    pathsToWatch fs p = some ((dirPaths d).map (spell p)) := by
  have ho : Openable appendName (fun _ => true) p d := openable_true p d
  obtain ⟨calls, hlist⟩ := findFiles_ok true 2 rfl ho ⟨[p], []⟩
  rw [listing_eq] at hlist
  simp only [pathsToWatch, hopen, hlist, dirPaths, List.map_cons, List.map_map]
  rfl

/-- The inode of an entry below a directory. -/
def inoBelow (j : Ino) (d : Dir) (z : Path) : Ino :=
  (((Entry.dir j d).stat z).map Node.ino).getD 0

/-- A tree that a path leads to, somewhere in a file system. -/
structure NamesTree (fs : FileSystem) (p : Bytes) (j : Ino) (d : Dir) : Prop where
  opens : fs.tree.openDir (parse p) = some (j, d)
  names : fs.tree.Names

theorem NamesTree.stat {fs : FileSystem} {p : Bytes} {j : Ino} {d : Dir}
    (h : NamesTree fs p j d) :
    ∃ q, fs.tree.resolve (parse p) = some q ∧ fs.tree.find q = some (.dir j d) ∧
      ∀ z, fs.tree.stat (q ++ z) = (Entry.dir j d).stat z := by
  obtain ⟨q, hq, hdir⟩ := Option.bind_eq_some_iff.mp h.opens
  exact ⟨q, hq, dirAt_eq_some.mp hdir, stat_append (dirAt_eq_some.mp hdir)⟩

theorem NamesTree.wf {fs : FileSystem} {p : Bytes} {j : Ino} {d : Dir} (h : NamesTree fs p j d) :
    d.WF := by
  obtain ⟨q, -, hfind, -⟩ := h.stat
  exact wf_find fs.wf hfind

/-- A directory of the tree is found under its string. -/
theorem NamesTree.inodeOf {fs : FileSystem} {p : Bytes} {j i : Ino} {d : Dir} {z : Path}
    (h : NamesTree fs p j d) (hz : (Entry.dir j d).stat z = some (.dir i)) :
    inodeOf fs.tree (parse (spell p z)) = some i := by
  obtain ⟨q, hq, hfind, hstat⟩ := h.stat
  have hnames : d.Names := names_of_find h.names hfind
  rw [← hstat] at hz
  have hres := resolve_below hq hz
  rw [hstat] at hz
  rw [Monitor.inodeOf, parse_spell (isName_of_dir hnames hz), hres, Option.bind_some, hstat, hz]
  rfl

/-- Different directories of the tree have different inodes. -/
theorem NamesTree.nodup {fs : FileSystem} {p : Bytes} {j : Ino} {d : Dir} (h : NamesTree fs p j d) :
    ((dirPaths d).map (inoBelow j d)).Nodup := by
  obtain ⟨q, -, -, hstat⟩ := h.stat
  refine (nodup_dirPaths h.wf).map_on fun y hy z hz hyz => ?_
  obtain ⟨i, hi⟩ := (mem_dirPaths h.wf j y).mp hy
  obtain ⟨k, hk⟩ := (mem_dirPaths h.wf j z).mp hz
  have hik : i = k := by simpa [inoBelow, hi, hk, Node.ino] using hyz
  subst hik
  rw [← hstat] at hi hk
  exact List.append_cancel_left (unique_of_nodup fs.nodup hi hk)

theorem registerPaths_eq {fs : Entry} {p : Bytes} {ino : Path → Ino} {zs : List Path}
    (h : ∀ z ∈ zs, inodeOf fs (parse (spell p z)) = some (ino z)) (s : Watching) :
    (zs.map (spell p)).foldlM (Watching.registerPath choose fs) s
      = (zs.map fun z => (ino z, spell p z)).foldlM (fun s x => s.register choose x.1 x.2) s := by
  induction zs generalizing s with
  | nil => rfl
  | cons z zs ih =>
    have hrest := ih fun y hy => h y (List.mem_cons_of_mem _ hy)
    simp only [List.map_cons, List.foldlM_cons, Watching.registerPath, h z (List.mem_cons_self ..),
      Option.bind_some]
    exact congrArg (Option.bind _) (funext hrest)

/-- The call registers every directory of the tree under its path. -/
theorem watch_eq {fs : FileSystem} {p : Bytes} {j : Ino} {d : Dir} (ht : NamesTree fs p j d)
    (s : Watching) :
    s.watch choose fs.tree p = ((dirPaths d).map fun z => (inoBelow j d z, spell p z)).foldlM
      (fun s x => s.register choose x.1 x.2) s := by
  unfold Watching.watch
  rw [pathsToWatch_dirPaths ht.opens, Option.bind_some]
  have hino : ∀ z ∈ dirPaths d,
      Monitor.inodeOf fs.tree (parse (spell p z)) = some (inoBelow j d z) := by
    intro z hz
    obtain ⟨i, hi⟩ := (mem_dirPaths ht.wf j z).mp hz
    rw [ht.inodeOf hi, inoBelow, hi]
    rfl
  exact registerPaths_eq hino s

theorem watch_enters {fs : FileSystem} {p : Bytes} {j : Ino} {d : Dir} (ht : NamesTree fs p j d)
    {s s' : Watching} (h : s.watch choose fs.tree p = some s') :
    EntersAll s ((dirPaths d).map fun z => (inoBelow j d z, spell p z)) s' := by
  rw [watch_eq ht] at h
  refine registerAll_enters ?_ h
  rw [List.map_map]
  exact ht.nodup

/-- The inodes of the directories of a tree. -/
def DirIn (j : Ino) (d : Dir) (i : Ino) : Prop := ∃ z, (Entry.dir j d).stat z = some (.dir i)

theorem watch_returns {fs : FileSystem} {p : Bytes} {j : Ino} {d : Dir} (ht : NamesTree fs p j d)
    {s : Watching} (h : s.table.Succeeds choose (DirIn j d)) :
    ∃ s', s.watch choose fs.tree p = some s' := by
  rw [watch_eq ht]
  refine registerAll_returns (fun x hx => ?_) h
  obtain ⟨z, hz, rfl⟩ := List.mem_map.mp hx
  obtain ⟨i, hi⟩ := (mem_dirPaths ht.wf j z).mp hz
  refine ⟨z, ?_⟩
  rw [inoBelow, hi]
  rfl

/-- What a call that returns has left in `wd_map`. -/
theorem maps_of_watch {fs : FileSystem} {p : Bytes} {j : Ino} {d : Dir} (ht : NamesTree fs p j d)
    {s s' : Watching} (h : s.watch choose fs.tree p = some s') :
    (∀ z i, (Entry.dir j d).stat z = some (.dir i) → ∃ wd, s'.table.wdOf i = some wd) ∧
      (∀ z i wd, (Entry.dir j d).stat z = some (.dir i) → s'.table.wdOf i = some wd →
        s'.wdMap wd = some (spell p z)) ∧
      (∀ wd, (∀ z i, (Entry.dir j d).stat z = some (.dir i) → s'.table.wdOf i ≠ some wd) →
        s'.wdMap wd = s.wdMap wd) ∧
      ∀ i wd, s.table.wdOf i = some wd → s'.table.wdOf i = some wd := by
  have hall := watch_enters ht h
  have hdir : ∀ z i, (Entry.dir j d).stat z = some (.dir i) →
      ∃ wd, s'.table.wdOf i = some wd ∧ s'.wdMap wd = some (spell p z) := by
    intro z i hz
    have hmem := (mem_dirPaths ht.wf j z).mpr ⟨i, hz⟩
    have hino : inoBelow j d z = i := by
      rw [inoBelow, hz]
      rfl
    obtain ⟨wd, hwd, hmap⟩ := hall.entered _ (List.mem_map_of_mem hmem)
    exact ⟨wd, hino ▸ hwd, hmap⟩
  refine ⟨fun z i hz => ?_, fun z i wd hz hwd => ?_, fun wd hwd => ?_, fun i wd => hall.keeps⟩
  · obtain ⟨wd, hwd, -⟩ := hdir z i hz
    exact ⟨wd, hwd⟩
  · obtain ⟨wd', hwd', hmap⟩ := hdir z i hz
    rw [hwd, Option.some.injEq] at hwd'
    rw [hwd', hmap]
  · refine hall.frame wd fun x hx => ?_
    obtain ⟨z, hz, rfl⟩ := List.mem_map.mp hx
    obtain ⟨i, hi⟩ := (mem_dirPaths ht.wf j z).mp hz
    have hino : inoBelow j d z = i := by
      rw [inoBelow, hi]
      rfl
    rw [hino]
    exact hwd z i hi

/-- **What a call of `watch` leaves in `wd_map`.** For every path to a directory, in a
tree that stays as it is, every choice of descriptors and every content of the
map: the call returns if every `inotify_add_watch` succeeds, and if it returns,
each directory at or below the path has a descriptor, whose entry is the
directory's path spelled from the watched one (so none keeps the path it had
before it was moved), every other key has the entry it had, and what was watched
keeps its descriptor. -/
theorem watch_maps (choose : Choice) (fs : FileSystem) (p : Bytes) (j : Ino) (d : Dir)
    (ht : NamesTree fs p j d) (s : Watching) :
    (s.table.Succeeds choose (DirIn j d) → ∃ s', s.watch choose fs.tree p = some s') ∧
    ∀ s', s.watch choose fs.tree p = some s' →
      (∀ z i, (Entry.dir j d).stat z = some (.dir i) → ∃ wd, s'.table.wdOf i = some wd) ∧
      (∀ z i wd, (Entry.dir j d).stat z = some (.dir i) → s'.table.wdOf i = some wd →
        s'.wdMap wd = some (spell p z)) ∧
      (∀ wd, (∀ z i, (Entry.dir j d).stat z = some (.dir i) → s'.table.wdOf i ≠ some wd) →
        s'.wdMap wd = s.wdMap wd) ∧
      ∀ i wd, s.table.wdOf i = some wd → s'.table.wdOf i = some wd :=
  ⟨watch_returns ht, fun _ h => maps_of_watch ht h⟩

/-- `/b` with `/b/c` in it, which were `/a` and `/a/c` before. -/
def renamedTree : FileSystem where
  tree := .dir 1 (.dir (ascii "b") 2 (.dir (ascii "c") 3 .nil .nil) .nil)
  wf := by simp [Entry.WF, Dir.WF, Dir.get, isDot, ascii]
  nodup := by decide

/-- The smallest descriptor that is not in use, up to a limit. -/
def smallest (limit : Nat) : Choice := fun t =>
  ((List.range limit).map fun n => Int32.ofNat (n + 1)).findSome? fun w =>
    if h : w ∉ t.entries.map Prod.snd then some ⟨w, h⟩ else none

/-- Watched as `/a` before the rename, and with `/a/c` not yet watched. -/
def beforeRename : Watching where
  table := ⟨[(2, 1)], by decide⟩
  wdMap := fun wd => if wd = 1 then some (ascii "/a") else none

/-- Only `/b` and `/b/c` are there to be watched. -/
theorem dirIn_renamed {i : Ino} (h : DirIn 2 (.dir (ascii "c") 3 .nil .nil) i) : i = 2 ∨ i = 3 := by
  obtain ⟨z, hz⟩ := h
  have hd : (Dir.dir (ascii "c") 3 .nil .nil).WF := by simp [Dir.WF, Dir.get, isDot, ascii]
  have hmem := (mem_dirPaths hd 2 z).mpr ⟨i, hz⟩
  have hall : ∀ z ∈ dirPaths (.dir (ascii "c") 3 .nil .nil),
      inoBelow 2 (.dir (ascii "c") 3 .nil .nil) z = 2
        ∨ inoBelow 2 (.dir (ascii "c") 3 .nil .nil) z = 3 := by decide
  have hino : inoBelow 2 (.dir (ascii "c") 3 .nil .nil) z = i := by
    rw [inoBelow, hz]
    rfl
  exact hino ▸ hall z hmem

/-- The calls of `watch` on them lead to two tables. -/
theorem leads_renamed {t : WatchTable}
    (h : beforeRename.table.Leads (smallest 8) (DirIn 2 (.dir (ascii "c") 3 .nil .nil)) t) :
    t.entries = [(2, 1)] ∨ t.entries = [(3, 2), (2, 1)] := by
  induction h with
  | start => exact .inl rfl
  | @add t₁ t₂ i wd _ hi hadd ih =>
    obtain ⟨entries, hnodup⟩ := t₁
    dsimp only at ih
    rcases ih with rfl | rfl <;> rcases dirIn_renamed hi with rfl | rfl <;> cases hadd
    · exact .inl rfl
    · exact .inr rfl
    · exact .inr rfl
    · exact .inr rfl

theorem succeeds_renamed :
    beforeRename.table.Succeeds (smallest 8) (DirIn 2 (.dir (ascii "c") 3 .nil .nil)) := by
  intro t ht i hi
  have hentries := leads_renamed ht
  obtain ⟨entries, hnodup⟩ := t
  dsimp only at hentries
  rcases hentries with rfl | rfl <;> rcases dirIn_renamed hi with rfl | rfl <;> rfl

/-- The call returns, and the directories have their new paths. -/
theorem watch_maps_renamed :
    ∃ s', beforeRename.watch (smallest 8) renamedTree.tree (ascii "/b") = some s' ∧
      s'.wdMap 1 = some (ascii "/b") ∧ s'.wdMap 2 = some (ascii "/b/c") := by
  have ht : NamesTree renamedTree (ascii "/b") 2 (.dir (ascii "c") 3 .nil .nil) :=
    ⟨by decide, by simp [Entry.Names, Dir.Names, renamedTree, IsName, ascii]⟩
  obtain ⟨hreturns, hmaps⟩ := watch_maps (smallest 8) renamedTree (ascii "/b") 2 _ ht beforeRename
  obtain ⟨s', hs'⟩ := hreturns succeeds_renamed
  obtain ⟨-, hmap, -, -⟩ := hmaps s' hs'
  have htable : (beforeRename.watch (smallest 8) renamedTree.tree (ascii "/b")).map
      (fun s => s.table.entries) = some [(3, 2), (2, 1)] := by decide
  rw [hs', Option.map_some, Option.some.injEq] at htable
  refine ⟨s', hs', hmap [] 2 1 (by decide) ?_, hmap [ascii "c"] 3 2 (by decide) ?_⟩
  · rw [WatchTable.wdOf, htable]
    decide
  · rw [WatchTable.wdOf, htable]
    decide

end CommonCpp.Monitor
