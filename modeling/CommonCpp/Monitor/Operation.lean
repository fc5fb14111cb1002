import CommonCpp.Monitor.Invariant
import Mathlib.Logic.Relation

/-!
# File-system operations, and a reader that keeps up

Every operation anywhere in the tree: the entries it changes (`places`), the
tree afterwards, and what inotify queues. An event is queued for each changed
entry whose directory has a watch; a watched directory that is removed loses
its watch, which is one more record, without a name. Whether that record comes
before the `IN_DELETE` of the directory or after it is the kernel's choice.

After each operation the reader drains the queue. `Sys.handle` does for one
event what the reader's steps do one after the other (`readerRun_handle`).
-/

namespace CommonCpp.Monitor

open CommonCpp.Fs CommonCpp.Lib

/-- An operation. `behind` is what the reader finds behind the record of a watch
that ends; `early` says that this record comes first. -/
inductive Op where
  | mkdir (dir : Path) (pos : Nat) (n : Name) (ino : Ino)
  | create (dir : Path) (pos : Nat) (n : Name) (ino : Ino)
  | symlink (dir : Path) (pos : Nat) (n : Name) (ino : Ino) (target : Spelling)
  | rename (src : Path) (n : Name) (dst : Path) (pos : Nat) (m : Name) (behind : Spelling)
  | delete (dir : Path) (n : Name) (behind : Spelling) (early : Bool)
  | modify (dir : Path) (n : Name)
deriving DecidableEq

/-- A changed entry of a directory, and the bit that says how it changed. -/
structure Place where
  dir : Path
  name : Name
  mask : UInt32
deriving DecidableEq

def Place.path (x : Place) : Path := x.dir ++ [x.name]

/-- What the change should be reported as. -/
def Place.change (x : Place) : Change Path := ⟨changeType x.mask, x.path⟩

/-- The entries an operation changes, in the order of their events. -/
def Op.places : Op → List Place
  | .mkdir dir _ n _ | .create dir _ n _ | .symlink dir _ n _ _ => [⟨dir, n, IN_CREATE⟩]
  | .rename src n dst _ m _ => [⟨src, n, IN_MOVED_FROM⟩, ⟨dst, m, IN_MOVED_TO⟩]
  | .delete dir n _ _ => [⟨dir, n, IN_DELETE⟩]
  | .modify dir n => [⟨dir, n, IN_MODIFY⟩]

/-- Where there is an entry afterwards that was not there before. -/
def Op.placed : Op → List Path
  | .mkdir dir _ n _ | .create dir _ n _ | .symlink dir _ n _ _ => [dir ++ [n]]
  | .rename _ _ dst _ m _ => [dst ++ [m]]
  | .delete .. | .modify .. => []

/-- The paths at which an entry is moved or removed. -/
def Op.taken : Op → List Path
  | .mkdir .. | .create .. | .symlink .. | .modify .. => []
  | .rename src n dst _ m _ => [src ++ [n], dst ++ [m]]
  | .delete dir n _ _ => [dir ++ [n]]

/-- The root and the directories above it stay where they are. -/
def Op.KeepsRoot (root : Path) (op : Op) : Prop := ∀ p ∈ op.taken, ¬ p <+: root

instance (root : Path) (op : Op) : Decidable (op.KeepsRoot root) :=
  inferInstanceAs (Decidable (∀ p ∈ op.taken, ¬ p <+: root))

/-! ## What an operation does -/

def isDirEntry : Entry → Bool
  | .leaf .. => false
  | .dir .. => true

/-- `IN_ISDIR` where the event is about a directory. -/
def dirBit (e : Entry) : UInt32 := if isDirEntry e then IN_ISDIR else 0

/-- The watch of a removed directory ends: `IN_IGNORED`. -/
def Sys.unwatch (s : Sys) (behind : Spelling) : Option Entry → Sys
  | some (.dir ino _) =>
    match s.wdOf ino with
    | some wd =>
      { s with
        wdOf := Function.update s.wdOf ino none
        queue := s.queue ++ [⟨wd, IN_IGNORED, none, behind⟩] }
    | none => s
  | some (.leaf ..) | none => s

/-- `rename` puts `e` over `old`: nothing, or a leaf for a leaf and an empty
directory for a directory. Two links to one file are left alone. -/
def replaces (e : Entry) : Option Entry → Bool
  | none => true
  | some old => old.removable && isDirEntry e == isDirEntry old && e.node.ino != old.node.ino

/-- `unlink` and `rmdir` -/
def Sys.delete (s : Sys) (dir : Path) (n : Name) (behind : Spelling) (early : Bool) :
    Option Sys :=
  match s.fs.dirAt dir, s.fs.find (dir ++ [n]) with
  | some (ino, _), some e =>
    if e.removable then
      if early then
        let s := s.unwatch behind (some e)
        some ({ s with fs := s.fs.eraseAt dir n }.emit ino (IN_DELETE ||| dirBit e) n)
      else
        let s := { s with fs := s.fs.eraseAt dir n }.emit ino (IN_DELETE ||| dirBit e) n
        some (s.unwatch behind (some e))
    else none
  | _, _ => none

/-- `write` to a regular file. The kernel does not queue the record that is the last one
in the queue already. -/
def Sys.modify (s : Sys) (dir : Path) (n : Name) : Option Sys :=
  match s.fs.dirAt dir, s.fs.find (dir ++ [n]) with
  | some (ino, _), some (.leaf _ none) =>
    let s' := s.emit ino IN_MODIFY n
    some (if s'.queue.getLast? = s.queue.getLast? then s else s')
  | _, _ => none

def Sys.rename (s : Sys) (src : Path) (n : Name) (dst : Path) (pos : Nat) (m : Name)
    (behind : Spelling) : Option Sys :=
  match s.fs.dirAt src, s.fs.find (src ++ [n]), s.fs.dirAt dst with
  | some (i, _), some e, some (j, _) =>
    let old := s.fs.find (dst ++ [m])
    if isDot m = false ∧ ¬ src ++ [n] <+: dst ++ [m] ∧ replaces e old = true then
      let s := { s with fs := s.fs.moveAt src n dst pos m e }.emit i (IN_MOVED_FROM ||| dirBit e) n
      some ((s.emit j (IN_MOVED_TO ||| dirBit e) m).unwatch behind old)
    else none
  | _, _, _ => none

/-- The descriptor of the directory at a path, if it is watched. -/
def Sys.wdAt (s : Sys) (p : Path) : Option Int := (s.fs.dirAt p).bind fun (ino, _) => s.wdOf ino

/-- The watch an operation ends by removing its directory, and what the reader
finds behind the record of that. -/
def Sys.ends (s : Sys) : Op → Option (Int × Spelling)
  | .mkdir .. | .create .. | .symlink .. | .modify .. => none
  | .rename _ _ dst _ m behind => (s.wdAt (dst ++ [m])).map fun wd => (wd, behind)
  | .delete dir n behind _ => (s.wdAt (dir ++ [n])).map fun wd => (wd, behind)

/-- One operation. The inode of a new entry is one that is not in use. -/
def Sys.apply (s : Sys) : Op → Option Sys
  | .mkdir dir pos n ino =>
    if ino ∉ s.fs.inos then s.make dir pos n (.dir ino .nil) (IN_CREATE ||| IN_ISDIR) else none
  | .create dir pos n ino =>
    if ino ∉ s.fs.inos then s.make dir pos n (.leaf ino none) IN_CREATE else none
  | .symlink dir pos n ino target =>
    if ino ∉ s.fs.inos then s.make dir pos n (.leaf ino (some target)) IN_CREATE else none
  | .rename src n dst pos m behind => s.rename src n dst pos m behind
  | .delete dir n behind early => s.delete dir n behind early
  | .modify dir n => s.modify dir n

/-! ## The reader -/

/-- `if (is_directory(fullpath)) linux_monitor->watch(fullpath);` -/
def Sys.descend (s : Sys) (p : Path) : Option Sys :=
  if s.fs.isDirectory p then s.watch p else some s

/-- The loop's body for the event `e` at the head of the queue. -/
def Sys.handle (s : Sys) (e : Event) : Option Sys :=
  ((s.take e s.queue.tail).descend (s.changeOf e).path).map fun s' =>
    { s' with reader := .idle, seen := s'.seen ++ [s.changeOf e] }

/-- The reader handles what is queued. -/
def Sys.drain (s : Sys) : Option Sys := run Sys.handle s s.queue

/-- An operation that leaves the root in its place, and then the reader. -/
def opStep (root : Path) (s : Sys) (op : Op) : Option Sys :=
  if op.KeepsRoot root then (s.apply op).bind Sys.drain else none

/-- A call of `onchange`, with the event it was made for and the tree at that moment. -/
structure Report where
  event : Event
  change : Change Path
  fs : Entry
deriving DecidableEq

/-- The reports of a step. -/
def reported (s : Sys) (op : Op) : List Report :=
  match s.apply op with
  | some s' => collect Sys.handle (fun s e => [⟨e, s.changeOf e, s.fs⟩]) s' s'.queue
  | none => []

/-! ## Handling an event is what the reader's steps come to -/

/-- The reader alone gets from one state to another. -/
def ReaderRun : Sys → Sys → Prop := Relation.ReflTransGen fun s s' => s.readerStep = some s'

variable {s s' : Sys}

theorem ReaderRun.step {s₁ : Sys} (h : s.readerStep = some s₁) (hrun : ReaderRun s₁ s') :
    ReaderRun s s' :=
  Relation.ReflTransGen.head h hrun

/-- Registering a path does not depend on where the reader stands. -/
theorem register_reader (s : Sys) (r : Reader Path) (p : Path) :
    Sys.register { s with reader := r } p
      = (s.register p).map fun s' => { s' with reader := r } := by
  unfold Sys.register Sys.inotifyAddWatch
  cases inodeOf s.fs p with
  | none => rfl
  | some ino =>
    simp only [Option.map_some]
    cases s.wdOf ino <;> rfl

/-- The rest of a call of `watch`: one step for each path and one to return. -/
theorem readerRun_adding {c : Change Path} {ps : List Path} (h : ps.foldlM Sys.register s = some s') :
    ReaderRun { s with reader := .watching c (.adding ps) } { s' with reader := .notify c } := by
  induction ps generalizing s with
  | nil =>
    cases h
    exact .step rfl .refl
  | cons p ps ih =>
    rw [List.foldlM_cons] at h
    obtain ⟨s₁, hreg, h⟩ := Option.bind_eq_some_iff.mp h
    refine .step ?_ (ih h)
    unfold Sys.readerStep
    simp only [Sys.callStep]
    rw [register_reader, hreg]
    rfl

/-- `Sys.handle` is a run of the reader from `read` to `read`. -/
theorem readerRun_handle {e : Event} {rest : List Event} (hr : s.reader = .idle)
    (hq : s.queue = e :: rest) (h : s.handle e = some s') : ReaderRun s s' := by
  obtain ⟨t, hd, rfl⟩ := Option.map_eq_some_iff.mp h
  rw [hq, List.tail_cons] at hd
  have htake : s.readerStep = some (s.take e rest) := by
    unfold Sys.readerStep
    rw [hr, hq]
  have hnotify : ∀ t : Sys, ReaderRun { t with reader := .notify (s.changeOf e) }
      { t with reader := .idle, seen := t.seen ++ [s.changeOf e] } :=
    fun _ => .step rfl .refl
  refine .step htake ?_
  unfold Sys.descend at hd
  split at hd
  · next hdir =>
    have henter : (s.take e rest).readerStep
        = some { s.take e rest with
            reader := .watching (s.changeOf e) (.listing (s.changeOf e).path) } :=
      congrArg some (congrArg (fun r => { s.take e rest with reader := r }) (if_pos hdir))
    refine .step henter ?_
    unfold Sys.watch at hd
    split at hd
    · next ps hlist =>
      have hadding : Sys.readerStep { s.take e rest with
            reader := .watching (s.changeOf e) (.listing (s.changeOf e).path) }
          = some { s.take e rest with reader := .watching (s.changeOf e) (.adding ps) } := by
        unfold Sys.readerStep
        simp only [Sys.callStep]
        rw [hlist]
      exact .step hadding ((readerRun_adding hd).trans (hnotify t))
    · cases hd
  · next hdir =>
    cases hd
    have hpass : (s.take e rest).readerStep
        = some { s.take e rest with reader := .notify (s.changeOf e) } :=
      congrArg some (congrArg (fun r => { s.take e rest with reader := r }) (if_neg hdir))
    exact .step hpass (hnotify _)

/-! ## What an operation changes -/

/-- The event queued for a changed entry: none if its directory is not watched. -/
def Sys.announce (s : Sys) (bit : UInt32) (x : Place) : List Event :=
  match s.fs.dirAt x.dir with
  | none => []
  | some (ino, _) =>
    match s.wdOf ino with
    | some wd => [.named wd (x.mask ||| bit) x.name]
    | none => []

/-- No directory has the descriptor, and none will. -/
def Dead (s : Sys) (wd : Int) : Prop := wd < s.nextWd ∧ ∀ i, s.wdOf i ≠ some wd

/-- What an operation does to a system in which nothing is queued. -/
structure Applied (s : Sys) (op : Op) (s' : Sys) : Prop where
  wired : Wired s'
  nextWd : s'.nextWd = s.nextWd
  wdMap : s'.wdMap = s.wdMap
  reader : s'.reader = s.reader
  seen : s'.seen = s.seen
  queue : s.queue = [] → ∃ bit before after, (bit = 0 ∨ bit = IN_ISDIR) ∧
    s'.queue = before ++ op.places.flatMap (s.announce bit) ++ after ∧
    ∀ e ∈ before ++ after, e.name = none ∧ Dead s' e.wd ∧ s.ends op = some (e.wd, e.behind)
  /-- No watch is added. -/
  watches : ∀ {i w}, s'.wdOf i = some w → s.wdOf i = some w
  /-- The directories of the changed entries are not touched themselves. -/
  dirs : ∀ x ∈ op.places, ∃ i, s.fs.stat x.dir = some (.dir i) ∧ s'.fs.stat x.dir = some (.dir i)
  /-- A directory that is still there keeps its watch. -/
  wdOf : ∀ {p i}, s'.fs.stat p = some (.dir i) → s'.wdOf i = s.wdOf i
  /-- A directory was where it is, or is at or below a new entry. -/
  stays : ∀ {p i}, s'.fs.stat p = some (.dir i) →
    s.fs.stat p = some (.dir i) ∨ ∃ q ∈ op.placed, q <+: p
  keeps : ∀ {p i}, s.fs.stat p = some (.dir i) → (∀ q ∈ op.taken, ¬ q <+: p) →
    s'.fs.stat p = some (.dir i)
  /-- A changed entry that is not new is gone, or is a file. -/
  vacated : ∀ x ∈ op.places,
    x.path ∈ op.placed ∨ (isDot x.name = false ∧ s'.fs.stat x.path = none) ∨
      ∃ i, s'.fs.stat x.path = some (.leaf i none)
  fresh : ∀ q ∈ op.placed, q ∈ op.taken ∨ s.fs.stat q = none

/-- `emit` queues what is announced. -/
theorem emit_announce {s : Sys} {x : Place} {ino : Ino} {sub : Dir}
    (h : s.fs.find x.dir = some (.dir ino sub)) (fs : Entry) (queue : List Event) (bit : UInt32) :
    Sys.emit { s with fs := fs, queue := queue } ino (x.mask ||| bit) x.name
      = { s with fs := fs, queue := queue ++ s.announce bit x } := by
  unfold Sys.announce Sys.emit
  rw [dirAt_eq_some.mpr h]
  dsimp only
  cases s.wdOf ino with
  | some wd => rfl
  | none =>
    dsimp only
    rw [List.append_nil]

/-- The watch of another directory that has ended makes no difference. -/
theorem emit_announce_ended {s : Sys} {x : Place} {ino j : Ino} {sub : Dir}
    (h : s.fs.find x.dir = some (.dir ino sub)) (hne : ino ≠ j) (fs : Entry)
    (queue : List Event) (bit : UInt32) :
    Sys.emit { s with fs := fs, wdOf := Function.update s.wdOf j none, queue := queue } ino
        (x.mask ||| bit) x.name
      = { s with
          fs := fs
          wdOf := Function.update s.wdOf j none
          queue := queue ++ s.announce bit x } := by
  unfold Sys.announce Sys.emit
  rw [dirAt_eq_some.mpr h]
  dsimp only
  rw [Function.update_of_ne hne]
  cases s.wdOf ino with
  | some wd => rfl
  | none =>
    dsimp only
    rw [List.append_nil]

/-- What still has a descriptor when the watch of `ino` has ended had it before, and is
another directory. -/
theorem update_none_cases {s : Sys} {ino i : Ino} {w : Int}
    (h : Function.update s.wdOf ino none i = some w) : s.wdOf i = some w ∧ i ≠ ino := by
  by_cases he : i = ino
  · rw [he, Function.update_self] at h
    cases h
  · rw [Function.update_of_ne he] at h
    exact ⟨h, he⟩

/-- No directory has the descriptor of a watch that has ended. -/
theorem dead_of_ended {s s' : Sys} (hs : Wired s) {ino : Ino} {wd : Int}
    (hw : s.wdOf ino = some wd) (hnext : s'.nextWd = s.nextWd)
    (hwdOf : s'.wdOf = Function.update s.wdOf ino none) : Dead s' wd := by
  refine ⟨hnext ▸ hs.wdLt hw, fun i hi => ?_⟩
  obtain ⟨hold, hne⟩ := update_none_cases (hwdOf ▸ hi)
  exact hne (hs.wdInj hold hw)

/-- An operation is described by what it does to the tree, by its changed entries and by
the entry it removes for good. -/
theorem applied_of_tree {op : Op} {fs : Entry} {bit : UInt32} (behind : Spelling)
    {old : Option Entry} (hs : Wired s) (hbit : bit = 0 ∨ bit = IN_ISDIR) (hwf : fs.WF)
    (huniq : fs.Unique)
    (hends : ∀ ino sub, old = some (.dir ino sub) →
      s.ends op = (s.wdOf ino).map fun wd => (wd, behind))
    (hgone : ∀ ino sub, old = some (.dir ino sub) → ∀ p, fs.stat p ≠ some (.dir ino))
    (hdirs : ∀ x ∈ op.places,
      ∃ i, s.fs.stat x.dir = some (.dir i) ∧ fs.stat x.dir = some (.dir i))
    (hstays : ∀ {p i}, fs.stat p = some (.dir i) →
      s.fs.stat p = some (.dir i) ∨ ∃ q ∈ op.placed, q <+: p)
    (hkeeps : ∀ {p i}, s.fs.stat p = some (.dir i) → (∀ q ∈ op.taken, ¬ q <+: p) →
      fs.stat p = some (.dir i))
    (hvacated : ∀ x ∈ op.places, x.path ∈ op.placed ∨
      (isDot x.name = false ∧ fs.stat x.path = none) ∨ ∃ i, fs.stat x.path = some (.leaf i none))
    (hfresh : ∀ q ∈ op.placed, q ∈ op.taken ∨ s.fs.stat q = none) :
    Applied s op (Sys.unwatch { s with
      fs := fs, queue := s.queue ++ op.places.flatMap (s.announce bit) } behind old) := by
  -- without a watch that ends, only the tree and the queue change
  have hplain : Applied s op { s with
      fs := fs, queue := s.queue ++ op.places.flatMap (s.announce bit) } :=
    ⟨⟨hwf, huniq, hs.wdLt, hs.wdInj⟩, rfl, rfl, rfl, rfl,
      fun hq => ⟨bit, [], [], hbit, by rw [List.append_nil, hq], List.forall_mem_nil _⟩, id,
      hdirs, fun _ => rfl, hstays, hkeeps, hvacated, hfresh⟩
  cases old with
  | none => exact hplain
  | some e =>
    cases e with
    | leaf => exact hplain
    | dir ino sub =>
      unfold Sys.unwatch
      dsimp only
      cases hw : s.wdOf ino with
      | none => exact hplain
      | some wd =>
        refine ⟨⟨hwf, huniq, fun hi => hs.wdLt (update_none_cases hi).1,
          fun hi hj => hs.wdInj (update_none_cases hi).1 (update_none_cases hj).1⟩, rfl, rfl, rfl,
          rfl,
          fun hq => ⟨bit, [], _, hbit, congrArg (· ++ _) (congrArg (· ++ _) hq), ?_⟩,
          fun hi => (update_none_cases hi).1, hdirs, ?_, hstays, hkeeps, hvacated, hfresh⟩
        · intro e he
          cases List.mem_singleton.mp he
          refine ⟨rfl, dead_of_ended hs hw rfl rfl, ?_⟩
          rw [hends ino sub rfl, hw]
          rfl
        · intro p i hp
          refine Function.update_of_ne ?_ _ _
          intro he
          exact hgone ino sub rfl p (he ▸ hp)

/-- The three ways to make an entry. -/
theorem applied_make {op : Op} {dir : Path} {pos : Nat} {n : Name} {new : Entry} {bit : UInt32}
    (hs : Wired s) (h : s.make dir pos n new (IN_CREATE ||| bit) = some s')
    (hbit : bit = 0 ∨ bit = IN_ISDIR) (hplaces : op.places = [⟨dir, n, IN_CREATE⟩])
    (hplaced : op.placed = [dir ++ [n]]) (hwf : new.WF) (hnew : ∀ m r, new.stat (m :: r) = none)
    (hfresh : new.node.ino ∉ s.fs.inos) : Applied s op s' := by
  obtain ⟨hdot, habs, ino, sub, hdir, rfl⟩ := make_cases h
  have hstat : ∀ q, (s.fs.addAt dir pos n new).stat q
      = if q = dir ++ [n] then some new.node else s.fs.stat q :=
    stat_addAt_bare hnew hdir hdot habs
  have hkeeps : ∀ {p i}, s.fs.stat p = some (.dir i) →
      (s.fs.addAt dir pos n new).stat p = some (.dir i) := by
    intro p i hp
    rw [hstat, if_neg]
    · exact hp
    · intro he
      rw [he, stat_none_iff.mpr habs] at hp
      cases hp
  have hemit := emit_announce (x := ⟨dir, n, IN_CREATE⟩) hdir (s.fs.addAt dir pos n new) s.queue bit
  have happlied : Applied s op (Sys.unwatch { s with
      fs := s.fs.addAt dir pos n new,
      queue := s.queue ++ op.places.flatMap (s.announce bit) } ⟨false, []⟩ none) := by
    refine applied_of_tree _ hs hbit (wf_addAt hs.wf hwf hdir hdot habs)
      (unique_addAt_bare hs.uniq hnew hfresh hdir hdot habs) (fun _ _ h => by cases h)
      (fun _ _ h => by cases h) ?_ ?_ (fun hp _ => hkeeps hp) ?_ ?_
    · intro x hx
      rw [hplaces, List.mem_singleton] at hx
      subst hx
      exact ⟨ino, stat_dir_iff.mpr ⟨sub, hdir⟩, hkeeps (stat_dir_iff.mpr ⟨sub, hdir⟩)⟩
    · intro p i hp
      rw [hstat] at hp
      split at hp
      · next he => exact Or.inr ⟨dir ++ [n], by rw [hplaced]; simp, he ▸ List.prefix_refl _⟩
      · exact Or.inl hp
    · intro x hx
      rw [hplaces, List.mem_singleton] at hx
      subst hx
      exact Or.inl (hplaced ▸ List.mem_singleton.mpr rfl)
    · intro q hq
      rw [hplaced, List.mem_singleton] at hq
      rw [hq]
      exact Or.inr (stat_none_iff.mpr habs)
  rw [hplaces, List.flatMap_singleton, ← hemit] at happlied
  exact happlied

theorem dirBit_cases (e : Entry) : dirBit e = 0 ∨ dirBit e = IN_ISDIR := by
  unfold dirBit
  split
  · exact Or.inr rfl
  · exact Or.inl rfl

theorem not_dot_of_entry {fs e : Entry} {p : Path} {n : Name} (h : fs.find (p ++ [n]) = some e) :
    isDot n = false :=
  not_dot_of_find (by rw [h]; nofun) n (List.mem_append_right _ (List.mem_singleton.mpr rfl))

theorem unwatch_of_none {k : Sys} {behind : Spelling} {ino : Ino} {sub : Dir}
    (h : k.wdOf ino = none) : k.unwatch behind (some (.dir ino sub)) = k := by
  unfold Sys.unwatch
  dsimp only
  rw [h]

theorem unwatch_of_some {k : Sys} {behind : Spelling} {ino : Ino} {sub : Dir} {wd : Int}
    (h : k.wdOf ino = some wd) : k.unwatch behind (some (.dir ino sub))
      = { k with
        wdOf := Function.update k.wdOf ino none
        queue := k.queue ++ [⟨wd, IN_IGNORED, none, behind⟩] } := by
  unfold Sys.unwatch
  dsimp only
  rw [h]

/-- The record of the watch that ends comes last. -/
theorem applied_delete_late {dir : Path} {n : Name} {behind : Spelling} (early : Bool)
    (hs : Wired s) (h : s.delete dir n behind false = some s') :
    Applied s (.delete dir n behind early) s' := by
  unfold Sys.delete at h
  split at h
  · next ino sub e hdirAt hentry =>
    obtain ⟨hrem, h⟩ := Option.ite_none_right_eq_some.mp h
    rw [if_neg Bool.false_ne_true] at h
    have hdir := dirAt_eq_some.mp hdirAt
    have hdirNode : s.fs.stat dir = some (.dir ino) := stat_dir_iff.mpr ⟨sub, hdir⟩
    have hemit := emit_announce (x := ⟨dir, n, IN_DELETE⟩) hdir (s.fs.eraseAt dir n) s.queue
      (dirBit e)
    have happlied : Applied s (.delete dir n behind early) (Sys.unwatch { s with
        fs := s.fs.eraseAt dir n,
        queue := s.queue ++ (Op.delete dir n behind early).places.flatMap (s.announce (dirBit e)) }
          behind (some e)) := by
      refine applied_of_tree _ hs (dirBit_cases e) (wf_eraseAt hs.wf hdir)
        (unique_eraseAt hs.uniq hdir) ?_ ?_ ?_ ?_ ?_ ?_ (List.forall_mem_nil _)
      · intro i sub' he
        cases he
        rw [Sys.ends, Sys.wdAt, dirAt_eq_some.mpr hentry]
        rfl
      · intro i sub' he p hp
        cases he
        -- a directory has one path, and that is the one that went
        rw [stat_eraseAt hdir] at hp
        split at hp
        · cases hp
        · next hapart =>
          have hsame := hs.uniq (stat_dir_iff.mpr ⟨sub', hentry⟩) hp
          exact hapart (hsame ▸ List.prefix_refl _)
      · intro x hx
        cases List.mem_singleton.mp hx
        refine ⟨ino, hdirNode, ?_⟩
        rw [stat_eraseAt hdir, if_neg (snoc_not_above dir n)]
        exact hdirNode
      · intro p i hp
        rw [stat_eraseAt hdir] at hp
        split at hp
        · cases hp
        · exact Or.inl hp
      · intro p i hp htaken
        rw [stat_eraseAt hdir, if_neg (htaken _ (List.mem_singleton.mpr rfl))]
        exact hp
      · intro x hx
        cases List.mem_singleton.mp hx
        refine Or.inr (Or.inl ⟨not_dot_of_entry hentry, ?_⟩)
        exact (stat_eraseAt hdir _).trans (if_pos (List.prefix_refl _))
    cases h
    rw [show (Op.delete dir n behind early).places = [⟨dir, n, IN_DELETE⟩] from rfl,
      List.flatMap_singleton, ← hemit] at happlied
    exact happlied
  · cases h

/-- A directory is not the one it stands in. -/
theorem ino_ne_of_entry {fs : Entry} {dir : Path} {n : Name} {ino j : Ino} {sub sub' : Dir}
    (huniq : fs.Unique) (hdir : fs.find dir = some (.dir ino sub))
    (hentry : fs.find (dir ++ [n]) = some (.dir j sub')) : ino ≠ j := by
  intro he
  have hsame := huniq (stat_dir_iff.mpr ⟨sub, hdir⟩) (he ▸ stat_dir_iff.mpr ⟨sub', hentry⟩)
  exact snoc_not_above dir n (hsame ▸ List.prefix_refl _)

/-- The order of the records does not matter to the rest. -/
theorem Applied.requeue {op : Op} (h : Applied s op s') {queue : List Event}
    (hqueue : s.queue = [] → ∃ bit before after, (bit = 0 ∨ bit = IN_ISDIR) ∧
      queue = before ++ op.places.flatMap (s.announce bit) ++ after ∧
      ∀ e ∈ before ++ after, e.name = none ∧ Dead s' e.wd ∧ s.ends op = some (e.wd, e.behind)) :
    Applied s op { s' with queue := queue } :=
  ⟨h.wired.same rfl rfl rfl, h.nextWd, h.wdMap, h.reader, h.seen, hqueue, h.watches, h.dirs,
    h.wdOf, h.stays, h.keeps, h.vacated, h.fresh⟩

theorem applied_delete {dir : Path} {n : Name} {behind : Spelling} {early : Bool} (hs : Wired s)
    (h : s.delete dir n behind early = some s') : Applied s (.delete dir n behind early) s' := by
  cases early with
  | false => exact applied_delete_late false hs h
  | true =>
    unfold Sys.delete at h
    split at h
    · next ino sub e hdirAt hentry =>
      obtain ⟨hrem, h⟩ := Option.ite_none_right_eq_some.mp h
      rw [if_pos rfl] at h
      have hlate : Applied s (.delete dir n behind true) (Sys.unwatch
          (Sys.emit { s with fs := s.fs.eraseAt dir n } ino (IN_DELETE ||| dirBit e) n)
          behind (some e)) := by
        refine applied_delete_late true hs ?_
        unfold Sys.delete
        rw [hdirAt, hentry]
        dsimp only
        rw [if_pos hrem, if_neg Bool.false_ne_true]
      cases h
      cases e with
      | leaf => exact hlate
      | dir j sub' =>
        -- only for a watched directory is there an order of two records
        cases hw : s.wdOf j with
        | none =>
          rw [unwatch_of_none hw]
          rwa [unwatch_of_none (by rw [(emit_fields _ ino _ n).2.1]; exact hw)] at hlate
        | some wd =>
          have hdir := dirAt_eq_some.mp hdirAt
          have hemit := emit_announce (x := ⟨dir, n, IN_DELETE⟩) hdir (s.fs.eraseAt dir n) s.queue
            (dirBit (.dir j sub'))
          have hearly := emit_announce_ended (x := ⟨dir, n, IN_DELETE⟩) hdir
            (ino_ne_of_entry hs.uniq hdir hentry) (s.fs.eraseAt dir n)
            (s.queue ++ [⟨wd, IN_IGNORED, none, behind⟩]) (dirBit (.dir j sub'))
          rw [hemit] at hlate
          have hended := @unwatch_of_some { s with
            fs := s.fs.eraseAt dir n,
            queue := s.queue ++ s.announce (dirBit (.dir j sub')) ⟨dir, n, IN_DELETE⟩ }
            behind j sub' wd hw
          rw [hended] at hlate
          rw [unwatch_of_some hw]
          dsimp only
          rw [hearly]
          refine hlate.requeue fun hq =>
            ⟨_, [⟨wd, IN_IGNORED, none, behind⟩], [], dirBit_cases (.dir j sub'), ?_, ?_⟩
          · rw [hq, show (Op.delete dir n behind true).places = [⟨dir, n, IN_DELETE⟩] from rfl,
              List.flatMap_singleton, List.append_nil, List.nil_append]
          · intro e he
            cases List.mem_singleton.mp he
            refine ⟨rfl, dead_of_ended hs hw rfl rfl, ?_⟩
            rw [Sys.ends, Sys.wdAt, dirAt_eq_some.mpr hentry, Option.bind_some]
            dsimp only
            rw [hw]
            rfl
    · cases h

/-- Nothing is below what a rename replaces. -/
theorem not_below_replaced {fs e : Entry} {p q : Path} {n : Name} (he : fs.find (q ++ [n]) = some e)
    (h : replaces e (fs.find p) = true) : ¬ p <+: q := by
  intro hp
  obtain ⟨r, rfl⟩ := hp
  have hsplit : p ++ r ++ [n] = p ++ (r ++ [n]) := List.append_assoc _ _ _
  cases hold : fs.find p with
  | none =>
    rw [hsplit, find_append, hold] at he
    cases he
  | some old =>
    rw [hold] at h
    unfold replaces at h
    have hrem : old.removable = true := by
      simp only [Bool.and_eq_true] at h
      exact h.1.1
    have hstat : old.stat (r ++ [n]) = some e.node := by
      rw [← stat_append hold, ← hsplit]
      exact stat_eq_some.mpr ⟨e, he, rfl⟩
    cases r with
    | nil =>
      rw [List.nil_append, stat_of_removable hrem] at hstat
      cases hstat
    | cons k r =>
      rw [List.cons_append, stat_of_removable hrem] at hstat
      cases hstat

theorem applied_rename {src dst : Path} {n m : Name} {pos : Nat} {behind : Spelling} (hs : Wired s)
    (h : s.rename src n dst pos m behind = some s') :
    Applied s (.rename src n dst pos m behind) s' := by
  unfold Sys.rename at h
  split at h
  · next i sub e j sub' hsrcAt hentry hdstAt =>
    dsimp only at h
    split at h
    · next hguard =>
      obtain ⟨hdot, hapart, hrep⟩ := hguard
      have hsrc := dirAt_eq_some.mp hsrcAt
      have hdst := dirAt_eq_some.mp hdstAt
      have hmove : Moves s.fs src n dst m e := ⟨⟨i, sub, hsrc⟩, hentry, ⟨j, sub', hdst⟩, hdot, hapart⟩
      have hkept : ¬ dst ++ [m] <+: src := not_below_replaced hentry hrep
      have hmemFrom : src ++ [n] ∈ (Op.rename src n dst pos m behind).taken := List.mem_cons_self ..
      -- both records are queued before the watch of what is replaced ends
      have hmemTo : dst ++ [m] ∈ (Op.rename src n dst pos m behind).taken := by simp [Op.taken]
      have hfrom := emit_announce (x := ⟨src, n, IN_MOVED_FROM⟩) hsrc (s.fs.moveAt src n dst pos m e)
        s.queue (dirBit e)
      have hto := emit_announce (x := ⟨dst, m, IN_MOVED_TO⟩) hdst (s.fs.moveAt src n dst pos m e)
        (s.queue ++ s.announce (dirBit e) ⟨src, n, IN_MOVED_FROM⟩) (dirBit e)
      have happlied : Applied s (.rename src n dst pos m behind) (Sys.unwatch { s with
          fs := s.fs.moveAt src n dst pos m e,
          queue := s.queue ++
            (Op.rename src n dst pos m behind).places.flatMap (s.announce (dirBit e)) }
            behind (s.fs.find (dst ++ [m]))) := by
        refine applied_of_tree _ hs (dirBit_cases e) (wf_moveAt hs.wf hmove pos)
          (unique_moveAt hs.uniq hmove pos) ?_ ?_ ?_ ?_ ?_ ?_ ?_
        · intro k sub'' hold
          rw [Sys.ends, Sys.wdAt, dirAt_eq_some.mpr hold]
          rfl
        · intro k sub'' hold
          exact hmove.replaced_gone hs.uniq (stat_dir_iff.mpr ⟨sub'', hold⟩)
        · -- neither directory of the rename moves with the entry or is replaced by it
          intro x hx
          rcases List.mem_cons.mp hx with rfl | hx
          · have hdir : s.fs.stat src = some (.dir i) := stat_dir_iff.mpr ⟨sub, hsrc⟩
            refine ⟨i, hdir, ?_⟩
            rw [hmove.stat_apart pos hkept (snoc_not_above src n)]
            exact hdir
          · cases List.mem_singleton.mp hx
            have hdir : s.fs.stat dst = some (.dir j) := stat_dir_iff.mpr ⟨sub', hdst⟩
            refine ⟨j, hdir, ?_⟩
            rw [hmove.stat_apart pos (snoc_not_above dst m)
              fun hp => hapart (hp.trans (List.prefix_append _ _))]
            exact hdir
        · intro p k hp
          rcases dir_of_moveAt hmove hp with ⟨r, rfl, -⟩ | ⟨-, -, hp⟩
          · exact Or.inr ⟨dst ++ [m], List.mem_singleton.mpr rfl, List.prefix_append _ _⟩
          · exact Or.inl hp
        · intro p k hp htaken
          rw [hmove.stat_apart pos (htaken _ hmemTo) (htaken _ hmemFrom)]
          exact hp
        · intro x hx
          rcases List.mem_cons.mp hx with rfl | hx
          · exact Or.inr (Or.inl ⟨not_dot_of_entry hentry, hmove.source_gone pos hkept⟩)
          · cases List.mem_singleton.mp hx
            exact Or.inl (List.mem_singleton.mpr rfl)
        · intro q hq
          cases List.mem_singleton.mp hq
          exact Or.inl hmemTo
      have hqueue : s.queue ++
            (Op.rename src n dst pos m behind).places.flatMap (s.announce (dirBit e))
          = s.queue ++ s.announce (dirBit e) ⟨src, n, IN_MOVED_FROM⟩
            ++ s.announce (dirBit e) ⟨dst, m, IN_MOVED_TO⟩ := by
        simp only [Op.places, List.flatMap_cons, List.flatMap_nil, List.append_nil,
          List.append_assoc]
      cases h
      rw [hqueue, ← hto, ← hfrom] at happlied
      exact happlied
    · cases h
  · cases h

/-- A modified file is where it was, and so is everything else. -/
theorem applied_modify {dir : Path} {n : Name} (hs : Wired s) (h : s.modify dir n = some s') :
    Applied s (.modify dir n) s' := by
  unfold Sys.modify at h
  split at h
  · next ino sub j hdirAt hentry =>
    have hdir := dirAt_eq_some.mp hdirAt
    have hfile : s.fs.stat (dir ++ [n]) = some (.leaf j none) := stat_eq_some.mpr ⟨_, hentry, rfl⟩
    have hemit : s.emit ino IN_MODIFY n
        = { s with queue := s.queue ++ s.announce 0 ⟨dir, n, IN_MODIFY⟩ } := by
      rw [← emit_announce (x := ⟨dir, n, IN_MODIFY⟩) hdir s.fs s.queue 0,
        show IN_MODIFY ||| 0 = IN_MODIFY from by decide]
    have hsame : Applied s (.modify dir n) (Sys.unwatch { s with
        fs := s.fs, queue := s.queue ++ (Op.modify dir n).places.flatMap (s.announce 0) }
          ⟨false, []⟩ none) := by
      refine applied_of_tree _ hs (Or.inl rfl) hs.wf hs.uniq nofun nofun ?_ (fun hp => Or.inl hp)
        (fun hp _ => hp) ?_ (List.forall_mem_nil _)
      · intro x hx
        cases List.mem_singleton.mp hx
        have hnode : s.fs.stat dir = some (.dir ino) := stat_dir_iff.mpr ⟨sub, hdir⟩
        exact ⟨ino, hnode, hnode⟩
      · intro x hx
        cases List.mem_singleton.mp hx
        exact Or.inr (Or.inr ⟨j, hfile⟩)
    have hemitted : Applied s (.modify dir n) (s.emit ino IN_MODIFY n) := by
      rw [show (Op.modify dir n).places = [⟨dir, n, IN_MODIFY⟩] from rfl, List.flatMap_singleton]
        at hsame
      rw [hemit]
      exact hsame
    cases h
    split
    · next hlast =>
      -- in an empty queue there is no record to find there already
      have hmerged : { s.emit ino IN_MODIFY n with queue := s.queue } = s := by
        unfold Sys.emit
        cases s.wdOf ino <;> rfl
      have hrequeued := @Applied.requeue _ _ _ hemitted s.queue fun hq => by
        rw [hq, List.getLast?_nil, List.getLast?_eq_none_iff] at hlast
        rw [hq, ← hlast]
        exact hemitted.queue hq
      rw [hmerged] at hrequeued
      exact hrequeued
    · exact hemitted
  · cases h

/-- What every operation does. -/
theorem apply_cases {op : Op} (hs : Wired s) (h : s.apply op = some s') : Applied s op s' := by
  have hdir : ∀ (ino : Ino) m r, (Entry.dir ino .nil).stat (m :: r) = none :=
    fun ino => stat_of_removable (e := .dir ino .nil) rfl
  cases op with
  | mkdir dir pos n ino =>
    obtain ⟨hfresh, h⟩ := Option.ite_none_right_eq_some.mp h
    exact applied_make hs h (Or.inr rfl) rfl rfl trivial (hdir ino) hfresh
  | create dir pos n ino =>
    obtain ⟨hfresh, h⟩ := Option.ite_none_right_eq_some.mp h
    have hmake : s.make dir pos n (.leaf ino none) (IN_CREATE ||| 0) = some s' := h
    exact applied_make hs hmake (Or.inl rfl) rfl rfl trivial (fun _ _ => rfl) hfresh
  | symlink dir pos n ino target =>
    obtain ⟨hfresh, h⟩ := Option.ite_none_right_eq_some.mp h
    have hmake : s.make dir pos n (.leaf ino (some target)) (IN_CREATE ||| 0) = some s' := h
    exact applied_make hs hmake (Or.inl rfl) rfl rfl trivial (fun _ _ => rfl) hfresh
  | rename src n dst pos m behind => exact applied_rename hs h
  | delete dir n behind early => exact applied_delete hs h
  | modify dir n => exact applied_modify hs h

/-- An operation queues events and ends watches: what both keep, it keeps. -/
theorem apply_closed {k k' : Sys} {R : Sys → Sys → Prop} (hrefl : ∀ k, R k k)
    (htrans : ∀ {k k₁ k'}, R k k₁ → R k₁ k' → R k k')
    (hemit : ∀ k fs ino mask n, R k (Sys.emit { k with fs := fs } ino mask n))
    (hunwatch : ∀ k behind old, R k (k.unwatch behind old)) {op : Op}
    (h : k.apply op = some k') : R k k' := by
  cases op with
  | mkdir | create | symlink =>
    obtain ⟨-, -, ino, sub, -, rfl⟩ := make_cases (Option.ite_none_right_eq_some.mp h).2
    exact hemit k _ ino _ _
  | delete dir n behind early =>
    unfold Sys.apply Sys.delete at h
    dsimp only at h
    split at h
    · obtain ⟨-, h⟩ := Option.ite_none_right_eq_some.mp h
      split at h
      · cases h
        exact htrans (hunwatch k behind _) (hemit _ _ _ _ n)
      · cases h
        exact htrans (hemit k _ _ _ n) (hunwatch _ behind _)
    · cases h
  | modify dir n =>
    unfold Sys.apply Sys.modify at h
    dsimp only at h
    split at h
    · next ino sub j hdir hentry =>
      cases h
      split
      · exact hrefl k
      · exact hemit k k.fs ino IN_MODIFY n
    · cases h
  | rename src n dst pos m behind =>
    unfold Sys.apply Sys.rename at h
    dsimp only at h
    split at h
    · obtain ⟨-, h⟩ := Option.ite_none_right_eq_some.mp h
      cases h
      exact htrans (htrans (hemit k _ _ _ n) (hemit _ _ _ _ m)) (hunwatch _ behind _)
    · cases h

end CommonCpp.Monitor
