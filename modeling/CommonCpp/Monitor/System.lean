import CommonCpp.Fs.FindFiles
import CommonCpp.Lib.Run
import CommonCpp.Monitor.Event
import Mathlib.Logic.Function.Basic

/-!
# `linux_monitor` as a system of threads

One state for everything the monitor's behaviour depends on: the file system,
the inotify instance (its watch table and its queue), the file-scope `wd_map`,
and where the two threads stand that run its code: the one that called
`watch(root)` and the reader of `_read_async`.

The steps are the ones at which another process can get in between: listing a
tree, one `inotify_add_watch`, taking an event, asking `is_directory`, calling
`onchange`. `step` is a partial function of the state and a label, so a run is
a list of labels. `Sys.watch` is a whole call of `watch` at once.

inotify: descriptors count up from 1, a directory that already has one keeps
it, and a change of a directory's entries is queued exactly when the directory
has a descriptor at that moment. Directories can always be opened here.
-/

namespace CommonCpp.Monitor

open CommonCpp.Fs CommonCpp.Lib

/-- Where a call of `watch` stands. -/
inductive Call where
  /-- `find_files` has not run yet. -/
  | listing (path : Path)
  /-- The listed paths that still have to be registered. -/
  | adding (paths : List Path)
  /-- An exception left the call. -/
  | threw
deriving DecidableEq

/-- Where the loop of `_read_async` stands. -/
inductive Reader (π : Type) where
  /-- At `read`. -/
  | idle
  /-- An event was taken and its `change` built. -/
  | taken (c : Change π)
  /-- In `linux_monitor->watch(fullpath)`. -/
  | watching (c : Change π) (call : Call)
  /-- At `onchange(c, obj)`. -/
  | notify (c : Change π)
  /-- An exception left the thread (`std::terminate`). -/
  | terminated
deriving DecidableEq

/-- The state of the system. -/
structure Sys where
  fs : Entry
  /-- The kernel's watch table. -/
  wdOf : Ino → Option Int
  nextWd : Int
  queue : List Event
  /-- The file-scope `wd_map`. -/
  wdMap : Int → Option Path
  /-- The call of `watch` made by the application, while it runs. -/
  main : Option Call
  reader : Reader Path
  /-- The arguments of the calls of `onchange`, oldest first. -/
  seen : List (Change Path)

/-- Before any call: no watch, nothing queued, the reader at `read`. -/
def Sys.start (fs : Entry) : Sys where
  fs := fs
  wdOf := fun _ => none
  nextWd := 1
  queue := []
  wdMap := fun _ => none
  main := none
  reader := .idle
  seen := []

/-! ## `linux_monitor::watch` -/

/-- The inode a path leads to, following links. -/
def inodeOf (fs : Entry) (p : Path) : Option Ino :=
  ((fs.resolve p).bind fs.stat).map Node.ino

/-- `inotify_add_watch(fd, path, ...)`: a new descriptor, or the one the inode
already has. -/
def Sys.inotifyAddWatch (s : Sys) (p : Path) : Option (Int × Sys) :=
  (inodeOf s.fs p).map fun ino =>
    -- the kernel knows the inode, not the path it is called with
    match s.wdOf ino with
    | some wd => (wd, s)
    | none =>
      (s.nextWd,
        { s with wdOf := Function.update s.wdOf ino (some s.nextWd), nextWd := s.nextWd + 1 })

/-- The body of `watch`'s loop: register one path and note it in `wd_map`. -/
def Sys.register (s : Sys) (p : Path) : Option Sys :=
  (s.inotifyAddWatch p).map fun (wd, s) =>
    { s with wdMap := Function.update s.wdMap wd (some p) }

/-- `paths{path_to_watch}; find_files(path_to_watch, paths, true, 2)`. -/
def listPaths (fs : Entry) (p : Path) : Call :=
  match fs.openDir p with
  | none => .threw
  | some (_, d) =>
    match findFiles Path.append (fun _ => true) true 2 p d ⟨[p], []⟩ with
    | .ok scan => .adding scan.files
    | .error _ => .threw

/-- The next step of a call of `watch`; `none` when it returns. -/
def Sys.callStep (s : Sys) : Call → Sys × Option Call
  | .listing p => (s, some (listPaths s.fs p))
  | .adding [] => (s, none)
  | .adding (p :: ps) =>
    match s.register p with
    | some s' => (s', some (.adding ps))
    | none => (s, some .threw)
  | .threw => (s, some .threw)

/-- A whole call of `watch`, with nothing in between. -/
def Sys.watch (s : Sys) (p : Path) : Option Sys :=
  match listPaths s.fs p with
  | .adding ps => ps.foldlM Sys.register s
  | _ => none

/-! ## The loop of `_read_async` -/

/-- `wd_map[wd]`: `operator[]` reads an absent entry as the empty path. -/
def Sys.lookup (s : Sys) (wd : Int) : Path := (s.wdMap wd).getD []

/-- The change built for an event. -/
def Sys.changeOf (s : Sys) (e : Event) : Change Path :=
  ⟨changeType e.mask, e.fullPath (s.lookup e.wd)⟩

/-- Take the next event: `wd_map[event->wd]` also enters an absent key. -/
def Sys.take (s : Sys) (e : Event) (rest : List Event) : Sys :=
  { s with
    queue := rest
    wdMap := Function.update s.wdMap e.wd (some (s.lookup e.wd))
    reader := .taken (s.changeOf e) }

/-- The reader's next step. -/
def Sys.readerStep (s : Sys) : Option Sys :=
  match s.reader with
  | .idle =>
    match s.queue with
    | [] => none
    | e :: rest => some (s.take e rest)
  | .taken c =>
    some { s with
      reader := if s.fs.isDirectory c.path then .watching c (.listing c.path) else .notify c }
  | .watching c call =>
    -- nothing in the thread catches what `watch` throws
    match s.callStep call with
    | (s', none) => some { s' with reader := .notify c }
    | (s', some .threw) => some { s' with reader := .terminated }
    | (s', some call') => some { s' with reader := .watching c call' }
  | .notify c => some { s with reader := .idle, seen := s.seen ++ [c] }
  | .terminated => none

/-- The next step of the application's call of `watch`. -/
def Sys.mainStep (s : Sys) : Option Sys :=
  match s.main with
  | none | some .threw => none
  | some call =>
    match s.callStep call with
    | (s', call') => some { s' with main := call' }

/-! ## Creations under the root -/

/-- Queue an event about the entry `n` of the directory with inode `ino`, if
that directory is watched. -/
def Sys.emit (s : Sys) (ino : Ino) (mask : UInt32) (n : Name) : Sys :=
  match s.wdOf ino with
  | some wd => { s with queue := s.queue ++ [.named wd mask n] }
  | none => s

/-- Create entry `new` as `n` in the directory `dir`, at a place of `readdir`'s
order the file system chooses. -/
def Sys.make (s : Sys) (dir : Path) (pos : Nat) (n : Name) (new : Entry) (mask : UInt32) :
    Option Sys :=
  match s.fs.dirAt dir with
  | none => none
  | some (ino, _) =>
    if isDot n = false ∧ s.fs.find (dir ++ [n]) = none then
      some ({ s with fs := s.fs.addAt dir pos n new }.emit ino mask n)
    else none

/-- What can happen next. The inode of a new entry is one that is not in use. -/
inductive Act where
  | mkdir (dir : Path) (pos : Nat) (n : Name) (ino : Ino)
  | create (dir : Path) (pos : Nat) (n : Name) (ino : Ino)
  | main
  | reader
deriving DecidableEq

/-- The directory and the name of the entry an action creates. -/
def Act.makes : Act → Option (Path × Name)
  | .mkdir dir _ n _ | .create dir _ n _ => some (dir, n)
  | .main | .reader => none

/-- The paths created in a run. -/
def created (acts : List Act) : List Path :=
  (acts.filterMap Act.makes).map fun (dir, n) => dir ++ [n]

/-- One step of the system: `mkdir` and file creation under `root`, or a step
of one of the two threads. -/
def step (root : Path) (s : Sys) : Act → Option Sys
  | .mkdir dir pos n ino =>
    if root <+: dir ∧ ino ∉ s.fs.inos then
      s.make dir pos n (.dir ino .nil) (IN_CREATE ||| IN_ISDIR)
    else none
  | .create dir pos n ino =>
    if root <+: dir ∧ ino ∉ s.fs.inos then s.make dir pos n (.leaf ino none) IN_CREATE else none
  | .main => s.mainStep
  | .reader => s.readerStep

/-- The directory at a path has an inotify watch. -/
def Sys.Watched (s : Sys) (p : Path) : Prop :=
  ∃ ino wd, s.fs.stat p = some (.dir ino) ∧ s.wdOf ino = some wd

/-- The directory at a path has a descriptor. -/
def Sys.watchedAt (s : Sys) (p : Path) : Bool :=
  match s.fs.dirAt p with
  | some (ino, _) => (s.wdOf ino).isSome
  | none => false

theorem watchedAt_iff {s : Sys} {p : Path} : s.watchedAt p = true ↔ s.Watched p := by
  unfold Sys.watchedAt Sys.Watched
  cases hd : s.fs.dirAt p with
  | none =>
    constructor
    · intro h
      cases h
    · intro h
      obtain ⟨i, w, hi, -⟩ := h
      obtain ⟨sub, hsub⟩ := stat_dir_iff.mp hi
      rw [dirAt_eq_some.mpr hsub] at hd
      cases hd
  | some x =>
    obtain ⟨i, sub⟩ := x
    have hi : s.fs.stat p = some (.dir i) := stat_dir_iff.mpr ⟨sub, dirAt_eq_some.mp hd⟩
    rw [Option.isSome_iff_exists]
    constructor
    · intro h
      obtain ⟨w, hw⟩ := h
      exact ⟨i, w, hi, hw⟩
    · intro h
      obtain ⟨j, w, hj, hw⟩ := h
      rw [hi] at hj
      cases hj
      exact ⟨w, hw⟩

instance (s : Sys) (p : Path) : Decidable (s.Watched p) := decidable_of_iff _ watchedAt_iff

end CommonCpp.Monitor
