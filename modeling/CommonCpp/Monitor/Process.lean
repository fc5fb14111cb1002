import CommonCpp.Monitor.Operation

/-!
# Several monitors in one process

`fd`, `first` and `wd_map` stand at file scope in linux_monitor.cpp, so all
`linux_monitor` objects of a process share them. The state has every inotify
instance the constructors opened, every `std::thread` the calls of `read_async`
made, and the calls of `watch` the application is in. A step is one of the
application's calls, one step of a call of `watch` or of a reader thread, an
operation on the file system, or something the kernel queues of its own accord:
any event of a watch there is or was, the end of a watch, and the record of a
queue that overflowed, which carries -1 for a descriptor.

A reader waits on the instance that was current when its `read` began and asks
for `fd` again at the next one. One `inotify_add_watch` and the entry it makes in
`wd_map` are one step. `logged` records which object registered what, and no step
of the program reads it.
-/

namespace CommonCpp.Monitor

open CommonCpp.Fs CommonCpp.Lib

/-- An inotify instance. -/
structure Instance where
  wdOf : Ino → Option Int
  nextWd : Int
  queue : List Event

/-- What `inotify_init` returns: each instance numbers its watches from 1. -/
def Instance.new : Instance := ⟨fun _ => none, 1, []⟩

/-- The instance with a file system, as the kernel sees it. -/
def Instance.sys (inst : Instance) (fs : Entry) : Sys :=
  { Sys.start fs with wdOf := inst.wdOf, nextWd := inst.nextWd, queue := inst.queue }

def Sys.instance (s : Sys) : Instance := ⟨s.wdOf, s.nextWd, s.queue⟩

/-- A `linux_monitor` object: the descriptor its constructor opened, and whether it has
not been destroyed. -/
structure Object where
  opened : Nat
  alive : Bool

/-- A `std::thread` object and the `_read_async` it runs. -/
structure Thread where
  /-- `linux_monitor` -/
  owner : Nat
  /-- The instance a `read` waits on. -/
  reading : Option Nat
  /-- The instance the events in the buffer came from. -/
  source : Nat
  /-- The events in the buffer that have not been processed. -/
  batch : List Event
  /-- Its changes have a path that may be empty (`none`). -/
  reader : Reader (Option Path)
  joinable : Bool
  /-- How often it has been deleted. -/
  deleted : Nat

/-- A call of `watch` that the application is in. -/
structure Watch where
  owner : Nat
  call : Call

/-- One `inotify_add_watch` of a call of `watch`: by which object, in which instance. -/
structure Registration where
  owner : Nat
  source : Nat
  wd : Int
  path : Path

/-- A call of `onchange`, with the event it is made for and what was registered by then. -/
structure Callback where
  owner : Nat
  source : Nat
  event : Event
  change : Change (Option Path)
  logged : List Registration

structure Process where
  fs : Entry
  instances : List Instance
  /-- Descriptors that have been closed. -/
  closed : List Nat
  /-- `fd`; `none` is one that is no inotify instance. -/
  fd : Option Nat
  /-- `first` -/
  first : Option Nat
  /-- `wd_map`; a value that is `none` is the empty path. -/
  wdMap : Int → Option (Option Path)
  objects : List Object
  threads : List Thread
  watches : List Watch
  callbacks : List Callback
  /-- `std::terminate` was called. -/
  terminated : Bool
  logged : List Registration

/-- Before any monitor is constructed. -/
def Process.start (fs : Entry) : Process where
  fs := fs
  instances := []
  closed := []
  fd := none
  first := none
  wdMap := fun _ => none
  objects := []
  threads := []
  watches := []
  callbacks := []
  terminated := false
  logged := []

/-! ## The object -/

/-- `linux_monitor()`. `fd` is assigned before it is compared with -1. -/
def Process.construct (s : Process) (succeeds : Bool) : Process :=
  if succeeds then
    { s with
      instances := s.instances ++ [.new]
      fd := some s.instances.length
      objects := s.objects ++ [⟨s.instances.length, true⟩] }
  else { s with fd := none }

/-- `delete` of a `std::thread`: of one that can be joined it is `std::terminate`. -/
def Process.deleteThread (s : Process) (k : Nat) : Process :=
  match s.threads[k]? with
  | some t =>
    { s with
      threads := s.threads.set k { t with deleted := t.deleted + 1 }
      terminated := t.joinable }
  | none => s

/-- `~linux_monitor()` -/
def Process.destroy (s : Process) (m : Nat) (o : Object) : Process :=
  let s := { s with objects := s.objects.set m { o with alive := false } }
  match s.first with
  | some k => s.deleteThread k
  | none => s

/-- `read_async` -/
def Process.readAsync (s : Process) (m : Nat) : Process :=
  { s with
    threads := s.threads ++ [⟨m, none, 0, [], .idle, true, 0⟩]
    first := some s.threads.length }

/-! ## `watch` -/

/-- The body of `watch`'s loop, on `fd` and `wd_map` as they are now. -/
def Process.register (s : Process) (m : Nat) (p : Path) : Option Process :=
  s.fd.bind fun i => s.instances[i]?.bind fun inst =>
    ((inst.sys s.fs).inotifyAddWatch p).map fun (wd, k) =>
      { s with
        instances := s.instances.set i k.instance
        wdMap := Function.update s.wdMap wd (some (some p))
        logged := s.logged ++ [⟨m, i, wd, p⟩] }

/-- The next step of a call of `watch`; `none` when it returns. -/
def Process.callStep (s : Process) (m : Nat) : Call → Process × Option Call
  | .listing p => (s, some (listPaths s.fs p))
  | .adding [] => (s, none)
  | .adding (p :: ps) =>
    match s.register m p with
    | some s' => (s', some (.adding ps))
    | none => (s, some .threw)
  | .threw => (s, some .threw)

/-- The next step of a call the application is in. What it throws goes to the application. -/
def Process.watchStep (s : Process) (k : Nat) (w : Watch) : Process :=
  match s.callStep w.owner w.call with
  | (s', none) | (s', some .threw) => { s' with watches := s'.watches.eraseIdx k }
  | (s', some call) => { s' with watches := s'.watches.set k { w with call := call } }

/-! ## `_read_async` -/

/-- `wd_map[wd]`: a key that is not there is entered, with the empty path. -/
def lookUp (wdMap : Int → Option (Option Path)) (wd : Int) : Int → Option (Option Path) :=
  Function.update wdMap wd (some (wdMap wd).join)

/-- The next step of a reader thread. -/
def Process.readerStep (s : Process) (t : Thread) : Option (Process × Thread) :=
  match t.reader with
  | .idle =>
    match t.batch with
    | [] =>
      match t.reading, s.fd with
      | some _, _ => none
      | none, some i => some (s, { t with reading := some i })
      | none, none => some (s, { t with reader := .terminated })
    | e :: _ =>
      some ({ s with wdMap := lookUp s.wdMap e.wd },
        { t with reader := .taken ⟨changeType e.mask, e.pathFrom (s.wdMap e.wd).join⟩ })
  | .taken c =>
    some (s, { t with
      reader := match c.path with
        | some p => if s.fs.isDirectory p then .watching c (.listing p) else .notify c
        | none => .notify c })
  | .watching c call =>
    match s.callStep t.owner call with
    | (s', none) => some (s', { t with reader := .notify c })
    | (s', some .threw) => some (s', { t with reader := .terminated })
    | (s', some call') => some (s', { t with reader := .watching c call' })
  | .notify c =>
    match t.batch with
    | [] => none
    | e :: rest =>
      some ({ s with callbacks := s.callbacks ++ [⟨t.owner, t.source, e, c, s.logged⟩] },
        { t with reader := .idle, batch := rest })
  | .terminated => none

/-- The record a thread takes at its next step. -/
def Thread.takes (t : Thread) : Option Event :=
  match t.reader, t.batch with
  | .idle, e :: _ => some e
  | _, _ => none

/-- Put a thread back; an exception that leaves it is `std::terminate`. -/
def Process.resume (s : Process) (k : Nat) (t : Thread) : Process :=
  { s with
    threads := s.threads.set k t
    terminated := match t.reader with
      | .terminated => true
      | _ => s.terminated }

/-- A `read` returns the first `n` events of the instance it waits on. -/
def Process.fill (s : Process) (k : Nat) (t : Thread) (n : Nat) : Option Process :=
  t.reading.bind fun i => s.instances[i]?.bind fun inst =>
    if 0 < n ∧ n ≤ inst.queue.length then
      some { s with
        instances := s.instances.set i { inst with queue := inst.queue.drop n }
        threads := s.threads.set k
          { t with reading := none, source := i, batch := inst.queue.take n } }
    else none

/-- An operation on the file system, which every instance hears of. -/
def Process.change (s : Process) (op : Op) : Option Process :=
  ((Sys.start s.fs).apply op).bind fun k =>
    (s.instances.mapM fun inst : Instance =>
      ((inst.sys s.fs).apply op).map Sys.instance).map fun instances =>
      { s with fs := k.fs, instances := instances }

/-! ## The kernel -/

def IN_Q_OVERFLOW : UInt32 := 0x4000

/-- Queue an event. -/
def Instance.deliver (inst : Instance) (e : Event) : Instance :=
  { inst with queue := inst.queue ++ [e] }

/-- The end of a watch. -/
def Instance.ignore (inst : Instance) (ino : Ino) (behind : Spelling) : Option Instance :=
  (inst.wdOf ino).map fun wd =>
    ({ inst with wdOf := Function.update inst.wdOf ino none }).deliver ⟨wd, IN_IGNORED, none, behind⟩

/-- The queue is full with its first `n` events, and the others are lost. -/
def Instance.overflow (inst : Instance) (n : Nat) (behind : Spelling) : Instance :=
  ({ inst with queue := inst.queue.take n }).deliver ⟨-1, IN_Q_OVERFLOW, none, behind⟩

/-- Replace an instance by what the kernel makes of it. -/
def Process.kernel (s : Process) (i : Nat) (f : Instance → Option Instance) : Option Process :=
  s.instances[i]?.bind fun inst => (f inst).map fun inst' =>
    { s with instances := s.instances.set i inst' }

/-- `inotify_add_watch` on this instance has returned the descriptor. -/
def Returned (logged : List Registration) (i : Nat) (wd : Int) : Prop :=
  ∃ r ∈ logged, r.source = i ∧ r.wd = wd

instance (logged : List Registration) (i : Nat) (wd : Int) : Decidable (Returned logged i wd) :=
  inferInstanceAs (Decidable (∃ r ∈ logged, r.source = i ∧ r.wd = wd))

/-! ## Runs -/

/-- What can happen next. Objects, threads and calls are counted in the order they came. -/
inductive Move where
  | construct (succeeds : Bool)
  | watch (m : Nat) (p : Path)
  /-- A step of a call of `watch`. -/
  | call (k : Nat)
  | readAsync (m : Nat)
  | reader (k : Nat)
  /-- A `read` of a reader returns. -/
  | fill (k n : Nat)
  | change (op : Op)
  | destroy (m : Nat)
  /-- An event of a watch that instance `i` has or had. -/
  | event (i : Nat) (e : Event)
  /-- The watch of an inode ends. -/
  | ignored (i : Nat) (ino : Ino) (behind : Spelling)
  /-- The queue of an instance overflows. -/
  | overflow (i n : Nat) (behind : Spelling)

def Process.alive (s : Process) (m : Nat) : Option Object :=
  s.objects[m]?.bind fun o => if o.alive then some o else none

/-- One step. Calls are made on objects that have been constructed and not destroyed. -/
def Process.step (s : Process) (move : Move) : Option Process :=
  if s.terminated then none
  else
    match move with
    | .construct succeeds => some (s.construct succeeds)
    | .watch m p =>
      (s.alive m).map fun _ => { s with watches := s.watches ++ [⟨m, .listing p⟩] }
    | .call k => s.watches[k]?.map fun w => s.watchStep k w
    | .readAsync m => (s.alive m).map fun _ => s.readAsync m
    | .reader k =>
      s.threads[k]?.bind fun t => (s.readerStep t).map fun (s', t') => s'.resume k t'
    | .fill k n => s.threads[k]?.bind fun t => s.fill k t n
    | .change op => s.change op
    | .destroy m => (s.alive m).map fun o => s.destroy m o
    | .event i e =>
      if Returned s.logged i e.wd then s.kernel i fun inst => some (inst.deliver e) else none
    | .ignored i ino behind => s.kernel i fun inst => inst.ignore ino behind
    | .overflow i n behind => s.kernel i fun inst => some (inst.overflow n behind)

/-- The record that is taken in a step. -/
def Process.takes (s : Process) : Move → Option Event
  | .reader k => s.threads[k]?.bind Thread.takes
  | _ => none

theorem takes_of_cons {t : Thread} {e : Event} {rest : List Event} (hr : t.reader = .idle)
    (hb : t.batch = e :: rest) : t.takes = some e := by
  unfold Thread.takes
  rw [hr, hb]

theorem takes_of_nil {t : Thread} (hb : t.batch = []) : t.takes = none := by
  unfold Thread.takes
  rw [hb]
  cases t.reader <;> rfl

theorem takes_of_busy {t : Thread} (hr : t.reader ≠ .idle) : t.takes = none := by
  unfold Thread.takes
  split
  · next heq _ => exact absurd heq hr
  · rfl

theorem mem_of_takes {t : Thread} {e : Event} (h : t.takes = some e) : e ∈ t.batch := by
  unfold Thread.takes at h
  split at h
  · next e' rest _ hb =>
    cases h
    rw [hb]
    exact List.mem_cons_self ..
  · cases h

theorem takes_reader {s : Process} {k : Nat} {t : Thread} (hk : s.threads[k]? = some t) :
    s.takes (.reader k) = t.takes := by
  rw [Process.takes, hk, Option.bind_some]

theorem lookUp_of_some {wdMap : Int → Option (Option Path)} {wd : Int} {p : Option Path}
    (h : wdMap wd = some p) : lookUp wdMap wd = wdMap := by
  unfold lookUp
  rw [h, Option.join_some, ← h, Function.update_eq_self]

/-- A step of a call registers a path or changes nothing. -/
theorem callStep_cases (s : Process) (m : Nat) (call : Call) :
    (s.callStep m call).1 = s ∨ ∃ p, s.register m p = some (s.callStep m call).1 := by
  cases call with
  | listing p => exact .inl rfl
  | threw => exact .inl rfl
  | adding ps =>
    cases ps with
    | nil => exact .inl rfl
    | cons p ps =>
      rw [Process.callStep]
      cases hreg : s.register m p with
      | none => exact .inl rfl
      | some t => exact .inr ⟨p, hreg⟩

/-! ## What a reader can do -/

/-- The steps of a reader thread, a call of `watch` being one that may end or throw. -/
inductive Process.ReaderDoes (s : Process) (t : Thread) : Process → Thread → Prop where
  | wait {i : Nat} (hr : t.reader = .idle) (hb : t.batch = []) (hreading : t.reading = none)
      (hfd : s.fd = some i) : ReaderDoes s t s { t with reading := some i }
  | die (hr : t.reader = .idle) (hb : t.batch = []) (hreading : t.reading = none)
      (hfd : s.fd = none) : ReaderDoes s t s { t with reader := .terminated }
  | take {e : Event} {rest : List Event} (hr : t.reader = .idle) (hb : t.batch = e :: rest) :
      ReaderDoes s t { s with wdMap := lookUp s.wdMap e.wd }
        { t with reader := .taken ⟨changeType e.mask, e.pathFrom (s.wdMap e.wd).join⟩ }
  | enter {c : Change (Option Path)} {p : Path} (hr : t.reader = .taken c)
      (hp : c.path = some p) (hd : s.fs.isDirectory p = true) :
      ReaderDoes s t s { t with reader := .watching c (.listing p) }
  | pass {c : Change (Option Path)} (hr : t.reader = .taken c)
      (hd : ∀ p ∈ c.path, s.fs.isDirectory p = false) :
      ReaderDoes s t s { t with reader := .notify c }
  | call {c : Change (Option Path)} {call : Call} {reader : Reader (Option Path)}
      (hr : t.reader = .watching c call)
      (hnext : reader = .notify c ∨ reader = .terminated ∨ ∃ call', reader = .watching c call') :
      ReaderDoes s t (s.callStep t.owner call).1 { t with reader := reader }
  | notify {c : Change (Option Path)} {e : Event} {rest : List Event} (hr : t.reader = .notify c)
      (hb : t.batch = e :: rest) :
      ReaderDoes s t { s with callbacks := s.callbacks ++ [⟨t.owner, t.source, e, c, s.logged⟩] }
        { t with reader := .idle, batch := rest }

theorem Process.readerStep_cases {s s' : Process} {t t' : Thread}
    (h : s.readerStep t = some (s', t')) : s.ReaderDoes t s' t' := by
  obtain ⟨owner, reading, source, batch, reader, joinable, deleted⟩ := t
  cases reader with
  | idle =>
    cases batch with
    | nil =>
      unfold Process.readerStep at h
      dsimp only at h
      split at h
      · cases h
      · next hfd =>
        cases h
        exact .wait rfl rfl rfl hfd
      · next hfd =>
        cases h
        exact .die rfl rfl rfl hfd
    | cons e rest =>
      cases h
      exact .take rfl rfl
  | taken c =>
    obtain ⟨ct, path⟩ := c
    cases path with
    | none =>
      cases h
      exact .pass rfl nofun
    | some p =>
      cases hd : s.fs.isDirectory p with
      | true =>
        unfold Process.readerStep at h
        dsimp only at h
        rw [if_pos hd] at h
        cases h
        exact .enter rfl rfl hd
      | false =>
        unfold Process.readerStep at h
        dsimp only at h
        rw [if_neg (Bool.eq_false_iff.mp hd)] at h
        cases h
        refine .pass rfl fun q hq => ?_
        cases hq
        exact hd
  | watching c call =>
    have hcall : ∀ {s₁ : Process} {next : Option Call} (reader : Reader (Option Path)),
        s.callStep owner call = (s₁, next) →
        reader = .notify c ∨ reader = .terminated ∨ (∃ call', reader = .watching c call') →
        s.ReaderDoes ⟨owner, reading, source, batch, .watching c call, joinable, deleted⟩ s₁
          ⟨owner, reading, source, batch, reader, joinable, deleted⟩ := by
      intro s₁ next reader heq hnext
      have hsame : (s.callStep owner call).1 = s₁ := congrArg Prod.fst heq
      rw [← hsame]
      exact .call rfl hnext
    unfold Process.readerStep at h
    dsimp only at h
    split at h <;> next heq =>
      cases h
      first
        | exact hcall _ heq (.inl rfl)
        | exact hcall _ heq (.inr (.inl rfl))
        | exact hcall _ heq (.inr (.inr ⟨_, rfl⟩))
  | notify c =>
    cases batch with
    | nil => cases h
    | cons e rest =>
      cases h
      exact .notify rfl rfl
  | terminated => cases h

end CommonCpp.Monitor
