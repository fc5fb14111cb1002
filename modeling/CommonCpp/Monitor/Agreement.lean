import CommonCpp.Monitor.Lifecycle
import CommonCpp.Monitor.Refinement
import CommonCpp.Monitor.Survival
import CommonCpp.Monitor.WdMap

/-!
# One loop in three settings

The loop of `_read_async` runs in three systems: alone with a kernel that refuses nothing
(`Sys.readerStep`), in one of several threads (`Process.readerStep`), and one call into
the kernel at a time (`Loop.advance`). What the first does the other two do.

A thread and the reader take the same steps, up to waiting in `read` and filling the
buffer (`readerStep_acts`, `fill_acts`), so the only reader of a process is the reader of a
system as long as it is alone (`reader_of_alone`). The loop needs a few of its steps for
one of the reader's, and a disk on which everything may be read (`advances`,
`loop_of_readerRun`).
-/

namespace CommonCpp.Monitor

open CommonCpp.Fs CommonCpp.Lib

/-- The change with a path that is not empty. -/
def Change.full (c : Change Path) : Change (Option Path) := ⟨c.ct, some c.path⟩

/-! ## A thread of a process -/

/-- The same place in the loop. -/
def Reader.full : Reader Path → Reader (Option Path)
  | .idle => .idle
  | .taken c => .taken c.full
  | .watching c call => .watching c.full call
  | .notify c => .notify c.full
  | .terminated => .terminated

/-- The thread is to the process what the reader is to the system. Its instance is the
current one, `wd_map` has no empty path, and of the buffer the first record stays until
`onchange` has returned. -/
structure Process.Acts (s : Process) (i : Nat) (t : Thread) (u : Sys) : Prop where
  fs : s.fs = u.fs
  fd : s.fd = some i
  queue : ∃ inst, s.instances[i]? = some inst ∧ inst.wdOf = u.wdOf ∧ inst.nextWd = u.nextWd ∧
    ((u.reader = .idle ∧ t.batch ++ inst.queue = u.queue) ∨
      u.reader ≠ .idle ∧ ∃ e rest, t.batch = e :: rest ∧ rest ++ inst.queue = u.queue)
  wdMap : ∀ wd, s.wdMap wd = (u.wdMap wd).map some
  reader : t.reader = u.reader.full
  reading : ∀ j, t.reading = some j → j = i ∧ u.reader = .idle ∧ t.batch = []
  seen : s.callbacks.map Callback.change = u.seen.map Change.full

variable {s s' : Process} {i : Nat} {t t' : Thread} {u u' : Sys}

/-- Registering a path does the same to the current instance. -/
theorem register_acts {m : Nat} {p : Path} (h : s.Acts i t u) (hreg : u.register p = some u') :
    ∃ s', s.register m p = some s' ∧ s'.Acts i t u' := by
  obtain ⟨ino, wd, hino, hregistered⟩ := register_cases hreg
  obtain ⟨inst, hinst, hwdOf, hnext, hqueue⟩ := h.queue
  have hkernel : SameKernel u (inst.sys s.fs) := ⟨h.fs, hwdOf, hnext⟩
  obtain ⟨k, hadd, hk⟩ := hregistered.sameKernel hino hkernel
  have hsame := (addWatch_spec hadd).1
  refine ⟨{ s with
      instances := s.instances.set i k.instance
      wdMap := Function.update s.wdMap wd (some (some p))
      logged := s.logged ++ [⟨m, i, wd, p⟩] }, ?_, ?_⟩
  · unfold Process.register
    rw [h.fd, Option.bind_some, hinst, Option.bind_some, hadd]
    rfl
  · refine ⟨h.fs.trans hregistered.fs.symm, h.fd, ⟨k.instance, ?_, hk.wdOf, hk.nextWd, ?_⟩,
      fun w => ?_, ?_, ?_, ?_⟩
    · exact List.getElem?_set_self (List.getElem?_eq_some_iff.mp hinst).1
    · have hkept : k.instance.queue = inst.queue := hsame
      rw [hregistered.reader, hregistered.queue, hkept]
      exact hqueue
    · rw [hregistered.map]
      dsimp only
      rw [Function.update_apply, Function.update_apply, apply_ite (Option.map some)]
      exact if_congr Iff.rfl rfl (h.wdMap w)
    · rw [hregistered.reader]
      exact h.reader
    · rw [hregistered.reader]
      exact h.reading
    · rw [hregistered.seen]
      exact h.seen

/-- Only a path that leads nowhere is not registered. -/
theorem inodeOf_of_register {p : Path} (hreg : u.register p = none) :
    inodeOf u.fs p = none := by
  cases hino : inodeOf u.fs p with
  | none => rfl
  | some ino =>
    obtain ⟨wd, u', hsome, -⟩ := register_ino hino
    cases hreg.symm.trans hsome

/-- Where the path leads nowhere, both throw. -/
theorem register_none {m : Nat} {p : Path} (h : s.Acts i t u) (hreg : u.register p = none) :
    s.register m p = none := by
  obtain ⟨inst, hinst, -⟩ := h.queue
  unfold Process.register Sys.inotifyAddWatch
  rw [h.fd, Option.bind_some, hinst, Option.bind_some]
  have hfs : (inst.sys s.fs).fs = u.fs := h.fs
  rw [hfs, inodeOf_of_register hreg]
  rfl

/-- The reader goes on, and with it the thread; neither comes to `read`. -/
theorem Process.Acts.move (h : s.Acts i t u) {r : Reader Path} (hbusy : u.reader ≠ .idle)
    (hr : r ≠ .idle) : s.Acts i { t with reader := r.full } { u with reader := r } := by
  obtain ⟨inst, hinst, hwdOf, hnext, hqueue⟩ := h.queue
  refine ⟨h.fs, h.fd, ⟨inst, hinst, hwdOf, hnext, Or.inr ⟨hr, ?_⟩⟩, h.wdMap, rfl, fun j hj => ?_,
    h.seen⟩
  · rcases hqueue with ⟨hidle, -⟩ | ⟨-, hrest⟩
    · exact absurd hidle hbusy
    · exact hrest
  · exact absurd (h.reading j hj).2.1 hbusy

/-- The first event of the buffer is taken. -/
theorem readerStep_take {e : Event} {rest : List Event} (h : s.Acts i t u)
    (hr : u.reader = .idle) (hq : u.queue = e :: rest) (hfull : t.batch ≠ [])
    (hfound : ∀ e ∈ t.takes, ∃ p, s.wdMap e.wd = some p) :
    ∃ s' t', s.readerStep t = some (s', t') ∧ s'.Acts i t' (u.take e rest) := by
  obtain ⟨inst, hinst, hwdOf, hnext, hqueue⟩ := h.queue
  have hreader := h.reader
  rw [hr] at hreader
  obtain ⟨e', batch, hbatch⟩ := List.exists_cons_of_ne_nil hfull
  obtain ⟨-, heq⟩ := hqueue.resolve_right fun hbusy => hbusy.1 hr
  rw [hbatch, hq, List.cons_append, List.cons.injEq] at heq
  obtain ⟨rfl, hrest⟩ := heq
  obtain ⟨p, hp⟩ := hfound e' (takes_of_cons hreader hbatch)
  have hp' := hp
  rw [h.wdMap] at hp'
  -- the key is found by both, so neither map changes
  obtain ⟨q, hmap, rfl⟩ := Option.map_eq_some_iff.mp hp'
  have hlookup : u.lookup e'.wd = q := by
    rw [Sys.lookup, hmap]
    rfl
  refine ⟨{ s with wdMap := lookUp s.wdMap e'.wd },
    { t with reader := .taken ⟨changeType e'.mask, e'.pathFrom (s.wdMap e'.wd).join⟩ }, ?_, ?_⟩
  · unfold Process.readerStep
    rw [hreader, hbatch]
    rfl
  · rw [lookUp_of_some hp, hp]
    refine ⟨h.fs, h.fd, ⟨inst, hinst, hwdOf, hnext,
        Or.inr ⟨by simp [Sys.take], e', batch, hbatch, hrest⟩⟩,
      fun w => ?_, ?_, fun j hj => ?_, h.seen⟩
    · rw [Sys.take]
      dsimp only
      rw [hlookup, ← hmap, Function.update_eq_self]
      exact h.wdMap w
    · rw [Sys.take, Sys.changeOf, hlookup]
      rfl
    · cases hbatch.symm.trans (h.reading j hj).2.2

/-- Where the call throws for the reader it throws for the thread. -/
theorem callStep_threw {m : Nat} {call : Call} (h : s.Acts i t u)
    (hc : u.callStep call = (u, some .threw)) : s.callStep m call = (s, some .threw) := by
  cases call with
  | threw => rfl
  | listing p =>
    rw [Sys.callStep, Prod.mk.injEq] at hc
    rw [Process.callStep, h.fs, hc.2]
  | adding ps =>
    cases ps with
    | nil => cases hc
    | cons p ps =>
      rw [Sys.callStep] at hc
      cases hreg : u.register p with
      | none => rw [Process.callStep, register_none h hreg]
      | some u₁ =>
        rw [hreg] at hc
        cases hc

/-- **One step.** What the reader does next the thread does too, once there is something in
its buffer. -/
theorem readerStep_acts (h : s.Acts i t u) (hfull : u.reader = .idle → t.batch ≠ [])
    (hfound : ∀ e ∈ t.takes, ∃ p, s.wdMap e.wd = some p) (hstep : u.readerStep = some u') :
    ∃ s' t', s.readerStep t = some (s', t') ∧ s'.Acts i t' u' := by
  obtain ⟨inst, hinst, hwdOf, hnext, hqueue⟩ := h.queue
  have hreader := h.reader
  cases readerStep_cases hstep with
  | @take e rest hr hq => exact readerStep_take h hr hq (hfull hr) hfound
  | @enter c hr hd =>
    rw [hr] at hreader
    refine ⟨s, { t with reader := .watching c.full (.listing c.path) }, ?_,
      h.move (r := .watching c (.listing c.path)) (by simp [hr]) (by simp)⟩
    unfold Process.readerStep
    rw [hreader]
    dsimp only [Reader.full, Change.full]
    rw [h.fs, if_pos hd]
  | @pass c hr hd =>
    rw [hr] at hreader
    refine ⟨s, { t with reader := .notify c.full }, ?_,
      h.move (r := .notify c) (by simp [hr]) (by simp)⟩
    unfold Process.readerStep
    rw [hreader]
    dsimp only [Reader.full, Change.full]
    rw [h.fs, if_neg (Bool.eq_false_iff.mp hd)]
  | @list c p hr hl =>
    rw [hr] at hreader
    refine ⟨s, { t with reader := .watching c.full (listPaths u.fs p) }, ?_,
      h.move (r := .watching c (listPaths u.fs p)) (by simp [hr]) (by simp)⟩
    unfold Process.readerStep
    rw [hreader]
    dsimp only [Reader.full]
    rw [Process.callStep, h.fs]
    cases hlist : listPaths u.fs p with
    | threw => exact absurd hlist hl
    | listing | adding => rfl
  | @add c p ps u₁ hr ha =>
    rw [hr] at hreader
    obtain ⟨s₁, hreg, hacts⟩ := register_acts (m := t.owner) h ha
    have hkept : u₁.reader = u.reader := by
      obtain ⟨ino, wd, -, hregistered⟩ := register_cases ha
      exact hregistered.reader
    refine ⟨s₁, { t with reader := .watching c.full (.adding ps) }, ?_,
      hacts.move (r := .watching c (.adding ps)) (by simp [hkept, hr]) (by simp)⟩
    unfold Process.readerStep
    rw [hreader]
    dsimp only [Reader.full]
    rw [Process.callStep, hreg]
  | @leave c hr =>
    rw [hr] at hreader
    refine ⟨s, { t with reader := .notify c.full }, ?_,
      h.move (r := .notify c) (by simp [hr]) (by simp)⟩
    unfold Process.readerStep
    rw [hreader]
    rfl
  | @die c call hr hc =>
    rw [hr] at hreader
    refine ⟨s, { t with reader := .terminated }, ?_,
      h.move (r := .terminated) (by simp [hr]) (by simp)⟩
    unfold Process.readerStep
    rw [hreader]
    dsimp only [Reader.full]
    rw [callStep_threw h hc]
  | @notify c hr =>
    rw [hr] at hreader
    obtain ⟨-, e, rest, hbatch, heq⟩ := hqueue.resolve_left fun hidle => by
      cases hr.symm.trans hidle.1
    refine ⟨{ s with callbacks := s.callbacks ++ [⟨t.owner, t.source, e, c.full, s.logged⟩] },
      { t with reader := .idle, batch := rest }, ?_, ?_⟩
    · unfold Process.readerStep
      rw [hreader, hbatch]
      rfl
    · refine ⟨h.fs, h.fd, ⟨inst, hinst, hwdOf, hnext, Or.inl ⟨rfl, heq⟩⟩, h.wdMap, rfl,
        fun j hj => ?_, ?_⟩
      · cases hr.symm.trans (h.reading j hj).2.1
      · dsimp only
        rw [List.map_append, List.map_append, h.seen]
        rfl

/-- The reader can go on unless it waits for events. -/
theorem exists_readerStep (hidle : u.reader = .idle → u.queue ≠ [])
    (hlive : u.reader ≠ .terminated) : ∃ u', u.readerStep = some u' := by
  unfold Sys.readerStep
  cases hr : u.reader with
  | idle =>
    obtain ⟨e, rest, hq⟩ := List.exists_cons_of_ne_nil (hidle hr)
    rw [hq]
    exact ⟨_, rfl⟩
  | taken c => exact ⟨_, rfl⟩
  | watching c call =>
    dsimp only
    split <;> exact ⟨_, rfl⟩
  | notify c => exact ⟨_, rfl⟩
  | terminated => exact absurd hr hlive

/-- What the thread does next the reader does too, or a `read` begins. -/
theorem thread_acts (h : s.Acts i t u) (hfound : ∀ e ∈ t.takes, ∃ p, s.wdMap e.wd = some p)
    (hstep : s.readerStep t = some (s', t')) :
    ∃ u', (u' = u ∨ u.readerStep = some u') ∧ s'.Acts i t' u' := by
  -- with nothing in hand and nothing in the buffer a `read` begins
  by_cases hwait : u.reader = .idle ∧ t.batch = []
  · obtain ⟨hidle, hbatch⟩ := hwait
    have hreader : t.reader = .idle := by
      rw [h.reader, hidle]
      rfl
    cases Process.readerStep_cases hstep with
    | @wait j _ _ _ hfd =>
      refine ⟨u, Or.inl rfl, h.fs, h.fd, h.queue, h.wdMap, h.reader, fun j hj => ?_, h.seen⟩
      cases hj
      exact ⟨Option.some.inj (hfd.symm.trans h.fd), hidle, hbatch⟩
    | die _ _ _ hfd => cases hfd.symm.trans h.fd
    | take _ hb => cases hbatch.symm.trans hb
    | enter hr | pass hr | call hr | notify hr => cases hreader.symm.trans hr
  · have hfull : u.reader = .idle → t.batch ≠ [] := fun hidle hb => hwait ⟨hidle, hb⟩
    have hqueue : u.reader = .idle → u.queue ≠ [] := by
      intro hidle hnil
      obtain ⟨inst, -, -, -, hqueue⟩ := h.queue
      obtain ⟨-, heq⟩ := hqueue.resolve_right fun hbusy => hbusy.1 hidle
      rw [hnil] at heq
      exact hfull hidle (List.append_eq_nil_iff.mp heq).1
    have hlive : u.reader ≠ .terminated := by
      intro hdead
      have hreader := h.reader
      rw [hdead] at hreader
      unfold Process.readerStep at hstep
      rw [hreader] at hstep
      cases hstep
    obtain ⟨u', hu⟩ := exists_readerStep hqueue hlive
    obtain ⟨s₁, t₁, hsame, hacts⟩ := readerStep_acts h hfull hfound hu
    cases hsame.symm.trans hstep
    exact ⟨u', Or.inr hu, hacts⟩

/-- A `read` only moves events from the queue to the buffer. -/
theorem fill_acts {k n : Nat} (h : s.Acts i t u) (hk : s.threads[k]? = some t)
    (hfill : s.fill k t n = some s') : ∃ t', s'.threads[k]? = some t' ∧ s'.Acts i t' u := by
  obtain ⟨j, hreading, hfill⟩ := Option.bind_eq_some_iff.mp hfill
  obtain ⟨inst, hinst, hfill⟩ := Option.bind_eq_some_iff.mp hfill
  obtain ⟨-, hfill⟩ := Option.ite_none_right_eq_some.mp hfill
  cases hfill
  obtain ⟨rfl, hidle, hbatch⟩ := h.reading j hreading
  obtain ⟨inst', hinst', hwdOf, hnext, hqueue⟩ := h.queue
  cases hinst.symm.trans hinst'
  obtain ⟨-, heq⟩ := hqueue.resolve_right fun hbusy => hbusy.1 hidle
  rw [hbatch, List.nil_append] at heq
  refine ⟨_, List.getElem?_set_self (List.getElem?_eq_some_iff.mp hk).1, h.fs, h.fd,
    ⟨{ inst with queue := inst.queue.drop n },
      List.getElem?_set_self (List.getElem?_eq_some_iff.mp hinst).1, hwdOf, hnext,
      Or.inl ⟨hidle, ?_⟩⟩, h.wdMap, h.reader, nofun, h.seen⟩
  rw [← heq]
  exact List.take_append_drop n inst.queue

/-- The system a process comes to when a reader is started in it. -/
def Process.view (s : Process) (inst : Instance) : Sys where
  fs := s.fs
  wdOf := inst.wdOf
  nextWd := inst.nextWd
  queue := inst.queue
  wdMap := fun wd => (s.wdMap wd).join
  main := none
  reader := .idle
  seen := []

/-- Where `wd_map` holds what was registered, the new thread is the system's reader. -/
theorem acts_readAsync {m : Nat} {inst : Instance} (hfd : s.fd = some i)
    (hinst : s.instances[i]? = some inst) (hmap : s.Registered) (hnone : s.callbacks = []) :
    (s.readAsync m).Acts i ⟨m, none, 0, [], .idle, true, 0⟩ (s.view inst) := by
  refine ⟨rfl, hfd, ⟨inst, hinst, rfl, rfl, Or.inl ⟨rfl, rfl⟩⟩, fun wd => ?_, rfl, nofun, ?_⟩
  · show s.wdMap wd = (s.wdMap wd).join.map some
    cases hwd : s.wdMap wd with
    | none => rfl
    | some q =>
      obtain ⟨r, -, -, rfl⟩ := hmap wd q hwd
      rfl
  · exact congrArg (List.map Callback.change) hnone

/-- **The only reader.** In a process whose monitor is alone, the steps of the reader thread
and its reads come to a run of the reader of `Sys`, with the same calls of `onchange`. -/
theorem reader_of_alone {k : Nat} {moves : List Move} (hs : Alone s) (hk : s.threads[k]? = some t)
    (h : s.Acts i t u) (hmoves : ∀ move ∈ moves, move = .reader k ∨ ∃ n, move = .fill k n)
    (hcond : Along Process.step Exclusive s moves) (hrun : run Process.step s moves = some s') :
    ∃ t' u', s'.threads[k]? = some t' ∧ s'.Acts i t' u' ∧ ReaderRun u u' := by
  induction moves generalizing s t u with
  | nil =>
    cases hrun
    exact ⟨t, u, hk, h, .refl⟩
  | cons move moves ih =>
    obtain ⟨s₁, hstep, hlast⟩ := run_cons_eq_some.mp hrun
    have hs₁ := alone_step hs hcond.1 hstep
    have hrest := fun x hx => hmoves x (List.mem_cons_of_mem _ hx)
    have hlater := hcond.2 s₁ hstep
    have hexclusive := hcond.1
    unfold Process.step at hstep
    obtain ⟨-, hstep⟩ := Option.ite_none_left_eq_some.mp hstep
    rcases hmoves move (List.mem_cons_self ..) with rfl | ⟨n, rfl⟩
    · obtain ⟨t₀, hk₀, hstep⟩ := Option.bind_eq_some_iff.mp hstep
      cases hk.symm.trans hk₀
      obtain ⟨⟨s₂, t₂⟩, hreader, rfl⟩ := Option.map_eq_some_iff.mp hstep
      have hfound : ∀ e ∈ t.takes, ∃ p, s.wdMap e.wd = some p := by
        intro e he
        have hstays : e.Stays := hexclusive e (by rw [takes_reader hk]; exact he)
        obtain ⟨r, -, -, -, hmap⟩ :=
          hs.lookup (List.mem_of_getElem? hk) (mem_of_takes he) hstays.1
        exact ⟨_, hmap⟩
      -- the reader has taken the step too, or is where it was
      obtain ⟨u₂, hu, hacts⟩ := thread_acts h hfound hreader
      have hthreads : s₂.threads = s.threads := (readerStep_ownership hreader).2.1
      have hput : (s₂.resume k t₂).threads[k]? = some t₂ := by
        unfold Process.resume
        rw [hthreads]
        exact List.getElem?_set_self (List.getElem?_eq_some_iff.mp hk).1
      have hacts : (s₂.resume k t₂).Acts i t₂ u₂ :=
        ⟨hacts.fs, hacts.fd, hacts.queue, hacts.wdMap, hacts.reader, hacts.reading, hacts.seen⟩
      obtain ⟨t', u', hk', hacts', hgo⟩ := ih hs₁ hput hacts hrest hlater hlast
      refine ⟨t', u', hk', hacts', ?_⟩
      rcases hu with rfl | hu
      · exact hgo
      · exact .step hu hgo
    · obtain ⟨t₀, hk₀, hstep⟩ := Option.bind_eq_some_iff.mp hstep
      cases hk.symm.trans hk₀
      obtain ⟨t₁, hk₁, hacts⟩ := fill_acts h hk hstep
      exact ih hs₁ hk₁ hacts hrest hlater hlast

/-! ## The loop, one call into the kernel at a time -/

/-- Where the loop stands when the reader does, with the event `e` in hand. -/
def Reader.position (e : Event) : Reader Path → Position
  | .idle => .next
  | .taken c => .taken (e, c.full)
  | .watching c (.listing p) => .listing (e, c.full) [p] [.directory p]
  | .watching c (.adding ps) => .adding (e, c.full) ps
  | .notify c => .notify (e, c.full)
  | .watching _ .threw | .terminated => .terminated

/-- The loop is on its disk what the reader is in the system. -/
structure Loop.Acts (l : Loop) (u : Sys) : Prop where
  tree : l.kernel.disk.tree = u.fs
  wdOf : l.kernel.wdOf = u.wdOf
  nextWd : l.kernel.nextWd = u.nextWd
  queue : l.batch ++ l.kernel.queue = u.queue
  wdMap : l.wdMap = u.wdMap
  position : ∃ e, l.position = u.reader.position e
  seen : l.seen.map Prod.snd = u.seen.map Change.full

variable {l l' : Loop}

/-- The loop goes on, after a `read` where it waits for one, on the same disk. -/
def Loop.GoesTo (l l' : Loop) : Prop :=
  l'.kernel.disk = l.kernel.disk ∧ ∃ l₁, (l₁ = l ∨ ∃ n, l.step (.read n) = some l₁) ∧ l₁.Runs l'

/-- One step of the loop's own. -/
theorem goesTo_of_advance (l' : Loop) (hdisk : l'.kernel.disk = l.kernel.disk)
    (h : l.advance = some l') : l.GoesTo l' :=
  ⟨hdisk, l, Or.inl rfl, .step h .refl⟩

/-- Where everything may be read, what a path leads to can be watched. -/
theorem watchIno_eq {d : Disk} (h : d.Open) (p : Path) : d.watchIno p = inodeOf d.tree p := by
  unfold Disk.watchIno inodeOf
  cases hsight : d.sight p with
  | found q =>
    rw [(sight_of_open h p q).mp hsight, Option.bind_some]
    dsimp only
    cases d.tree.stat q with
    | none => rfl
    | some node => exact Option.filter_eq_some_iff.mpr ⟨rfl, h.readable node.ino⟩
  | missing | refused =>
    rw [resolve_eq_none_of_open h (by simp [hsight])]
    rfl

/-- Registering a path does the same, and is over in one step. -/
theorem loop_register {p : Path} (h : l.Acts u) (hopen : l.kernel.disk.Open)
    (hreg : u.register p = some u') :
    ∃ kernel wdMap, l.register p = some { l with kernel := kernel, wdMap := wdMap } ∧
      kernel.disk = l.kernel.disk ∧ kernel.queue = l.kernel.queue ∧ kernel.wdOf = u'.wdOf ∧
      kernel.nextWd = u'.nextWd ∧ wdMap = u'.wdMap := by
  obtain ⟨ino, wd, hino, hregistered⟩ := register_cases hreg
  unfold Loop.register Kernel.addWatch
  rw [watchIno_eq hopen, h.tree, hino, Option.map_some, h.wdOf, hregistered.map]
  rcases hregistered.old_or_new with ⟨hold, hwdOf, hnext⟩ | ⟨hnone, hwd, hwdOf, hnext⟩
  · rw [hold]
    exact ⟨_, _, rfl, rfl, rfl, h.wdOf.trans hwdOf.symm, h.nextWd.trans hnext.symm,
      by rw [h.wdMap]⟩
  · rw [hnone, h.nextWd, ← hwd]
    refine ⟨_, _, rfl, rfl, rfl, hwdOf.symm, ?_, by rw [h.wdMap]⟩
    dsimp only
    rw [hnext, hwd]

theorem loop_register_none {p : Path} (h : l.Acts u) (hopen : l.kernel.disk.Open)
    (hreg : u.register p = none) : l.register p = none := by
  unfold Loop.register
  rw [watchIno_eq hopen, h.tree, inodeOf_of_register hreg]
  rfl

/-- The reader goes on, and the loop behind it. -/
theorem Loop.Acts.move (h : l.Acts u) {r : Reader Path} {e : Event} {position : Position}
    (hposition : position = r.position e) :
    Loop.Acts { l with position := position } { u with reader := r } :=
  ⟨h.tree, h.wdOf, h.nextWd, h.queue, h.wdMap, ⟨e, hposition⟩, h.seen⟩

/-- With the event in its buffer the loop takes it. -/
theorem advance_take {e : Event} {batch rest : List Event} {p : Path} (h : l.Acts u)
    (hnext : l.position = .next) (hbatch : l.batch = e :: batch) (hq : u.queue = e :: rest)
    (hp : u.wdMap e.wd = some p) :
    ∃ l', l'.kernel.disk = l.kernel.disk ∧ l.advance = some l' ∧ l'.Acts (u.take e rest) := by
  have hlookup : u.lookup e.wd = p := by
    rw [Sys.lookup, hp]
    rfl
  have hqueue := h.queue
  rw [hbatch, hq, List.cons_append, List.cons.injEq] at hqueue
  have hchange : l.changeOf e = (u.changeOf e).full := by
    rw [Loop.changeOf, Sys.changeOf, h.wdMap, hp, hlookup]
    rfl
  refine ⟨{ l with
      batch := batch
      position := .taken (e, (u.changeOf e).full)
      taken := l.taken ++ [(e, (u.changeOf e).full)] }, rfl, ?_,
    h.tree, h.wdOf, h.nextWd, hqueue.2, ?_, ⟨e, rfl⟩, h.seen⟩
  · rw [Loop.advance, hnext]
    dsimp only
    rw [hbatch]
    dsimp only
    rw [hchange]
  · rw [Sys.take, hlookup]
    dsimp only
    rw [← hp, Function.update_eq_self]
    exact h.wdMap

/-- The next event is taken, after a `read` of it alone where the buffer is empty. -/
theorem loop_takes {e : Event} {rest : List Event} {p : Path} (h : l.Acts u)
    (hnext : l.position = .next) (hq : u.queue = e :: rest) (hp : u.wdMap e.wd = some p) :
    ∃ l', l.GoesTo l' ∧ l'.Acts (u.take e rest) := by
  have hqueue := h.queue
  cases hbatch : l.batch with
  | cons x batch =>
    rw [hbatch, hq, List.cons_append, List.cons.injEq] at hqueue
    obtain ⟨rfl, -⟩ := hqueue
    obtain ⟨l', hdisk, hadvance, hacts⟩ := advance_take h hnext hbatch hq hp
    exact ⟨l', goesTo_of_advance l' hdisk hadvance, hacts⟩
  | nil =>
    -- `read` may give one event alone
    rw [hbatch, List.nil_append, hq] at hqueue
    have hread : l.step (.read 1) = some { l with
        kernel := { l.kernel with queue := rest }, batch := [e] } := by
      have hat : l.AtRead := by
        unfold Loop.AtRead
        rw [hnext]
        exact hbatch
      unfold Loop.step
      dsimp only
      rw [hqueue, if_pos ⟨hat, Nat.one_pos, Nat.succ_le_succ (Nat.zero_le _)⟩]
      rfl
    have hacts : Loop.Acts { l with
        kernel := { l.kernel with queue := rest }, batch := [e] } u :=
      ⟨h.tree, h.wdOf, h.nextWd, hq.symm, h.wdMap, h.position, h.seen⟩
    obtain ⟨l', hdisk, hadvance, hacts'⟩ := advance_take hacts hnext rfl hq hp
    exact ⟨l', ⟨hdisk, _, Or.inr ⟨1, hread⟩, .step hadvance .refl⟩, hacts'⟩

/-- The listing comes to the paths the reader has at one go. -/
theorem loop_lists {e : Event} {c : Change Path} {p : Path} (h : l.Acts u)
    (hopen : l.kernel.disk.Open) (hwf : u.fs.WF)
    (hposition : l.position = .listing (e, c.full) [p] [.directory p])
    (hl : listPaths u.fs p ≠ .threw) :
    ∃ l', l.GoesTo l' ∧ l'.Acts { u with reader := .watching c (listPaths u.fs p) } := by
  cases hdir : u.fs.openDir p with
  | none =>
    unfold listPaths at hl
    rw [hdir] at hl
    exact absurd rfl hl
  | some x =>
    -- entry by entry for the loop, at one go for the reader
    obtain ⟨ino, sub⟩ := x
    have hrun := listing_runs l (e, c.full) (listRun_of_open hopen (h.tree ▸ hwf) (h.tree ▸ hdir))
    have hend : Loop.advance { l with
        position := .listing (e, c.full) ([p] ++ listing Path.append true 2 p sub) [] }
      = some { l with
        position := .adding (e, c.full) ([p] ++ listing Path.append true 2 p sub) } := rfl
    have hhere : { l with position := .listing (e, c.full) [p] [.directory p] } = l := by
      rw [← hposition]
    dsimp only at hrun
    rw [hhere] at hrun
    rw [listPaths_of_openDir hdir]
    exact ⟨{ l with
        position := .adding (e, c.full) ([p] ++ listing Path.append true 2 p sub) },
      ⟨rfl, l, Or.inl rfl, hrun.trans (Loop.Runs.step hend .refl)⟩,
      h.move (r := .watching c (.adding (p :: listing Path.append true 2 p sub))) (e := e) rfl⟩

/-- A path is registered in one step. -/
theorem loop_adds {e : Event} {c : Change Path} {p : Path} {ps : List Path} {u₁ : Sys}
    (h : l.Acts u) (hopen : l.kernel.disk.Open)
    (hposition : l.position = .adding (e, c.full) (p :: ps)) (hreg : u.register p = some u₁) :
    ∃ l', l.GoesTo l' ∧ l'.Acts { u₁ with reader := .watching c (.adding ps) } := by
  obtain ⟨kernel, wdMap, hloop, hdisk, hqueue, hwdOf, hnext, hmap⟩ := loop_register h hopen hreg
  obtain ⟨ino, wd, -, hregistered⟩ := register_cases hreg
  refine ⟨{ l with kernel := kernel, wdMap := wdMap, position := .adding (e, c.full) ps },
    goesTo_of_advance _ hdisk ?_, ?_, hwdOf, hnext, ?_, hmap, ⟨e, rfl⟩, ?_⟩
  · rw [Loop.advance, hposition]
    dsimp only
    rw [hloop]
  · rw [hregistered.fs]
    dsimp only
    rw [hdisk]
    exact h.tree
  · rw [hregistered.queue]
    dsimp only
    rw [hqueue]
    exact h.queue
  · rw [hregistered.seen]
    exact h.seen

/-- Where the reader's call throws, the loop's does. -/
theorem loop_dies {e : Event} {c : Change Path} {call : Call} (h : l.Acts u)
    (hopen : l.kernel.disk.Open)
    (hposition : l.position = (Reader.watching c call).position e)
    (hc : u.callStep call = (u, some .threw)) :
    ∃ l', l.GoesTo l' ∧ l'.Acts { u with reader := .terminated } := by
  have hdead : Loop.Acts { l with position := .terminated } { u with reader := .terminated } :=
    h.move (r := .terminated) (e := e) rfl
  cases call with
  | threw =>
    have hhere : { l with position := .terminated } = l := by
      rw [← show l.position = .terminated from hposition]
    rw [hhere] at hdead
    exact ⟨l, ⟨rfl, l, Or.inl rfl, .refl⟩, hdead⟩
  | listing p =>
    refine ⟨_, goesTo_of_advance { l with position := .terminated } rfl ?_, hdead⟩
    have hnone : l.kernel.disk.openDir p = none := by
      rw [openDir_of_open hopen, h.tree]
      rw [Sys.callStep, Prod.mk.injEq, Option.some.injEq] at hc
      cases hdir : u.fs.openDir p with
      | none => rfl
      | some x => cases (listPaths_of_openDir hdir).symm.trans hc.2
    rw [Loop.advance, show l.position = .listing (e, c.full) [p] [.directory p] from hposition]
    dsimp only
    rw [Disk.listStep, hnone]
    rfl
  | adding ps =>
    cases ps with
    | nil => cases hc
    | cons p ps =>
      refine ⟨_, goesTo_of_advance { l with position := .terminated } rfl ?_, hdead⟩
      rw [Sys.callStep] at hc
      cases hreg : u.register p with
      | some u₁ =>
        rw [hreg] at hc
        cases hc
      | none =>
        rw [Loop.advance, show l.position = .adding (e, c.full) (p :: ps) from hposition]
        dsimp only
        rw [loop_register_none h hopen hreg]

/-- **One step.** What the reader does next the loop does in some steps of its own, where
everything may be read and `stat` does not refuse the path in hand. -/
theorem advances (h : l.Acts u) (hopen : l.kernel.disk.Open) (hwf : u.fs.WF)
    (hsight : ∀ c, u.reader = .taken c → l.kernel.disk.sight c.path ≠ .refused)
    (hfound : ∀ e ∈ u.queue, ∃ p, u.wdMap e.wd = some p) (hstep : u.readerStep = some u') :
    ∃ l', l.GoesTo l' ∧ l'.Acts u' := by
  obtain ⟨e, hposition⟩ := h.position
  cases readerStep_cases hstep with
  | @take e' rest hr hq =>
    rw [hr] at hposition
    obtain ⟨p, hp⟩ := hfound e' (by rw [hq]; exact List.mem_cons_self ..)
    exact loop_takes h hposition hq hp
  | @enter c hr hd =>
    rw [hr] at hposition
    have hdir := isDirectory_of_open hopen (hsight c hr)
    rw [h.tree, hd] at hdir
    refine ⟨_, goesTo_of_advance { l with
        position := .listing (e, c.full) [c.path] [.directory c.path] } rfl ?_,
      h.move (r := .watching c (.listing c.path)) (e := e) rfl⟩
    rw [advance_taken (x := (e, c.full)) (p := c.path) hposition rfl, hdir]
  | @pass c hr hd =>
    rw [hr] at hposition
    have hdir := isDirectory_of_open hopen (hsight c hr)
    rw [h.tree, hd] at hdir
    refine ⟨_, goesTo_of_advance { l with position := .notify (e, c.full) } rfl ?_,
      h.move (r := .notify c) (e := e) rfl⟩
    rw [advance_taken (x := (e, c.full)) (p := c.path) hposition rfl, hdir]
  | @list c p hr hl =>
    rw [hr] at hposition
    exact loop_lists h hopen hwf hposition hl
  | @add c p ps u₁ hr ha =>
    rw [hr] at hposition
    exact loop_adds h hopen hposition ha
  | @leave c hr =>
    rw [hr] at hposition
    refine ⟨_, goesTo_of_advance { l with position := .notify (e, c.full) } rfl ?_,
      h.move (r := .notify c) (e := e) rfl⟩
    rw [Loop.advance, show l.position = .adding (e, c.full) [] from hposition]
  | @die c call hr hc =>
    rw [hr] at hposition
    exact loop_dies h hopen hposition hc
  | @notify c hr =>
    rw [hr] at hposition
    refine ⟨_, goesTo_of_advance { l with
        position := .next, seen := l.seen ++ [(e, c.full)] } rfl ?_,
      h.tree, h.wdOf, h.nextWd, h.queue, h.wdMap, ⟨e, rfl⟩, ?_⟩
    · rw [Loop.advance, show l.position = .notify (e, c.full) from hposition]
    · dsimp only
      rw [List.map_append, List.map_append, h.seen]
      rfl

/-- The reader leaves the tree as it is, and `wd_map` loses no key. -/
theorem readerStep_keeps (hstep : u.readerStep = some u') :
    u'.fs = u.fs ∧ (∀ e ∈ u'.queue, e ∈ u.queue) ∧
      ∀ wd, (∃ p, u.wdMap wd = some p) → ∃ p, u'.wdMap wd = some p := by
  have hupdate : ∀ (v : Int) (q : Path) (wd : Int), (∃ p, u.wdMap wd = some p) →
      ∃ p, Function.update u.wdMap v (some q) wd = some p := by
    intro v q wd h
    rw [Function.update_apply]
    split
    · exact ⟨q, rfl⟩
    · exact h
  cases readerStep_cases hstep with
  | @take e rest _ hq =>
    exact ⟨rfl, fun x hx => by rw [hq]; exact List.mem_cons_of_mem _ hx,
      hupdate e.wd (u.lookup e.wd)⟩
  | @add c p ps u₁ _ ha =>
    obtain ⟨ino, wd, -, hregistered⟩ := register_cases ha
    refine ⟨hregistered.fs, fun x hx => hregistered.queue ▸ hx, ?_⟩
    dsimp only
    rw [hregistered.map]
    exact hupdate wd p
  | enter | pass | list | leave | die | notify => exact ⟨rfl, fun _ => id, fun _ => id⟩

/-- **The loop.** On a disk where everything may be read and no path is refused, the loop
makes every run the reader makes, from `read` to `onchange`. -/
theorem loop_of_readerRun (h : l.Acts u) (hopen : l.kernel.disk.Open) (hwf : u.fs.WF)
    (hsight : ∀ p, l.kernel.disk.sight p ≠ .refused)
    (hfound : ∀ e ∈ u.queue, ∃ p, u.wdMap e.wd = some p) (hrun : ReaderRun u u') :
    ∃ l', Relation.ReflTransGen Loop.GoesTo l l' ∧ l'.Acts u' := by
  induction hrun using Relation.ReflTransGen.head_induction_on generalizing l with
  | refl => exact ⟨l, .refl, h⟩
  | head hstep _ ih =>
    obtain ⟨hfs, hqueue, hmap⟩ := readerStep_keeps hstep
    obtain ⟨l₁, hgoes, hacts⟩ := advances h hopen hwf (fun c _ => hsight c.path) hfound hstep
    obtain ⟨l', hrest, hacts'⟩ := ih hacts (hgoes.1.symm ▸ hopen) (hfs ▸ hwf)
      (hgoes.1.symm ▸ hsight) fun e he => hmap e.wd (hfound e (hqueue e he))
    exact ⟨l', .head hgoes hrest, hacts'⟩

end CommonCpp.Monitor
