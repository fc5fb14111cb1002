import CommonCpp.Lib.Pairs
import CommonCpp.Monitor.Process

/-!
# When monitors do not disturb each other

A callback is isolated if the watch its event came from was registered by the
callback's own monitor and no other, and its path is what the event adds to a path
of that registration, and leads nowhere else; events a reader holds must be its
monitor's too. With `fd` and `wd_map` shared, a reader may meet the watches of any
monitor; it does not as long as, from the first `read_async` on, nothing but the
reader's own monitor is used.

A monitor that is alone may leave its paths as well: the record of an overflow has no
watch, and a record without a name adds what the buffer holds behind it, which can be
an absolute path or lead up (`Event.Stays`). `isolated_along` leaves out both.

Before there is a reader, monitors may be constructed and used in any order:
what they leave in the current instance then has to belong to the one whose
`read_async` is called.
-/

namespace CommonCpp.Monitor

open CommonCpp.Fs CommonCpp.Lib

/-- The watch was registered by this monitor, and by no other. -/
structure Owns (logged : List Registration) (m source : Nat) (wd : Int) : Prop where
  known : ∃ r ∈ logged, r.source = source ∧ r.wd = wd
  own : ∀ r ∈ logged, r.source = source → r.wd = wd → r.owner = m

/-- The path is the base, or goes down from it and nowhere up again. -/
def Under (base path : Path) : Prop := ∃ rest, path = base ++ rest ∧ ascii ".." ∉ rest

/-- A callback got an event of its own monitor, under a path that monitor watched. -/
structure Isolated (c : Callback) : Prop where
  owns : Owns c.logged c.owner c.source c.event.wd
  path : ∃ r ∈ c.logged, r.source = c.source ∧ r.wd = c.event.wd ∧
    c.change.path = some (c.event.fullPath r.path) ∧ Under r.path (c.event.fullPath r.path)

/-- No reader has passed on, or holds, an event of another monitor. The record of an
overflow is of no monitor. -/
structure Process.Isolates (s : Process) : Prop where
  callbacks : ∀ c ∈ s.callbacks, Isolated c
  held : ∀ t ∈ s.threads, ∀ e ∈ t.batch, e.wd = -1 ∨ Owns s.logged t.owner t.source e.wd

/-- The readers, the calls of `watch` and the watches of the current instance are all one
monitor's. -/
structure Process.UsedBy (s : Process) (m : Nat) : Prop where
  threads : ∀ t ∈ s.threads, t.owner = m
  watches : ∀ w ∈ s.watches, w.owner = m
  logged : ∀ r ∈ s.logged, s.fd = some r.source → r.owner = m

/-- The record is of a watch, and what it adds stays below the path of that watch. -/
def Event.Stays (e : Event) : Prop :=
  e.wd ≠ -1 ∧ e.name ≠ some (ascii "..") ∧
    (e.name = none → e.behind.absolute = false ∧ ascii ".." ∉ e.behind.elems)

/-- While a reader runs no monitor is constructed and only the reader's own is used, the
first `read_async` finds no watch or running call of another, and every record a reader
takes stays below its watch. -/
def Exclusive (s : Process) (move : Move) : Prop :=
  match move with
  | .construct _ => s.threads = []
  | .watch m _ => ∀ t ∈ s.threads, t.owner = m
  | .readAsync m => s.UsedBy m
  | .reader _ => ∀ e ∈ s.takes move, e.Stays
  | .call _ | .fill .. | .change _ | .destroy _ | .event .. | .ignored .. | .overflow .. => True

instance (s : Process) (m : Nat) : Decidable (s.UsedBy m) :=
  decidable_of_iff ((∀ t ∈ s.threads, t.owner = m) ∧ (∀ w ∈ s.watches, w.owner = m) ∧
      ∀ r ∈ s.logged, s.fd = some r.source → r.owner = m)
    ⟨fun h => ⟨h.1, h.2.1, h.2.2⟩, fun h => ⟨h.threads, h.watches, h.logged⟩⟩

instance (e : Event) : Decidable e.Stays :=
  inferInstanceAs (Decidable (e.wd ≠ -1 ∧ e.name ≠ some (ascii "..") ∧
    (e.name = none → e.behind.absolute = false ∧ ascii ".." ∉ e.behind.elems)))

instance (s : Process) : ∀ move, Decidable (Exclusive s move)
  | .construct _ => inferInstanceAs (Decidable (s.threads = []))
  | .watch m _ => inferInstanceAs (Decidable (∀ t ∈ s.threads, t.owner = m))
  | .readAsync m => inferInstanceAs (Decidable (s.UsedBy m))
  | .reader k => inferInstanceAs (Decidable (∀ e ∈ s.takes (.reader k), e.Stays))
  | .call _ | .fill .. | .change _ | .destroy _ | .event .. | .ignored .. | .overflow .. =>
    isTrue trivial

/-- What such a record leads to is under the path of its watch. -/
theorem Event.Stays.under {e : Event} (h : e.Stays) (base : Path) :
    Under base (e.fullPath base) := by
  obtain ⟨-, hup, hbehind⟩ := h
  unfold Event.fullPath
  cases hname : e.name with
  | some n =>
    refine ⟨[n], rfl, fun hmem => hup ?_⟩
    rw [hname, List.mem_singleton.mp hmem]
  | none =>
    obtain ⟨hrelative, hdown⟩ := hbehind hname
    exact ⟨e.behind.elems, if_neg (by rw [hrelative]; exact Bool.false_ne_true), hdown⟩

/-! ## The invariant -/

/-- The change a reader is about to pass on. -/
def Reader.change {π : Type} : Reader π → Option (Change π)
  | .idle | .terminated => none
  | .taken c | .watching c _ | .notify c => some c

/-- What an instance queues: records of the watches it made, and of overflows. -/
def Process.Queues (s : Process) (i : Nat) (e : Event) : Prop :=
  e.wd = -1 ∨ Returned s.logged i e.wd

/-- A reader has to do with the current instance only. -/
structure Serves (s : Process) (t : Thread) : Prop where
  reading : ∀ i, t.reading = some i → s.fd = some i ∧ t.reader = .idle ∧ t.batch = []
  batch : ∀ e ∈ t.batch, s.fd = some t.source ∧ s.Queues t.source e
  change : ∀ c, t.reader.change = some c → ∃ e rest, t.batch = e :: rest ∧
    ∃ r ∈ s.logged, r.source = t.source ∧ r.wd = e.wd ∧
      c.path = some (e.fullPath r.path) ∧ Under r.path (e.fullPath r.path)

/-- What comes from an instance is registered there. -/
def Process.Backed (s : Process) (i : Nat) (inst : Instance) : Prop :=
  (∀ e ∈ inst.queue, s.Queues i e) ∧ ∀ j w, inst.wdOf j = some w → Returned s.logged i w

structure Alone (s : Process) : Prop where
  used : ∀ t ∈ s.threads, s.UsedBy t.owner
  serves : ∀ t ∈ s.threads, Serves s t
  backed : ∀ i inst, s.fd = some i → s.instances[i]? = some inst → s.Backed i inst
  /-- `wd_map` has a path for every watch of the current instance. -/
  mapped : ∀ r ∈ s.logged, s.fd = some r.source →
    ∃ r' ∈ s.logged, r'.source = r.source ∧ r'.wd = r.wd ∧ s.wdMap r.wd = some (some r'.path)
  bound : ∀ r ∈ s.logged, r.source < s.instances.length
  isolated : ∀ c ∈ s.callbacks, Isolated c

variable {s s' : Process}

theorem Returned.mono {logged logged' : List Registration} {i : Nat} {wd : Int}
    (h : Returned logged i wd) (hlog : ∀ r ∈ logged, r ∈ logged') : Returned logged' i wd := by
  obtain ⟨r, hr, hi, hwd⟩ := h
  exact ⟨r, hlog r hr, hi, hwd⟩

theorem Process.Queues.mono {i : Nat} {e : Event} (h : s.Queues i e)
    (hlog : ∀ r ∈ s.logged, r ∈ s'.logged) : s'.Queues i e :=
  h.imp_right fun h => h.mono hlog

theorem Serves.mono {t : Thread} (h : Serves s t) (hfd : s'.fd = s.fd)
    (hlog : ∀ r ∈ s.logged, r ∈ s'.logged) : Serves s' t := by
  refine ⟨fun i hi => hfd ▸ h.reading i hi, fun e he => ?_, fun c hc => ?_⟩
  · exact ⟨hfd ▸ (h.batch e he).1, (h.batch e he).2.mono hlog⟩
  · obtain ⟨e, rest, hbatch, r, hr, hrest⟩ := h.change c hc
    exact ⟨e, rest, hbatch, r, hlog r hr, hrest⟩

/-- Other threads of the same owners. -/
theorem Alone.withThreads (h : Alone s) {threads : List Thread} (terminated : Bool)
    (howner : ∀ t ∈ threads, ∃ t₀ ∈ s.threads, t.owner = t₀.owner)
    (hserves : ∀ t ∈ threads, Serves s t) :
    Alone { s with threads := threads, terminated := terminated } := by
  refine ⟨fun t ht => ?_, fun t ht => ?_, h.backed, h.mapped, h.bound, h.isolated⟩
  · obtain ⟨t₀, ht₀, heq⟩ := howner t ht
    have hused := h.used t₀ ht₀
    refine ⟨fun u hu => ?_, heq ▸ hused.watches, heq ▸ hused.logged⟩
    obtain ⟨u₀, hu₀, hsame⟩ := howner u hu
    rw [hsame, heq]
    exact hused.threads u₀ hu₀
  · exact (hserves t ht).mono rfl fun _ => id

/-- One thread changed, its owner kept. -/
theorem Alone.setThread (h : Alone s) {k : Nat} {t t' : Thread} (terminated : Bool)
    (hk : s.threads[k]? = some t) (howner : t'.owner = t.owner) (hserves : Serves s t') :
    Alone { s with threads := s.threads.set k t', terminated := terminated } := by
  refine h.withThreads terminated (fun u hu => ?_) fun u hu => ?_
  · rcases List.mem_or_eq_of_mem_set hu with hu | rfl
    · exact ⟨u, hu, rfl⟩
    · exact ⟨t, List.mem_of_getElem? hk, howner⟩
  · rcases List.mem_or_eq_of_mem_set hu with hu | rfl
    · exact h.serves u hu
    · exact hserves

/-- Where threads, registrations and `wd_map` stay, what the others have to keep. -/
theorem Alone.frame (h : Alone s) {fs : Entry} {instances : List Instance} {objects : List Object}
    {watches : List Watch} {callbacks : List Callback}
    (hlen : instances.length = s.instances.length)
    (hbacked : ∀ i inst, s.fd = some i → instances[i]? = some inst → s.Backed i inst)
    (hwatches : ∀ t ∈ s.threads, ∀ w ∈ watches, w.owner = t.owner)
    (hisolated : ∀ c ∈ callbacks, Isolated c) :
    Alone { s with
      fs := fs, instances := instances, objects := objects, watches := watches,
      callbacks := callbacks } :=
  ⟨fun t ht => ⟨(h.used t ht).threads, hwatches t ht, (h.used t ht).logged⟩,
    fun t ht => (h.serves t ht).mono rfl fun _ => id, hbacked, h.mapped,
    fun r hr => hlen ▸ h.bound r hr, hisolated⟩

theorem Alone.withInstances (h : Alone s) {instances : List Instance} (fs : Entry)
    (hlen : instances.length = s.instances.length)
    (hbacked : ∀ i inst, s.fd = some i → instances[i]? = some inst → s.Backed i inst) :
    Alone { s with fs := fs, instances := instances } :=
  h.frame hlen hbacked (fun t ht => (h.used t ht).watches) h.isolated

theorem Alone.withWatches (h : Alone s) {watches : List Watch}
    (hw : ∀ t ∈ s.threads, ∀ w ∈ watches, w.owner = t.owner) :
    Alone { s with watches := watches } :=
  h.frame rfl h.backed hw h.isolated

/-! ## The steps -/

/-- `inotify_add_watch` finds a watch of the inode, or makes one. -/
theorem addWatch_cases {k k' : Sys} {p : Path} {wd : Int}
    (h : k.inotifyAddWatch p = some (wd, k')) :
    (k' = k ∧ ∃ ino, k.wdOf ino = some wd) ∨ ∃ ino, wd = k.nextWd ∧
      k' = { k with wdOf := Function.update k.wdOf ino (some k.nextWd), nextWd := k.nextWd + 1 } := by
  obtain ⟨ino, -, h⟩ := Option.map_eq_some_iff.mp h
  cases hw : k.wdOf ino with
  | some v =>
    simp only [hw] at h
    cases h
    exact .inl ⟨rfl, ino, hw⟩
  | none =>
    simp only [hw] at h
    cases h
    exact .inr ⟨ino, rfl, rfl⟩

/-- What that does to an instance. -/
theorem addWatch_spec {k k' : Sys} {p : Path} {wd : Int}
    (h : k.inotifyAddWatch p = some (wd, k')) :
    k'.queue = k.queue ∧ ∀ j w, k'.wdOf j = some w → k.wdOf j = some w ∨ w = wd := by
  obtain ⟨rfl, -⟩ | ⟨ino, rfl, rfl⟩ := addWatch_cases h
  · exact ⟨rfl, fun _ _ => .inl⟩
  · refine ⟨rfl, fun j w hj => ?_⟩
    dsimp only at hj
    rw [Function.update_apply] at hj
    split at hj
    · exact .inr (Option.some.inj hj).symm
    · exact .inl hj

/-- Registering for the monitor that is used keeps everything. -/
theorem Alone.register (h : Alone s) {m : Nat} {p : Path} (hm : ∀ t ∈ s.threads, t.owner = m)
    (hreg : s.register m p = some s') : Alone s' := by
  obtain ⟨i, hfd, hreg⟩ := Option.bind_eq_some_iff.mp hreg
  obtain ⟨inst, hinst, hreg⟩ := Option.bind_eq_some_iff.mp hreg
  obtain ⟨⟨wd, k⟩, hadd, rfl⟩ := Option.map_eq_some_iff.mp hreg
  obtain ⟨hqueue, hwds⟩ := addWatch_spec hadd
  obtain ⟨hq, hw⟩ := h.backed i inst hfd hinst
  have hlog : ∀ r ∈ s.logged, r ∈ s.logged ++ [⟨m, i, wd, p⟩] :=
    fun r hr => List.mem_append_left _ hr
  have hnew : (⟨m, i, wd, p⟩ : Registration) ∈ s.logged ++ [⟨m, i, wd, p⟩] :=
    List.mem_append_right _ (List.mem_cons_self ..)
  refine ⟨fun t ht => ?_, fun t ht => (h.serves t ht).mono rfl hlog, fun j inst' hj hget => ?_,
    fun r hr hsource => ?_, fun r hr => ?_, h.isolated⟩
  · have hused := h.used t ht
    -- the one new registration is for this monitor
    refine ⟨hused.threads, hused.watches, fun r hr hsource => ?_⟩
    rcases List.mem_append.mp hr with hr | hr
    · exact hused.logged r hr hsource
    · rw [List.mem_singleton.mp hr]
      exact (hm t ht).symm
  · cases hfd.symm.trans hj
    dsimp only at hget
    rw [List.getElem?_set_self (List.getElem?_eq_some_iff.mp hinst).1] at hget
    cases hget
    refine ⟨fun e he => ?_, fun j w hjw => ?_⟩
    · have hold : e ∈ (inst.sys s.fs).queue := hqueue ▸ he
      exact Process.Queues.mono (hq e hold) hlog
    · rcases hwds j w hjw with hold | rfl
      · exact (hw j w hold).mono hlog
      · exact ⟨_, hnew, rfl, rfl⟩
  · dsimp only
    by_cases hwd : r.wd = wd
    · refine ⟨_, hnew, ?_, hwd.symm, ?_⟩
      · exact Option.some.inj (hfd.symm.trans hsource)
      · rw [hwd, Function.update_self]
    · rcases List.mem_append.mp hr with hr | hr
      · obtain ⟨r', hr', hs, hw', hmap⟩ := h.mapped r hr hsource
        exact ⟨r', hlog r' hr', hs, hw', by rw [Function.update_of_ne hwd, hmap]⟩
      · rw [List.mem_singleton.mp hr] at hwd
        exact absurd rfl hwd
  · dsimp only
    rw [List.length_set]
    rcases List.mem_append.mp hr with hr | hr
    · exact h.bound r hr
    · rw [List.mem_singleton.mp hr]
      exact (List.getElem?_eq_some_iff.mp hinst).1

/-- A step of a call of `watch` for the monitor that is used keeps everything. -/
theorem Alone.callStep (h : Alone s) {m : Nat} (hm : ∀ t ∈ s.threads, t.owner = m)
    (call : Call) :
    Alone (s.callStep m call).1 ∧ (s.callStep m call).1.fd = s.fd ∧
      (s.callStep m call).1.threads = s.threads ∧ (s.callStep m call).1.watches = s.watches ∧
      ∀ r ∈ s.logged, r ∈ (s.callStep m call).1.logged := by
  rcases callStep_cases s m call with hsame | ⟨p, hreg⟩
  · rw [hsame]
    exact ⟨h, rfl, rfl, rfl, fun _ => id⟩
  · refine ⟨h.register hm hreg, ?_⟩
    obtain ⟨i, hfd, hreg⟩ := Option.bind_eq_some_iff.mp hreg
    obtain ⟨inst, hinst, hreg⟩ := Option.bind_eq_some_iff.mp hreg
    obtain ⟨⟨wd, k⟩, hadd, heq⟩ := Option.map_eq_some_iff.mp hreg
    rw [← heq]
    exact ⟨rfl, rfl, rfl, fun r hr => List.mem_append_left _ hr⟩

theorem Alone.watchStep (h : Alone s) {k : Nat} {w : Watch} (hk : s.watches[k]? = some w) :
    Alone (s.watchStep k w) := by
  have hmem := List.mem_of_getElem? hk
  have hm : ∀ t ∈ s.threads, t.owner = w.owner := fun t ht => ((h.used t ht).watches w hmem).symm
  obtain ⟨hstep, -, hthreads, hwatches, -⟩ := h.callStep hm w.call
  unfold Process.watchStep
  split <;> next heq =>
    rw [heq] at hstep hthreads hwatches
    refine hstep.withWatches fun t ht v hv => ?_
    dsimp only at hthreads hwatches
    rw [hthreads] at ht
    rw [hwatches] at hv
    first
      | exact (h.used t ht).watches v (List.mem_of_mem_eraseIdx hv)
      | rcases List.mem_or_eq_of_mem_set hv with hv | rfl
        · exact (h.used t ht).watches v hv
        · exact (h.used t ht).watches w hmem

/-- An entry that `wd_map` has is only read. -/
theorem Alone.lookup (h : Alone s) {t : Thread} (ht : t ∈ s.threads) {e : Event}
    (he : e ∈ t.batch) (hne : e.wd ≠ -1) : ∃ r ∈ s.logged, r.source = t.source ∧ r.wd = e.wd ∧
      s.wdMap e.wd = some (some r.path) := by
  obtain ⟨hfd, hqueues⟩ := (h.serves t ht).batch e he
  obtain ⟨r, hr, hsource, hwd⟩ := hqueues.resolve_left hne
  obtain ⟨r', hr', hsource', hwd', hmap⟩ := h.mapped r hr (hsource ▸ hfd)
  exact ⟨r', hr', hsource'.trans hsource, hwd'.trans hwd, hwd ▸ hmap⟩

/-- A reader's step. -/
theorem Alone.readerStep (h : Alone s) {k : Nat} {t t' : Thread} (hk : s.threads[k]? = some t)
    (hstays : ∀ e ∈ t.takes, e.Stays) (hstep : s.readerStep t = some (s', t')) :
    Alone (s'.resume k t') := by
  have ht := List.mem_of_getElem? hk
  have hserves := h.serves t ht
  have hused := h.used t ht
  -- only an idle thread waits in `read`
  have hpast : t.reader ≠ .idle → ∀ j, t.reading ≠ some j :=
    fun hr j hj => hr (hserves.reading j hj).2.1
  cases Process.readerStep_cases hstep with
  | wait hr hb _ hfd =>
    refine h.setThread _ hk rfl ⟨fun j hj => ?_, hserves.batch, hserves.change⟩
    cases hj
    exact ⟨hfd, hr, hb⟩
  | die hr hb hreading =>
    refine h.setThread _ hk rfl ⟨fun j hj => ?_, hserves.batch, nofun⟩
    cases hreading.symm.trans hj
  | @take e rest hr hb =>
    have he : e ∈ t.batch := by
      rw [hb]
      exact List.mem_cons_self ..
    -- the key is found, so `wd_map` stays as it is and gives the registered path
    have hstays : e.Stays := hstays e (takes_of_cons hr hb)
    obtain ⟨r, hr, hsource, hwd, hmap⟩ := h.lookup ht he hstays.1
    rw [lookUp_of_some hmap, hmap]
    refine h.setThread _ hk rfl ⟨fun j hj => ?_, hserves.batch, fun c hc => ?_⟩
    · cases hb.symm.trans (hserves.reading j hj).2.2
    · cases hc
      exact ⟨e, rest, hb, r, hr, hsource, hwd, rfl, hstays.under r.path⟩
  | enter hr | pass hr =>
    refine h.setThread _ hk rfl ⟨fun j hj => ?_, hserves.batch, fun c' hc => ?_⟩
    · exact absurd hj (hpast (by rw [hr]; exact nofun) j)
    · exact hserves.change c' (by rw [hr]; exact hc)
  | @call c call reader hr hnext =>
    -- a call only adds registrations
    obtain ⟨hcall, hfd, hthreads, -, hlog⟩ := h.callStep hused.threads call
    rw [← hthreads] at hk
    have hmono := hserves.mono hfd hlog
    refine hcall.setThread _ hk rfl ⟨fun j hj => ?_, hmono.batch, fun c' hc => ?_⟩
    · exact absurd hj (hpast (by rw [hr]; exact nofun) j)
    · rcases hnext with rfl | rfl | ⟨call', rfl⟩
      · exact hmono.change c' (by rw [hr]; exact hc)
      · cases hc
      · exact hmono.change c' (by rw [hr]; exact hc)
  | @notify c e rest hr hb =>
    obtain ⟨e', rest', hb', r, hlogged, hsource, hwd, hpath⟩ :=
      hserves.change c (by rw [hr]; rfl)
    cases hb.symm.trans hb'
    have he : e ∈ t.batch := by
      rw [hb]
      exact List.mem_cons_self ..
    obtain ⟨hfd, -⟩ := hserves.batch e he
    obtain ⟨hpath, hunder⟩ := hpath
    have hone : Isolated ⟨t.owner, t.source, e, c, s.logged⟩ :=
      ⟨⟨⟨r, hlogged, hsource, hwd⟩, fun r' hr' hs' _ => hused.logged r' hr' (hs' ▸ hfd)⟩,
        r, hlogged, hsource, hwd, hpath, hunder⟩
    have hnext : Alone { s with
        callbacks := s.callbacks ++ [⟨t.owner, t.source, e, c, s.logged⟩] } := by
      refine h.frame rfl h.backed (fun t ht => (h.used t ht).watches) fun c' hc' => ?_
      rcases List.mem_append.mp hc' with hc' | hc'
      · exact h.isolated c' hc'
      · rw [List.mem_singleton.mp hc']
        exact hone
    refine hnext.setThread _ hk rfl ⟨fun j hj => ?_, fun e' he' => ?_, nofun⟩
    · exact absurd hj (hpast (by rw [hr]; exact nofun) j)
    · exact hserves.batch e' (by rw [hb]; exact List.mem_cons_of_mem _ he')

theorem Alone.fill (h : Alone s) {k n : Nat} {t : Thread} (hk : s.threads[k]? = some t)
    (hfill : s.fill k t n = some s') : Alone s' := by
  obtain ⟨i, hreading, hfill⟩ := Option.bind_eq_some_iff.mp hfill
  obtain ⟨inst, hinst, hfill⟩ := Option.bind_eq_some_iff.mp hfill
  obtain ⟨-, hfill⟩ := Option.ite_none_right_eq_some.mp hfill
  cases hfill
  have hserves := h.serves t (List.mem_of_getElem? hk)
  obtain ⟨hfd, hidle, -⟩ := hserves.reading i hreading
  obtain ⟨hq, hw⟩ := h.backed i inst hfd hinst
  have hrest : Alone { s with
      instances := s.instances.set i { inst with queue := inst.queue.drop n } } := by
    refine h.withInstances s.fs List.length_set fun j inst' hj hget => ?_
    cases hfd.symm.trans hj
    rw [List.getElem?_set_self (List.getElem?_eq_some_iff.mp hinst).1] at hget
    cases hget
    exact ⟨fun e he => hq e (List.mem_of_mem_drop he), hw⟩
  refine hrest.setThread _ hk rfl ⟨nofun, fun e he => ?_, fun c hc => ?_⟩
  · exact ⟨hfd, hq e (List.mem_of_mem_take he)⟩
  · dsimp only at hc
    rw [hidle] at hc
    cases hc

/-! ## The file system -/

/-- What is queued comes from a watch there was, and no watch is added. -/
def Hears (k k' : Sys) : Prop :=
  (∀ e ∈ k'.queue, e ∈ k.queue ∨ ∃ j, k.wdOf j = some e.wd) ∧
    ∀ j w, k'.wdOf j = some w → k.wdOf j = some w

variable {k k₁ k' : Sys}

theorem Hears.refl (k : Sys) : Hears k k := ⟨fun _ he => .inl he, fun _ _ => id⟩

theorem Hears.trans (h : Hears k k₁) (h' : Hears k₁ k') : Hears k k' := by
  refine ⟨fun e he => ?_, fun j w hj => h.2 j w (h'.2 j w hj)⟩
  rcases h'.1 e he with he | ⟨j, hj⟩
  · exact h.1 e he
  · exact .inr ⟨j, h.2 j _ hj⟩

theorem hears_emit (k : Sys) (fs : Entry) (ino : Ino) (mask : UInt32) (n : Name) :
    Hears k (Sys.emit { k with fs := fs } ino mask n) := by
  unfold Sys.emit
  dsimp only
  cases hw : k.wdOf ino with
  | none => exact .refl k
  | some wd =>
    refine ⟨fun e he => ?_, fun _ _ => id⟩
    rcases List.mem_append.mp he with he | he
    · exact .inl he
    · rw [List.mem_singleton.mp he]
      exact .inr ⟨ino, hw⟩

theorem hears_unwatch (k : Sys) (behind : Spelling) (old : Option Entry) :
    Hears k (k.unwatch behind old) := by
  cases old with
  | none => exact .refl k
  | some e =>
    cases e with
    | leaf => exact .refl k
    | dir ino sub =>
      unfold Sys.unwatch
      dsimp only
      cases hw : k.wdOf ino with
      | none => exact .refl k
      | some wd =>
        refine ⟨fun e he => ?_, fun j w hj => ?_⟩
        · rcases List.mem_append.mp he with he | he
          · exact .inl he
          · rw [List.mem_singleton.mp he]
            exact .inr ⟨ino, hw⟩
        · dsimp only at hj
          rw [Function.update_apply] at hj
          split at hj
          · cases hj
          · exact hj

theorem hears_apply {op : Op} (h : k.apply op = some k') : Hears k k' :=
  apply_closed Hears.refl Hears.trans hears_emit hears_unwatch h

theorem Alone.change (h : Alone s) {op : Op} (hchange : s.change op = some s') : Alone s' := by
  obtain ⟨k, -, hchange⟩ := Option.bind_eq_some_iff.mp hchange
  obtain ⟨instances, hall, rfl⟩ := Option.map_eq_some_iff.mp hchange
  have hall := Pairs.mapM_eq_some_iff.mp hall
  refine h.withInstances k.fs hall.length_eq.symm fun i inst' hfd hget => ?_
  obtain ⟨hlt, hget⟩ := List.getElem?_eq_some_iff.mp hget
  have hlt' : i < s.instances.length := hall.length_eq ▸ hlt
  have happly := (List.forall₂_iff_get.mp hall).2 i hlt' hlt
  simp only [List.get_eq_getElem] at happly
  obtain ⟨k', happly, heq⟩ := Option.map_eq_some_iff.mp happly
  obtain ⟨hqueue, hwds⟩ := hears_apply happly
  obtain ⟨hq, hw⟩ := h.backed i _ hfd (List.getElem?_eq_getElem hlt')
  rw [hget] at heq
  subst heq
  refine ⟨fun e he => ?_, fun j w hj => hw j w (hwds j w hj)⟩
  rcases hqueue e he with he | ⟨j, hj⟩
  · exact hq e he
  · exact Or.inr (hw j _ hj)

/-! ## The kernel -/

/-- An instance of which the kernel makes one that is still backed. -/
theorem Alone.kernel (h : Alone s) {i : Nat} {f : Instance → Option Instance}
    (hf : ∀ inst inst', s.Backed i inst → f inst = some inst' → s.Backed i inst')
    (hkernel : s.kernel i f = some s') : Alone s' := by
  obtain ⟨inst, hinst, hkernel⟩ := Option.bind_eq_some_iff.mp hkernel
  obtain ⟨inst', hinst', rfl⟩ := Option.map_eq_some_iff.mp hkernel
  refine h.withInstances s.fs List.length_set fun j x hj hget => ?_
  by_cases hji : i = j
  · subst hji
    rw [List.getElem?_set_self (List.getElem?_eq_some_iff.mp hinst).1] at hget
    cases hget
    exact hf inst _ (h.backed i inst hj hinst) hinst'
  · rw [List.getElem?_set_ne hji] at hget
    exact h.backed j x hj hget

theorem Process.Backed.deliver {i : Nat} {inst : Instance} (h : s.Backed i inst) {e : Event}
    (he : s.Queues i e) : s.Backed i (inst.deliver e) := by
  refine ⟨fun x hx => ?_, h.2⟩
  rcases List.mem_append.mp hx with hx | hx
  · exact h.1 x hx
  · rw [List.mem_singleton.mp hx]
    exact he

theorem Process.Backed.ignore {i : Nat} {inst inst' : Instance} (h : s.Backed i inst) {ino : Ino}
    {behind : Spelling} (hignore : inst.ignore ino behind = some inst') : s.Backed i inst' := by
  obtain ⟨wd, hwd, rfl⟩ := Option.map_eq_some_iff.mp hignore
  have hrest : s.Backed i { inst with wdOf := Function.update inst.wdOf ino none } := by
    refine ⟨h.1, fun j w hj => ?_⟩
    dsimp only at hj
    rw [Function.update_apply] at hj
    split at hj
    · cases hj
    · exact h.2 j w hj
  exact hrest.deliver (Or.inr (h.2 ino wd hwd))

theorem Process.Backed.overflow {i : Nat} {inst : Instance} (h : s.Backed i inst) (n : Nat)
    (behind : Spelling) : s.Backed i (inst.overflow n behind) := by
  have hrest : s.Backed i { inst with queue := inst.queue.take n } :=
    ⟨fun e he => h.1 e (List.mem_of_mem_take he), h.2⟩
  exact hrest.deliver (Or.inl rfl)

/-! ## Runs -/

theorem alone_construct (h : Alone s) (hnone : s.threads = []) (succeeds : Bool) :
    Alone (s.construct succeeds) := by
  have hno : ∀ {P : Thread → Prop}, ∀ t ∈ s.threads, P t := by
    intro P t ht
    rw [hnone] at ht
    cases ht
  cases succeeds with
  | false => exact ⟨hno, hno, nofun, nofun, h.bound, h.isolated⟩
  | true =>
    refine ⟨hno, hno, fun i inst hi hget => ?_, fun r hr hsource => ?_, fun r hr => ?_, h.isolated⟩
    · -- the new instance is empty
      cases hi
      have hnew : (s.instances ++ [Instance.new])[s.instances.length]? = some .new := by
        rw [List.getElem?_append_right (Nat.le_refl _), Nat.sub_self]
        rfl
      cases hnew.symm.trans hget
      exact ⟨List.forall_mem_nil _, nofun⟩
    · have hlt := h.bound r hr
      have heq : s.instances.length = r.source := Option.some.inj hsource
      omega
    · have hlen : (s.construct true).instances.length = s.instances.length + 1 := List.length_append
      rw [hlen]
      exact Nat.lt_succ_of_lt (h.bound r hr)

theorem alone_readAsync (h : Alone s) {m : Nat} (hm : s.UsedBy m) : Alone (s.readAsync m) := by
  have hused : (s.readAsync m).UsedBy m := by
    refine ⟨fun t ht => ?_, hm.watches, hm.logged⟩
    rcases List.mem_append.mp ht with ht | ht
    · exact hm.threads t ht
    · rw [List.mem_singleton.mp ht]
  refine ⟨fun t ht => ?_, fun t ht => ?_, h.backed, h.mapped, h.bound, h.isolated⟩
  · rw [hused.threads t ht]
    exact hused
  · rcases List.mem_append.mp ht with ht | ht
    · exact (h.serves t ht).mono rfl fun _ => id
    · rw [List.mem_singleton.mp ht]
      exact ⟨nofun, List.forall_mem_nil _, nofun⟩

theorem alone_destroy (h : Alone s) (m : Nat) (x : Object) : Alone (s.destroy m x) := by
  have hobjects : Alone { s with objects := s.objects.set m { x with alive := false } } :=
    h.frame rfl h.backed (fun t ht => (h.used t ht).watches) h.isolated
  unfold Process.destroy
  dsimp only
  split
  · next k _ =>
    unfold Process.deleteThread
    split
    · next t hk =>
      have hserves := hobjects.serves t (List.mem_of_getElem? hk)
      exact hobjects.setThread _ hk rfl ⟨hserves.reading, hserves.batch, hserves.change⟩
    · exact hobjects
  · exact hobjects

theorem alone_step {move : Move} (h : Alone s) (hcond : Exclusive s move)
    (hstep : s.step move = some s') : Alone s' := by
  unfold Process.step at hstep
  obtain ⟨-, hstep⟩ := Option.ite_none_left_eq_some.mp hstep
  cases move with
  | construct succeeds =>
    cases hstep
    exact alone_construct h hcond succeeds
  | watch m p =>
    obtain ⟨x, -, rfl⟩ := Option.map_eq_some_iff.mp hstep
    refine h.withWatches fun t ht w hw => ?_
    rcases List.mem_append.mp hw with hw | hw
    · exact (h.used t ht).watches w hw
    · rw [List.mem_singleton.mp hw]
      exact (hcond t ht).symm
  | call k =>
    obtain ⟨w, hk, rfl⟩ := Option.map_eq_some_iff.mp hstep
    exact h.watchStep hk
  | readAsync m =>
    obtain ⟨x, -, rfl⟩ := Option.map_eq_some_iff.mp hstep
    exact alone_readAsync h hcond
  | reader k =>
    obtain ⟨t, hk, hstep⟩ := Option.bind_eq_some_iff.mp hstep
    obtain ⟨⟨s₁, t'⟩, hreader, rfl⟩ := Option.map_eq_some_iff.mp hstep
    exact h.readerStep hk (takes_reader hk ▸ hcond) hreader
  | fill k n =>
    obtain ⟨t, hk, hfill⟩ := Option.bind_eq_some_iff.mp hstep
    exact h.fill hk hfill
  | change op => exact h.change hstep
  | destroy m =>
    obtain ⟨x, -, rfl⟩ := Option.map_eq_some_iff.mp hstep
    exact alone_destroy h m x
  | event i e =>
    obtain ⟨hreturned, hstep⟩ := Option.ite_none_right_eq_some.mp hstep
    refine h.kernel (fun inst inst' hback hinst => ?_) hstep
    cases hinst
    exact hback.deliver (Or.inr hreturned)
  | ignored i ino behind => exact h.kernel (fun inst inst' hback hinst => hback.ignore hinst) hstep
  | overflow i n behind =>
    refine h.kernel (fun inst inst' hback hinst => ?_) hstep
    cases hinst
    exact hback.overflow n behind

theorem alone_start (fs : Entry) : Alone (.start fs) :=
  ⟨List.forall_mem_nil _, List.forall_mem_nil _, nofun, List.forall_mem_nil _,
    List.forall_mem_nil _, List.forall_mem_nil _⟩

theorem Alone.isolates (h : Alone s) : s.Isolates := by
  refine ⟨h.isolated, fun t ht e he => ?_⟩
  obtain ⟨hfd, hqueues⟩ := (h.serves t ht).batch e he
  exact hqueues.imp_right fun hknown =>
    ⟨hknown, fun r hr hsource _ => (h.used t ht).logged r hr (hsource ▸ hfd)⟩

/-- **Isolation.** In every run in which, while a reader runs, no monitor is constructed
and only the reader's own is used, the first `read_async` finds nothing of another
monitor, and no record that is taken is one of an overflow or leaves the path of its
watch, every reader only takes events of its own monitor, and passes them on under a
path that monitor watched. -/
theorem isolated_along (fs : Entry) (moves : List Move) (s : Process)
    (hrun : run Process.step (.start fs) moves = some s)
    (hcond : Along Process.step Exclusive (.start fs) moves) : s.Isolates :=
  (run_invariant_along alone_step (alone_start fs) hcond hrun).isolates

/-- Two directories, and a monitor whose reader runs. -/
def oneMonitor : List Move :=
  [.change (.mkdir [ascii "r"] 0 (ascii "a") 3), .change (.mkdir [ascii "r"] 0 (ascii "b") 4),
    .construct true, .watch 0 [ascii "r", ascii "a"], .call 0, .call 0, .call 0, .readAsync 0]

/-- The reader reads one event and passes it on. -/
def oneEvent : List Move := [.reader 0, .fill 0 1, .reader 0, .reader 0, .reader 0]

/-- A second monitor watches the other directory before the first one's reader reads. -/
def secondMonitor : List Move :=
  [.construct true, .watch 1 [ascii "r", ascii "b"], .call 0, .call 0, .call 0,
    .change (.create [ascii "r", ascii "b"] 0 (ascii "f") 5)]

/-- The first monitor's callback gets the second one's event. -/
theorem callback_crossed : ¬ ∀ (fs : Entry) (moves : List Move) (s : Process),
    run Process.step (.start fs) moves = some s → s.Isolates := by
  intro h
  have hall := h emptyRoot.tree (oneMonitor ++ (secondMonitor ++ oneEvent)) _ rfl
  have hone := hall.callbacks ⟨0, 1, .named 1 IN_CREATE (ascii "f"),
    ⟨.added, some [ascii "r", ascii "b", ascii "f"]⟩,
    [⟨0, 0, 1, [ascii "r", ascii "a"]⟩, ⟨1, 1, 1, [ascii "r", ascii "b"]⟩]⟩ (List.mem_cons_self ..)
  have hown := hone.owns.own ⟨1, 1, 1, [ascii "r", ascii "b"]⟩
    (List.mem_cons_of_mem _ (List.mem_cons_self ..)) rfl rfl
  cases hown

/-- With the first monitor alone, its event arrives, and is its own. -/
theorem isolated_along_one : ∃ s, run Process.step (.start emptyRoot.tree)
    (oneMonitor ++ (.change (.create [ascii "r", ascii "a"] 0 (ascii "f") 5) :: oneEvent))
      = some s ∧ s.callbacks.map Callback.owner = [0] ∧ s.Isolates :=
  ⟨_, rfl, rfl, isolated_along emptyRoot.tree
    (oneMonitor ++ (.change (.create [ascii "r", ascii "a"] 0 (ascii "f") 5) :: oneEvent)) _ rfl
    (by decide +kernel)⟩

/-- The watch of its directory ends, and the buffer holds an absolute path behind the record:
with no other monitor in sight the callback is for a path that was never watched. -/
example : ∃ s, run Process.step (.start emptyRoot.tree)
    (oneMonitor ++ (.ignored 0 3 ⟨true, [ascii "etc", ascii "x"]⟩ :: oneEvent)) = some s ∧
      s.callbacks.map Callback.change = [⟨.unknown, some [ascii "etc", ascii "x"]⟩] :=
  ⟨_, rfl, rfl⟩

end CommonCpp.Monitor
