import CommonCpp.Monitor.Isolation

/-!
# What `wd_map` holds

The reader looks a watch up with `operator[]`, which enters a key it does not
find. Every descriptor that `inotify_add_watch` ever returned is a key (`Recorded`), so
the lookup finds all of them, and -1 is the only key it can enter: `recorded_step`
and `overflow_key` say this of one step, `wdMap_registered_iff` of a run.
-/

namespace CommonCpp.Monitor

open CommonCpp.Fs CommonCpp.Lib

/-- Every key is a descriptor that was returned, and its value a path it was returned for. -/
def Process.Registered (s : Process) : Prop :=
  ∀ wd p, s.wdMap wd = some p → ∃ r ∈ s.logged, r.wd = wd ∧ some r.path = p

/-- A reader that is not in a call of `watch` leaves `wd_map` as it is. -/
def OnlyWatches (s : Process) (move : Move) : Prop :=
  ∀ k t s', move = .reader k → s.threads[k]? = some t →
    (∀ c call, t.reader ≠ .watching c call) → s.step move = some s' → s'.wdMap = s.wdMap

/-- No reader takes the record of an overflow. -/
def NoOverflow (s : Process) (move : Move) : Prop := ∀ e ∈ s.takes move, e.wd ≠ -1

instance (s : Process) (move : Move) : Decidable (NoOverflow s move) :=
  inferInstanceAs (Decidable (∀ e ∈ s.takes move, e.wd ≠ -1))

/-! ## The invariant -/

/-- The descriptor was returned, or is the one of an overflow. -/
def Heard (logged : List Registration) (wd : Int) : Prop := wd = -1 ∨ ∃ r ∈ logged, r.wd = wd

/-- An instance's watches were returned, its events come from those, and its next
descriptor is positive. -/
structure Instance.Ok (inst : Instance) (logged : List Registration) : Prop where
  next : 1 ≤ inst.nextWd
  watches : ∀ j wd, inst.wdOf j = some wd → ∃ r ∈ logged, r.wd = wd
  queue : ∀ e ∈ inst.queue, Heard logged e.wd

structure Recorded (s : Process) : Prop where
  positive : ∀ r ∈ s.logged, 1 ≤ r.wd
  backed : ∀ wd p, wd ≠ -1 → s.wdMap wd = some p → ∃ r ∈ s.logged, r.wd = wd ∧ some r.path = p
  mapped : ∀ r ∈ s.logged, ∃ p, s.wdMap r.wd = some p
  instances : ∀ inst ∈ s.instances, inst.Ok s.logged
  batches : ∀ t ∈ s.threads, ∀ e ∈ t.batch, Heard s.logged e.wd

/-- What is registered is what the keys are, but for -1. -/
theorem Recorded.registered_iff {s : Process} (h : Recorded s) :
    s.Registered ↔ s.wdMap (-1) = none := by
  constructor
  · intro hall
    cases hmap : s.wdMap (-1) with
    | none => rfl
    | some p =>
      obtain ⟨r, hr, hwd, -⟩ := hall (-1) p hmap
      have hpos := h.positive r hr
      omega
  · intro hnone wd p hmap
    refine h.backed wd p (fun he => ?_) hmap
    rw [he, hnone] at hmap
    cases hmap

/-- A descriptor that was heard of is a key, or is -1. -/
theorem Recorded.found {s : Process} (h : Recorded s) {wd : Int} (hheard : Heard s.logged wd)
    (hne : wd ≠ -1) : ∃ p, s.wdMap wd = some p := by
  obtain ⟨r, hr, rfl⟩ := hheard.resolve_left hne
  exact h.mapped r hr

variable {s s' : Process}

theorem Heard.mono {logged logged' : List Registration} {wd : Int} (h : Heard logged wd)
    (hlog : ∀ r ∈ logged, r ∈ logged') : Heard logged' wd :=
  h.imp_right fun ⟨r, hr, hwd⟩ => ⟨r, hlog r hr, hwd⟩

theorem Instance.Ok.mono {inst : Instance} {logged logged' : List Registration}
    (h : inst.Ok logged) (hlog : ∀ r ∈ logged, r ∈ logged') : inst.Ok logged' := by
  refine ⟨h.next, fun j wd hj => ?_, fun e he => (h.queue e he).mono hlog⟩
  obtain ⟨r, hr, hwd⟩ := h.watches j wd hj
  exact ⟨r, hlog r hr, hwd⟩

/-- Where registrations and `wd_map` stay, what instances and readers have to keep. -/
theorem Recorded.frame (h : Recorded s) (hmap : s'.wdMap = s.wdMap) (hlog : s'.logged = s.logged)
    (hinst : ∀ inst ∈ s'.instances, inst.Ok s.logged)
    (hbatch : ∀ t ∈ s'.threads, ∀ e ∈ t.batch, Heard s.logged e.wd) : Recorded s' := by
  refine ⟨?_, ?_, ?_, ?_, ?_⟩
  · rw [hlog]
    exact h.positive
  · rw [hlog, hmap]
    exact h.backed
  · rw [hlog, hmap]
    exact h.mapped
  · rw [hlog]
    exact hinst
  · rw [hlog]
    exact hbatch

/-- Only what neither instances nor readers have is changed. -/
theorem Recorded.rest (h : Recorded s) (hmap : s'.wdMap = s.wdMap) (hlog : s'.logged = s.logged)
    (hinst : s'.instances = s.instances) (hthreads : s'.threads = s.threads) : Recorded s' := by
  refine h.frame hmap hlog ?_ ?_
  · rw [hinst]
    exact h.instances
  · rw [hthreads]
    exact h.batches

/-- One thread changed. -/
theorem Recorded.setThread (h : Recorded s) (k : Nat) {t : Thread} (terminated : Bool)
    (ht : ∀ e ∈ t.batch, Heard s.logged e.wd) :
    Recorded { s with threads := s.threads.set k t, terminated := terminated } := by
  refine h.frame rfl rfl h.instances fun u hu => ?_
  rcases List.mem_or_eq_of_mem_set hu with hu | rfl
  · exact h.batches u hu
  · exact ht

/-- One instance changed. -/
theorem Recorded.setInstance (h : Recorded s) (i : Nat) {inst : Instance}
    (hok : inst.Ok s.logged) : Recorded { s with instances := s.instances.set i inst } := by
  refine h.frame rfl rfl (fun inst' hinst' => ?_) h.batches
  rcases List.mem_or_eq_of_mem_set hinst' with hinst' | rfl
  · exact h.instances inst' hinst'
  · exact hok

/-! ## `watch` -/

/-- `wd_map` is as it was, or has one more path from a call of `watch`. -/
def Watches (s s' : Process) : Prop :=
  s'.wdMap = s.wdMap ∨ ∃ wd p, 1 ≤ wd ∧ s'.wdMap = Function.update s.wdMap wd (some (some p))

/-- The descriptor is one there is, or the next. -/
theorem addWatch_wd {k k' : Sys} {p : Path} {wd : Int} (h : k.inotifyAddWatch p = some (wd, k')) :
    ((∃ j, k.wdOf j = some wd) ∧ k'.nextWd = k.nextWd) ∨
      (wd = k.nextWd ∧ k'.nextWd = k.nextWd + 1) := by
  obtain ⟨rfl, hfound⟩ | ⟨ino, hwd, rfl⟩ := addWatch_cases h
  · exact Or.inl ⟨hfound, rfl⟩
  · exact Or.inr ⟨hwd, rfl⟩

theorem Recorded.register (h : Recorded s) {m : Nat} {p : Path}
    (hreg : s.register m p = some s') :
    Recorded s' ∧ Watches s s' ∧ ∀ r ∈ s.logged, r ∈ s'.logged := by
  obtain ⟨i, hfd, hreg⟩ := Option.bind_eq_some_iff.mp hreg
  obtain ⟨inst, hinst, hreg⟩ := Option.bind_eq_some_iff.mp hreg
  obtain ⟨⟨wd, k⟩, hadd, rfl⟩ := Option.map_eq_some_iff.mp hreg
  obtain ⟨hqueue, hwds⟩ := addWatch_spec hadd
  have hok := h.instances inst (List.mem_of_getElem? hinst)
  have hlog : ∀ r ∈ s.logged, r ∈ s.logged ++ [⟨m, i, wd, p⟩] :=
    fun r hr => List.mem_append_left _ hr
  have hnew : (⟨m, i, wd, p⟩ : Registration) ∈ s.logged ++ [⟨m, i, wd, p⟩] :=
    List.mem_append_right _ (List.mem_cons_self ..)
  -- a descriptor is old, and was registered, or it is the next
  have hpos : 1 ≤ wd ∧ 1 ≤ k.nextWd := by
    have hnext : 1 ≤ (inst.sys s.fs).nextWd := hok.next
    rcases addWatch_wd hadd with ⟨⟨j, hj⟩, hk⟩ | ⟨hwd, hk⟩
    · obtain ⟨r, hr, hwd⟩ := hok.watches j wd hj
      have hr := h.positive r hr
      omega
    · omega
  refine ⟨⟨fun r hr => ?_, fun v q hv hq => ?_, fun r hr => ?_, fun inst' hinst' => ?_,
    fun t ht e he => (h.batches t ht e he).mono hlog⟩, Or.inr ⟨wd, p, hpos.1, rfl⟩, hlog⟩
  · rcases List.mem_append.mp hr with hr | hr
    · exact h.positive r hr
    · rw [List.mem_singleton.mp hr]
      exact hpos.1
  · dsimp only at hq
    by_cases he : v = wd
    · rw [he, Function.update_self] at hq
      cases hq
      exact ⟨_, hnew, he.symm, rfl⟩
    · rw [Function.update_of_ne he] at hq
      obtain ⟨r, hr, hrest⟩ := h.backed v q hv hq
      exact ⟨r, hlog r hr, hrest⟩
  · dsimp only
    by_cases he : r.wd = wd
    · exact ⟨some p, by rw [he, Function.update_self]⟩
    · rcases List.mem_append.mp hr with hr | hr
      · obtain ⟨q, hq⟩ := h.mapped r hr
        exact ⟨q, by rw [Function.update_of_ne he, hq]⟩
      · rw [List.mem_singleton.mp hr] at he
        exact absurd rfl he
  · rcases List.mem_or_eq_of_mem_set hinst' with hinst' | rfl
    · exact (h.instances inst' hinst').mono hlog
    · refine ⟨hpos.2, fun j w hj => ?_, fun e he => ?_⟩
      · rcases hwds j w hj with hold | rfl
        · exact (hok.mono hlog).watches j w hold
        · exact ⟨_, hnew, rfl⟩
      · have hold : e ∈ (inst.sys s.fs).queue := hqueue ▸ he
        exact (hok.mono hlog).queue e hold

theorem Recorded.callStep (h : Recorded s) (m : Nat) (call : Call) :
    Recorded (s.callStep m call).1 ∧ Watches s (s.callStep m call).1 ∧
      ∀ r ∈ s.logged, r ∈ (s.callStep m call).1.logged := by
  rcases callStep_cases s m call with hsame | ⟨p, hreg⟩
  · rw [hsame]
    exact ⟨h, Or.inl rfl, fun _ => id⟩
  · exact h.register hreg

theorem Recorded.watchStep (h : Recorded s) (k : Nat) (w : Watch) :
    Recorded (s.watchStep k w) ∧ Watches s (s.watchStep k w) := by
  obtain ⟨hrec, hmap, -⟩ := h.callStep w.owner w.call
  unfold Process.watchStep
  split <;> next heq =>
    rw [heq] at hrec hmap
    exact ⟨hrec.rest rfl rfl rfl rfl, hmap⟩

/-! ## The reader -/

/-- Looking up what was heard of enters nothing but -1. -/
theorem Recorded.lookUp (h : Recorded s) {wd : Int} (hheard : Heard s.logged wd) :
    Recorded { s with wdMap := lookUp s.wdMap wd } := by
  by_cases hne : wd = -1
  · have hother : ∀ v, v ≠ -1 → Monitor.lookUp s.wdMap wd v = s.wdMap v := by
      intro v hv
      exact Function.update_of_ne (hne ▸ hv) _ _
    refine ⟨h.positive, fun v p hv hp => ?_, fun r hr => ?_, h.instances, h.batches⟩
    · dsimp only at hp
      rw [hother v hv] at hp
      exact h.backed v p hv hp
    · have hpos := h.positive r hr
      dsimp only
      rw [hother r.wd (by omega)]
      exact h.mapped r hr
  · obtain ⟨p, hp⟩ := h.found hheard hne
    rw [lookUp_of_some hp]
    exact h

/-- Outside a call of `watch` the lookup is all that can change `wd_map`. -/
theorem readerStep_wdMap {t t' : Thread} (hstep : s.readerStep t = some (s', t'))
    (hnot : ∀ c call, t.reader ≠ .watching c call) :
    s'.wdMap = match t.takes with
      | some e => lookUp s.wdMap e.wd
      | none => s.wdMap := by
  cases Process.readerStep_cases hstep with
  | wait _ hb | die _ hb => rw [takes_of_nil hb]
  | take hr hb => rw [takes_of_cons hr hb]
  | enter hr | pass hr | notify hr => rw [takes_of_busy (by rw [hr]; exact nofun)]
  | call hr => exact absurd hr (hnot _ _)

/-- A reader's step leaves registrations, keys and events in order. -/
theorem Recorded.readerStep (h : Recorded s) {t t' : Thread}
    (hbatch : ∀ e ∈ t.batch, Heard s.logged e.wd) (hstep : s.readerStep t = some (s', t')) :
    Recorded s' ∧ ∀ e ∈ t'.batch, Heard s'.logged e.wd := by
  cases Process.readerStep_cases hstep with
  | wait | die | enter | pass => exact ⟨h, hbatch⟩
  | take hr hb =>
    exact ⟨h.lookUp (hbatch _ (by rw [hb]; exact List.mem_cons_self ..)), hbatch⟩
  | call =>
    obtain ⟨hrec, -, hlog⟩ := h.callStep t.owner _
    exact ⟨hrec, fun e he => (hbatch e he).mono hlog⟩
  | notify hr hb =>
    rw [hb] at hbatch
    exact ⟨h.rest rfl rfl rfl rfl, fun e he => hbatch e (List.mem_cons_of_mem _ he)⟩

/-- A reader enters what it looks up, and else no more than a call of `watch` returns. -/
theorem Recorded.readerStep_enters (h : Recorded s) {t t' : Thread}
    (hbatch : ∀ e ∈ t.batch, Heard s.logged e.wd) (hstep : s.readerStep t = some (s', t')) :
    match t.takes with
      | some e => Heard s.logged e.wd ∧ s'.wdMap = Monitor.lookUp s.wdMap e.wd
      | none => Watches s s' := by
  by_cases hnot : ∀ c call, t.reader ≠ .watching c call
  · have hmap := readerStep_wdMap hstep hnot
    cases hl : t.takes with
    | some e =>
      rw [hl] at hmap
      exact ⟨hbatch e (mem_of_takes hl), hmap⟩
    | none =>
      rw [hl] at hmap
      exact Or.inl hmap
  · push Not at hnot
    obtain ⟨c, call, hwatching⟩ := hnot
    rw [takes_of_busy (by rw [hwatching]; exact nofun)]
    cases Process.readerStep_cases hstep with
    | call => exact (h.callStep t.owner _).2.1
    | wait hr | die hr | take hr | enter hr | pass hr | notify hr => cases hwatching.symm.trans hr

theorem Recorded.fill (h : Recorded s) {k n : Nat} {t : Thread}
    (hfill : s.fill k t n = some s') : Recorded s' ∧ s'.wdMap = s.wdMap := by
  obtain ⟨i, -, hfill⟩ := Option.bind_eq_some_iff.mp hfill
  obtain ⟨inst, hinst, hfill⟩ := Option.bind_eq_some_iff.mp hfill
  obtain ⟨-, hfill⟩ := Option.ite_none_right_eq_some.mp hfill
  cases hfill
  have hok := h.instances inst (List.mem_of_getElem? hinst)
  have hrest : Recorded { s with
      instances := s.instances.set i { inst with queue := inst.queue.drop n } } :=
    h.setInstance i ⟨hok.next, hok.watches, fun e he => hok.queue e (List.mem_of_mem_drop he)⟩
  exact ⟨hrest.setThread k _ fun e he => hok.queue e (List.mem_of_mem_take he), rfl⟩

/-! ## The kernel -/

theorem emit_nextWd (k : Sys) (fs : Entry) (ino : Ino) (mask : UInt32) (n : Name) :
    (Sys.emit { k with fs := fs } ino mask n).nextWd = k.nextWd := by
  unfold Sys.emit
  dsimp only
  cases k.wdOf ino <;> rfl

theorem unwatch_nextWd (k : Sys) (behind : Spelling) (old : Option Entry) :
    (k.unwatch behind old).nextWd = k.nextWd := by
  unfold Sys.unwatch
  split
  · split <;> rfl
  · rfl
  · rfl

/-- No operation on the file system makes a watch. -/
theorem apply_nextWd {k k' : Sys} {op : Op} (h : k.apply op = some k') : k'.nextWd = k.nextWd :=
  @apply_closed k k' (fun k k' => k'.nextWd = k.nextWd) (fun _ => rfl) (fun h h' => h'.trans h)
    emit_nextWd unwatch_nextWd op h

theorem Recorded.change (h : Recorded s) {op : Op} (hchange : s.change op = some s') :
    Recorded s' ∧ s'.wdMap = s.wdMap := by
  obtain ⟨k, -, hchange⟩ := Option.bind_eq_some_iff.mp hchange
  obtain ⟨instances, hall, rfl⟩ := Option.map_eq_some_iff.mp hchange
  refine ⟨h.frame rfl rfl (fun inst' hinst' => ?_) h.batches, rfl⟩
  obtain ⟨inst, hinst, heq⟩ :=
    Pairs.exists_of_mem_right (Pairs.mapM_eq_some_iff.mp hall) hinst'
  obtain ⟨k', happly, rfl⟩ := Option.map_eq_some_iff.mp heq
  obtain ⟨hqueue, hwds⟩ := hears_apply happly
  have hok := h.instances inst hinst
  have hnext : k'.instance.nextWd = inst.nextWd := apply_nextWd happly
  refine ⟨by rw [hnext]; exact hok.next, fun j wd hj => hok.watches j wd (hwds j wd hj),
    fun e he => ?_⟩
  rcases hqueue e he with he | ⟨j, hj⟩
  · exact hok.queue e he
  · exact Or.inr (hok.watches j e.wd hj)

/-- What the kernel makes of an instance that is in order. -/
theorem Recorded.kernel (h : Recorded s) {i : Nat} {f : Instance → Option Instance}
    (hf : ∀ inst inst', inst.Ok s.logged → f inst = some inst' → inst'.Ok s.logged)
    (hkernel : s.kernel i f = some s') : Recorded s' ∧ s'.wdMap = s.wdMap := by
  obtain ⟨inst, hinst, hkernel⟩ := Option.bind_eq_some_iff.mp hkernel
  obtain ⟨inst', hinst', rfl⟩ := Option.map_eq_some_iff.mp hkernel
  exact ⟨h.setInstance i (hf inst inst' (h.instances inst (List.mem_of_getElem? hinst)) hinst'), rfl⟩

theorem Instance.Ok.deliver {inst : Instance} {logged : List Registration} (h : inst.Ok logged)
    {e : Event} (he : Heard logged e.wd) : (inst.deliver e).Ok logged := by
  refine ⟨h.next, h.watches, fun e' he' => ?_⟩
  rcases List.mem_append.mp he' with he' | he'
  · exact h.queue e' he'
  · rw [List.mem_singleton.mp he']
    exact he

theorem Instance.Ok.ignore {inst inst' : Instance} {logged : List Registration}
    (h : inst.Ok logged) {ino : Ino} {behind : Spelling}
    (hignore : inst.ignore ino behind = some inst') : inst'.Ok logged := by
  obtain ⟨wd, hwd, rfl⟩ := Option.map_eq_some_iff.mp hignore
  have hrest : Instance.Ok { inst with wdOf := Function.update inst.wdOf ino none } logged := by
    refine ⟨h.next, fun j w hj => ?_, h.queue⟩
    dsimp only at hj
    rw [Function.update_apply] at hj
    split at hj
    · cases hj
    · exact h.watches j w hj
  exact hrest.deliver (Or.inr (h.watches ino wd hwd))

theorem Instance.Ok.overflow {inst : Instance} {logged : List Registration} (h : inst.Ok logged)
    (n : Nat) (behind : Spelling) : (inst.overflow n behind).Ok logged := by
  have hrest : Instance.Ok { inst with queue := inst.queue.take n } logged :=
    ⟨h.next, h.watches, fun e he => h.queue e (List.mem_of_mem_take he)⟩
  exact hrest.deliver (Or.inl rfl)

/-! ## Runs -/

/-- A step of the program: what it looks up is entered, and nothing else but what a call of
`watch` returns. -/
theorem recorded_step {move : Move} (h : Recorded s) (hstep : s.step move = some s') :
    Recorded s' ∧ match s.takes move with
      | some e => Heard s.logged e.wd ∧ s'.wdMap = lookUp s.wdMap e.wd
      | none => Watches s s' := by
  unfold Process.step at hstep
  obtain ⟨-, hstep⟩ := Option.ite_none_left_eq_some.mp hstep
  cases move with
  | construct succeeds =>
    cases hstep
    cases succeeds with
    | false => exact ⟨h.rest rfl rfl rfl rfl, Or.inl rfl⟩
    | true =>
      refine ⟨h.frame rfl rfl (fun inst hinst => ?_) h.batches, Or.inl rfl⟩
      rcases List.mem_append.mp hinst with hinst | hinst
      · exact h.instances inst hinst
      · rw [List.mem_singleton.mp hinst]
        exact ⟨Int.le_refl 1, nofun, List.forall_mem_nil _⟩
  | watch m p =>
    obtain ⟨x, -, rfl⟩ := Option.map_eq_some_iff.mp hstep
    exact ⟨h.rest rfl rfl rfl rfl, Or.inl rfl⟩
  | call k =>
    obtain ⟨w, -, rfl⟩ := Option.map_eq_some_iff.mp hstep
    exact h.watchStep k w
  | readAsync m =>
    obtain ⟨x, -, rfl⟩ := Option.map_eq_some_iff.mp hstep
    refine ⟨h.frame rfl rfl h.instances fun t ht => ?_, Or.inl rfl⟩
    rcases List.mem_append.mp ht with ht | ht
    · exact h.batches t ht
    · rw [List.mem_singleton.mp ht]
      exact List.forall_mem_nil _
  | reader k =>
    obtain ⟨t, hk, hstep⟩ := Option.bind_eq_some_iff.mp hstep
    obtain ⟨⟨s₁, t'⟩, hreader, rfl⟩ := Option.map_eq_some_iff.mp hstep
    have hbatch := h.batches t (List.mem_of_getElem? hk)
    obtain ⟨hrec, hbatch'⟩ := h.readerStep hbatch hreader
    have henters := h.readerStep_enters hbatch hreader
    refine ⟨hrec.setThread k _ hbatch', ?_⟩
    rw [takes_reader hk]
    exact henters
  | fill k n =>
    obtain ⟨t, -, hfill⟩ := Option.bind_eq_some_iff.mp hstep
    obtain ⟨hrec, hmap⟩ := h.fill hfill
    exact ⟨hrec, Or.inl hmap⟩
  | change op =>
    obtain ⟨hrec, hmap⟩ := h.change hstep
    exact ⟨hrec, Or.inl hmap⟩
  | destroy m =>
    obtain ⟨x, -, rfl⟩ := Option.map_eq_some_iff.mp hstep
    have hobjects : Recorded { s with objects := s.objects.set m { x with alive := false } } :=
      h.rest rfl rfl rfl rfl
    unfold Process.destroy
    dsimp only
    split
    · next k _ =>
      unfold Process.deleteThread
      split
      · next t hk =>
        have hbatch := h.batches t (List.mem_of_getElem? hk)
        exact ⟨hobjects.setThread k _ hbatch, Or.inl rfl⟩
      · exact ⟨hobjects, Or.inl rfl⟩
    · exact ⟨hobjects, Or.inl rfl⟩
  | event i e =>
    -- the kernel queues only for a descriptor it has given
    obtain ⟨⟨r, hr, -, hwd⟩, hstep⟩ := Option.ite_none_right_eq_some.mp hstep
    obtain ⟨hrec, hmap⟩ := h.kernel (fun inst inst' hok hinst => by
      cases hinst
      exact hok.deliver (Or.inr ⟨r, hr, hwd⟩)) hstep
    exact ⟨hrec, Or.inl hmap⟩
  | ignored i ino behind =>
    obtain ⟨hrec, hmap⟩ := h.kernel (fun inst inst' hok hinst => hok.ignore hinst) hstep
    exact ⟨hrec, Or.inl hmap⟩
  | overflow i n behind =>
    obtain ⟨hrec, hmap⟩ := h.kernel (fun inst inst' hok hinst => by
      cases hinst
      exact hok.overflow n behind) hstep
    exact ⟨hrec, Or.inl hmap⟩

/-- A key -1 comes from the record of an overflow, and stays. -/
theorem overflow_key {move : Move} (h : Recorded s) (hstep : s.step move = some s') :
    s'.wdMap (-1) = none ↔ s.wdMap (-1) = none ∧ NoOverflow s move := by
  obtain ⟨-, hmap⟩ := recorded_step h hstep
  unfold NoOverflow
  cases htakes : s.takes move with
  | some e =>
    rw [htakes] at hmap
    rw [hmap.2]
    unfold lookUp
    by_cases hwd : e.wd = -1
    · rw [hwd, Function.update_self]
      exact ⟨nofun, fun hno => absurd hwd (hno.2 e rfl)⟩
    · rw [Function.update_of_ne (Ne.symm hwd)]
      exact ⟨fun hnone => ⟨hnone, fun x hx => Option.some.inj hx ▸ hwd⟩, fun hno => hno.1⟩
  | none =>
    rw [htakes] at hmap
    rcases hmap with hsame | ⟨wd, p, hpos, hmap⟩
    · rw [hsame]
      exact ⟨fun hnone => ⟨hnone, nofun⟩, fun hno => hno.1⟩
    · rw [hmap, Function.update_of_ne (by omega)]
      exact ⟨fun hnone => ⟨hnone, nofun⟩, fun hno => hno.1⟩

/-- Every other lookup finds its key. -/
theorem onlyWatches_of_noOverflow {move : Move} (h : Recorded s) (hno : NoOverflow s move) :
    OnlyWatches s move := by
  rintro k t s' rfl hk hnot hstep
  obtain ⟨-, hmap⟩ := recorded_step h hstep
  unfold NoOverflow at hno
  rw [takes_reader hk] at hmap hno
  cases htakes : t.takes with
  | some e =>
    rw [htakes] at hmap hno
    obtain ⟨p, hp⟩ := h.found hmap.1 (hno e rfl)
    rw [hmap.2, lookUp_of_some hp]
  | none =>
    obtain ⟨-, hstep⟩ := Option.ite_none_left_eq_some.mp hstep
    obtain ⟨u, hu, hstep⟩ := Option.bind_eq_some_iff.mp hstep
    obtain ⟨⟨s₁, t'⟩, hreader, rfl⟩ := Option.map_eq_some_iff.mp hstep
    cases hk.symm.trans hu
    have hsame := readerStep_wdMap hreader hnot
    rw [htakes] at hsame
    exact hsame

theorem recorded_start (fs : Entry) : Recorded (.start fs) :=
  ⟨List.forall_mem_nil _, nofun, List.forall_mem_nil _, List.forall_mem_nil _,
    List.forall_mem_nil _⟩

/-- **What `wd_map` holds.** For every run, of any number of monitors: every key is a
descriptor that `inotify_add_watch` returned, with a path it returned it for, and readers
change `wd_map` only by calls of `watch`, if and only if no reader takes the record of a queue
that overflowed. -/
theorem wdMap_registered_iff (fs : Entry) (moves : List Move) (s : Process)
    (hrun : run Process.step (.start fs) moves = some s) :
    s.Registered ∧ Along Process.step OnlyWatches (.start fs) moves ↔
      Along Process.step NoOverflow (.start fs) moves := by
  have hrec : Recorded s :=
    run_invariant (fun h hstep => (recorded_step h hstep).1) (recorded_start fs) hrun
  have hkey : s.wdMap (-1) = none ↔ (Process.start fs).wdMap (-1) = none ∧
      Along Process.step NoOverflow (.start fs) moves :=
    @run_along_iff _ _ Process.step Recorded (fun s => s.wdMap (-1) = none) NoOverflow
      (fun h hstep => (recorded_step h hstep).1) overflow_key _ _ _ (recorded_start fs) hrun
  rw [hrec.registered_iff, hkey]
  constructor
  · exact fun h => h.1.2
  · intro h
    exact ⟨⟨rfl, h⟩, h.imp (fun hs hstep => (recorded_step hs hstep).1) onlyWatches_of_noOverflow
      (recorded_start fs)⟩

/-- A monitor gets an event, the record of a watch that ended and another event of that
watch. The directory of the watch is still there, and the reader watches it again. -/
def lateEvents : List Move :=
  oneMonitor ++ [.event 0 (.named 1 IN_CREATE (ascii "f")), .ignored 0 3 ⟨false, []⟩,
    .event 0 (.named 1 IN_DELETE (ascii "f")), .reader 0, .fill 0 3] ++
    List.replicate 12 (.reader 0)

theorem wdMap_registered_late : ∃ s, run Process.step (.start emptyRoot.tree) lateEvents
    = some s ∧ s.logged.map Registration.wd = [1, 2] ∧ s.Registered :=
  ⟨_, rfl, rfl, ((wdMap_registered_iff emptyRoot.tree lateEvents _ rfl).mpr (by decide +kernel)).1⟩

/-- The reader takes the record of an overflow, and -1 is a key. -/
theorem overflow_enters_key : ¬ ∀ (fs : Entry) (moves : List Move) (s : Process),
    run Process.step (.start fs) moves = some s →
      s.Registered ∧ Along Process.step OnlyWatches (.start fs) moves := by
  intro h
  obtain ⟨hall, -⟩ := h emptyRoot.tree [.construct true, .readAsync 0, .reader 0,
    .overflow 0 0 ⟨false, []⟩, .fill 0 1, .reader 0] _ rfl
  obtain ⟨r, hr, -⟩ := hall (-1) none rfl
  cases hr

end CommonCpp.Monitor
