import CommonCpp.Monitor.Operation
import CommonCpp.Monitor.ReadLoop

/-!
# The reader on bytes does what the reader of the system does

`ReadLoop` has the loop of `_read_async` as it walks a buffer, with paths as
strings; `System` and `Operation` have it as it takes events from a queue, with
paths as lists of elements. `parse` is the abstraction: `append` of
`std::filesystem::path` on strings is `Spelling.under` on what they spell
(`parse_appendName`), whatever the strings are. So a buffer with the records of
the queued events takes the loop to a state that shows what draining the queue
leads to (`readLoop_shows`).
-/

namespace CommonCpp.Fs

/-! ## Names the kernel takes -/

/-- What the kernel takes for the name of an entry. -/
def IsName (n : Name) : Prop := n ≠ [] ∧ 0x2F ∉ n

/-- The sub-directories of a tree have names the kernel takes. -/
def Dir.Names : Dir → Prop
  | .nil => True
  | .leaf _ _ _ rest => rest.Names
  | .dir n _ sub rest => IsName n ∧ sub.Names ∧ rest.Names

def Entry.Names : Entry → Prop
  | .leaf .. => True
  | .dir _ sub => sub.Names

/-- A sub-directory of a tree has such a name, and is such a tree. -/
theorem isName_of_get {d sub : Dir} (hd : d.Names) {n : Name} {i : Ino}
    (h : d.get n = some (.dir i sub)) : IsName n ∧ sub.Names := by
  induction d with
  | nil => cases h
  | leaf m ino link rest ih =>
    unfold Dir.get at h
    split at h
    · cases h
    · exact ih hd h
  | dir m ino sub' rest _ ih =>
    unfold Dir.get at h
    split at h
    · next hmn =>
      cases h
      exact ⟨hmn ▸ hd.1, hd.2.1⟩
    · exact ih hd.2.2 h

theorem names_of_get {n : Name} {d : Dir} {e : Entry} (h : d.Names) (hget : d.get n = some e) :
    e.Names := by
  cases e with
  | leaf => trivial
  | dir i sub => exact (isName_of_get h hget).2

theorem names_of_find {e e' : Entry} {p : Path} (h : e.Names) (hfind : e.find p = some e') :
    e'.Names := by
  induction p generalizing e with
  | nil =>
    rw [find_nil, Option.some.injEq] at hfind
    exact hfind ▸ h
  | cons n p ih =>
    cases e with
    | leaf => cases hfind
    | dir i d =>
      obtain ⟨-, e₁, he₁, hfind⟩ := find_cons_eq_some.mp hfind
      exact ih (names_of_get h he₁) hfind

theorem names_of_openDir {fs : Entry} {p : Path} {i : Ino} {d : Dir} (h : fs.Names)
    (hopen : fs.openDir p = some (i, d)) : d.Names := by
  obtain ⟨q, -, hd⟩ := Option.bind_eq_some_iff.mp hopen
  exact names_of_find h (dirAt_eq_some.mp hd)

end CommonCpp.Fs

namespace CommonCpp.Monitor

open CommonCpp.Fs CommonCpp.Lib

/-! ## Paths as strings -/

/-- The elements of a path. -/
def parse (p : Bytes) : Path := (p.splitOn 0x2F).filter fun n => n ≠ []

/-- What a string stands for where it is found. -/
def spelling (p : Bytes) : Spelling := ⟨isAbsolute p, parse p⟩

theorem parse_append_cons (p q : Bytes) : parse (p ++ 0x2F :: q) = parse p ++ parse q := by
  unfold parse
  rw [List.splitOn_append_cons_self, List.filter_append]

theorem parse_name {n : Bytes} (h : IsName n) : parse n = [n] := by
  unfold parse
  rw [List.splitOn_eq_singleton h.2]
  exact List.filter_cons_of_pos (by simpa using h.1)

/-- `append` puts the name behind the path, unless it is a path from the root itself. -/
theorem parse_appendName (base name : Bytes) :
    parse (appendName base name) = (spelling name).under (parse base) := by
  unfold appendName spelling Spelling.under
  by_cases habs : isAbsolute name = true
  · rw [habs, Bool.true_or, if_pos rfl, if_pos rfl]
  · rw [if_neg habs]
    cases base with
    | nil =>
      rw [List.isEmpty_nil, Bool.or_true, if_pos rfl]
      rfl
    | cons c base =>
      rw [if_neg (by simpa using habs)]
      split
      · next hlast =>
        -- the separator that is there already is the one `parse` splits at
        obtain ⟨front, hfront⟩ := List.getLast?_eq_some_iff.mp hlast
        have hnil : parse [] = [] := rfl
        rw [hfront, List.append_assoc, List.singleton_append, parse_append_cons,
          parse_append_cons, hnil, List.append_nil]
      · exact parse_append_cons _ _

theorem parse_appendName_of_name {n : Bytes} (h : IsName n) (base : Bytes) :
    parse (appendName base n) = parse base ++ [n] := by
  have habs : isAbsolute n = false := by
    unfold isAbsolute
    cases n with
    | nil => rfl
    | cons c n =>
      have hc : c ≠ 0x2F := fun he => h.2 (he ▸ List.mem_cons_self ..)
      simpa using hc
  rw [parse_appendName, spelling, parse_name h, Spelling.under, habs]
  rfl

/-! ## Listing a directory -/

/-- The directories are listed under the paths the strings spell. -/
theorem parse_listing (recursive : Bool) {d : Dir} (h : d.Names) (p : Bytes) :
    (listing appendName recursive 2 p d).map parse = listing Path.append recursive 2 (parse p) d := by
  induction d generalizing p with
  | nil => rfl
  | leaf n ino link rest ih =>
    rw [listing, listing, List.map_append, ih h, if_neg (by simp), if_neg (by simp)]
    rfl
  | dir n ino sub rest ihsub ih =>
    have hpath : parse (appendName p n) = Path.append (parse p) n := parse_appendName_of_name h.1 p
    have hsub := ihsub h.2.1 (appendName p n)
    rw [hpath] at hsub
    rw [listing, listing, List.map_append, ih h.2.2]
    congr 1
    split
    · rfl
    · have hfilter : (2 : Int) ≠ 1 := by decide
      rw [List.map_append, if_pos hfilter, if_pos hfilter, List.map_singleton, hpath]
      split
      · rw [hsub]
      · rfl

/-! ## `watch` on strings -/

/-- `paths` of `watch(path)`, once `find_files` has run. -/
def pathsToWatch (fs : Entry) (p : Bytes) : Option (List Bytes) :=
  match fs.openDir (parse p) with
  | none => none
  | some (_, d) =>
    match findFiles appendName (fun _ => true) true 2 p d ⟨[p], []⟩ with
    | .ok scan => some scan.files
    | .error _ => none

/-- The loop of `watch`, with the entries it makes in `wd_map`. -/
def registerPaths : Sys → List Bytes → Option (List (Int32 × Bytes) × Sys)
  | s, [] => some ([], s)
  | s, p :: ps =>
    (s.inotifyAddWatch (parse p)).bind fun (wd, s) =>
      (registerPaths s ps).map fun (entries, s) => ((Int32.ofInt wd, p) :: entries, s)

/-- What the loop on bytes calls. An exception out of `watch` ends the process. -/
def Sys.world : World Sys where
  isDirectory s p := (s.fs.isDirectory (parse p), s)
  watch s p := ((pathsToWatch s.fs p).bind (registerPaths s)).getD ([], s)

/-- The same file system and the same watches. -/
structure SameKernel (s k : Sys) : Prop where
  fs : k.fs = s.fs
  wdOf : k.wdOf = s.wdOf
  nextWd : k.nextWd = s.nextWd

/-- Descriptors count up from 1. -/
structure Numbered (s : Sys) : Prop where
  pos : 0 < s.nextWd
  wdOf : ∀ {i wd}, s.wdOf i = some wd → 0 < wd ∧ wd < s.nextWd

/-- The entries of `wd_map`, with their strings parsed. -/
def ShowsMap (t : ReadState Sys) (s : Sys) : Prop :=
  ∀ wd : Int32, (t.wdMap wd).map parse = s.wdMap wd.toInt

variable {s s' k : Sys} {t : ReadState Sys}

theorem Registered.nextWd_le {p : Path} {i : Ino} {wd : Int} (h : Registered s p i wd s') :
    s.nextWd ≤ s'.nextWd := by
  rcases h.old_or_new with ⟨-, -, hn⟩ | ⟨-, -, -, hn⟩ <;> omega

theorem Registered.numbered {p : Path} {i : Ino} {wd : Int} (h : Registered s p i wd s')
    (hs : Numbered s) : Numbered s' := by
  have hpos := hs.pos
  have hle := h.nextWd_le
  refine ⟨by omega, fun {j w} hj => ?_⟩
  rcases h.wdOf_cases hj with hj | ⟨-, rfl⟩
  · have hw := hs.wdOf hj
    omega
  · rcases h.old_or_new with ⟨ho, -⟩ | ⟨-, hw, -, hn⟩
    · have hw := hs.wdOf ho
      omega
    · omega

theorem Registered.sameKernel {p : Path} {i : Ino} {wd : Int} (h : Registered s p i wd s')
    (hi : inodeOf s.fs p = some i) (hk : SameKernel s k) :
    ∃ k', k.inotifyAddWatch p = some (wd, k') ∧ SameKernel s' k' := by
  unfold Sys.inotifyAddWatch
  rw [hk.fs, hi, Option.map_some, hk.wdOf]
  rcases h.old_or_new with ⟨ho, hwd, hn⟩ | ⟨hnone, hw, hwd, hn⟩
  · rw [ho]
    exact ⟨k, rfl, hk.fs.trans h.fs.symm, hk.wdOf.trans hwd.symm, hk.nextWd.trans hn.symm⟩
  · rw [hnone, hk.nextWd, ← hw, ← hwd]
    refine ⟨_, rfl, h.fs.symm, rfl, ?_⟩
    show wd + 1 = s'.nextWd
    omega

theorem toInt_ofInt {wd : Int} (hpos : 0 < wd) (hlt : wd < 2147483648) :
    (Int32.ofInt wd).toInt = wd :=
  Int32.toInt_ofInt_of_le (by omega) (by omega)

/-- Entering a path for a descriptor, on either side. -/
theorem ShowsMap.assign (h : ShowsMap t s) {wd : Int} (hwd : (Int32.ofInt wd).toInt = wd)
    (p : Bytes) (hmap : s'.wdMap = Function.update s.wdMap wd (some (parse p))) :
    ShowsMap (t.assign (Int32.ofInt wd, p)) s' := by
  intro w
  rw [hmap]
  show (Function.update t.wdMap (Int32.ofInt wd) (some p) w).map parse = _
  by_cases hw : w = Int32.ofInt wd
  · rw [hw, hwd, Function.update_self, Function.update_self]
    rfl
  · have hne : w.toInt ≠ wd := fun he => hw (Int32.toInt_inj.mp (he.trans hwd.symm))
    rw [Function.update_of_ne hw, Function.update_of_ne hne]
    exact h w

/-- What is the same in every state the reader alone leads to. -/
structure Reads (s s' : Sys) : Prop where
  fs : s'.fs = s.fs
  nextWd : s.nextWd ≤ s'.nextWd
  numbered : Numbered s'

theorem Reads.trans {s₁ : Sys} (h : Reads s s₁) (h' : Reads s₁ s') : Reads s s' :=
  ⟨h'.fs.trans h.fs, Int.le_trans h.nextWd h'.nextWd, h'.numbered⟩

theorem foldlM_reads {ps : List Path} (hn : Numbered s)
    (h : ps.foldlM Sys.register s = some s') : Reads s s' ∧ s'.seen = s.seen := by
  induction ps generalizing s with
  | nil =>
    cases h
    exact ⟨⟨rfl, Int.le_refl _, hn⟩, rfl⟩
  | cons p ps ih =>
    rw [List.foldlM_cons] at h
    obtain ⟨s₁, hs₁, h⟩ := Option.bind_eq_some_iff.mp h
    obtain ⟨i, wd, hi, hreg⟩ := register_cases hs₁
    have hn₁ := hreg.numbered hn
    obtain ⟨hr, hseen⟩ := ih hn₁ h
    exact ⟨Reads.trans ⟨hreg.fs, hreg.nextWd_le, hn₁⟩ hr, hseen.trans hreg.seen⟩

theorem descend_reads {p : Path} (hn : Numbered s) (h : s.descend p = some s') : Reads s s' := by
  unfold Sys.descend at h
  split at h
  · unfold Sys.watch at h
    split at h
    · exact (foldlM_reads hn h).1
    · cases h
  · cases h
    exact ⟨rfl, Int.le_refl _, hn⟩

theorem handle_reads {e : Event} (hn : Numbered s) (h : s.handle e = some s') : Reads s s' := by
  obtain ⟨u, hu, rfl⟩ := Option.map_eq_some_iff.mp h
  have hr := descend_reads (s := s.take e s.queue.tail) ⟨hn.pos, hn.wdOf⟩ hu
  exact ⟨hr.fs, hr.nextWd, hr.numbered.pos, hr.numbered.wdOf⟩

theorem run_reads {es : List Event} (hn : Numbered s) (h : run Sys.handle s es = some s') :
    Reads s s' := by
  have hstep : ∀ {u e u'}, Reads s u → u.handle e = some u' → Reads s u' := fun hu hs =>
    hu.trans (handle_reads hu.numbered hs)
  exact run_invariant hstep ⟨rfl, Int.le_refl _, hn⟩ h

/-- Registering a list of paths given as strings. -/
theorem registerPaths_shows {ps : List Bytes} (hn : Numbered s) (hk : SameKernel s k)
    (h : (ps.map parse).foldlM Sys.register s = some s') (hlt : s'.nextWd ≤ 2147483648) :
    ∃ entries k', registerPaths k ps = some (entries, k') ∧ SameKernel s' k' ∧
      ∀ t : ReadState Sys, ShowsMap t s → ShowsMap (entries.foldl ReadState.assign t) s' := by
  induction ps generalizing s k with
  | nil =>
    cases h
    exact ⟨[], k, rfl, hk, fun t ht => ht⟩
  | cons p ps ih =>
    rw [List.map_cons, List.foldlM_cons] at h
    obtain ⟨s₁, hs₁, h⟩ := Option.bind_eq_some_iff.mp h
    obtain ⟨i, wd, hi, hreg⟩ := register_cases hs₁
    obtain ⟨k₁, hadd, hk₁⟩ := hreg.sameKernel hi hk
    have hn₁ := hreg.numbered hn
    obtain ⟨entries, k', hrest, hk', hmap⟩ := ih hn₁ hk₁ h
    have hwd : (Int32.ofInt wd).toInt = wd := by
      have hrange := hn₁.wdOf hreg.wdOf_self
      have hle := (foldlM_reads hn₁ h).1.nextWd
      exact toInt_ofInt hrange.1 (by omega)
    refine ⟨(Int32.ofInt wd, p) :: entries, k', ?_, hk', fun t ht => ?_⟩
    · rw [registerPaths, hadd, Option.bind_some]
      dsimp only
      rw [hrest]
      rfl
    · exact hmap _ (ht.assign hwd p hreg.map)

theorem pathsToWatch_eq {fs : Entry} (h : fs.Names) {p : Bytes} {ps : List Path}
    (hps : listPaths fs (parse p) = .adding ps) :
    ∃ qs, pathsToWatch fs p = some qs ∧ qs.map parse = ps := by
  cases hopen : fs.openDir (parse p) with
  | none =>
    simp only [listPaths, hopen] at hps
    cases hps
  | some x =>
    obtain ⟨i, d⟩ := x
    have ho : Openable Path.append (fun _ => true) (parse p) d := openable_true (parse p) d
    have ho' : Openable appendName (fun _ => true) p d := openable_true p d
    obtain ⟨calls, hlist⟩ := findFiles_ok true 2 rfl ho ⟨[parse p], []⟩
    obtain ⟨calls', hlist'⟩ := findFiles_ok true 2 rfl ho' ⟨[p], []⟩
    simp only [listPaths, hopen, hlist, Call.adding.injEq] at hps
    refine ⟨[p] ++ listing appendName true 2 p d, ?_, ?_⟩
    · simp only [pathsToWatch, hopen, hlist']
    · rw [← hps, List.map_append, parse_listing true (names_of_openDir h hopen)]
      rfl

/-! ## One record -/

/-- The event a record stands for, given what follows it in the buffer. -/
def Record.event (e : Record) (following : Bytes) : Event :=
  ⟨e.wd.toInt, e.mask, if e.name = [] then none else some e.ownName, spelling (cStr following)⟩

/-- The events of the records in a buffer. -/
def events : List Record → Bytes → List Event
  | [], _ => []
  | e :: rest, beyond =>
    e.event (rest.flatMap Record.encode ++ beyond) :: events rest beyond

/-- A change with its path parsed. -/
def parsed (c : Change Bytes) : Change Path := ⟨c.ct, parse c.path⟩

/-- The state of the loop on bytes shows that of the system. -/
structure Shows (t : ReadState Sys) (s : Sys) : Prop where
  kernel : SameKernel s t.world
  map : ShowsMap t s
  seen : t.seen.map parsed = s.seen

theorem ShowsMap.lookup (h : ShowsMap t s) (wd : Int32) :
    parse (t.lookup wd) = s.lookup wd.toInt := by
  unfold ReadState.lookup Sys.lookup
  rw [← h wd]
  cases t.wdMap wd <;> rfl

/-- The change built from the bytes is the one built for the event. -/
theorem ShowsMap.changeOf (h : ShowsMap t s) {e : Record} (hname : e.name ≠ [] → IsName e.ownName)
    (following : Bytes) :
    parsed (t.changeOf e.wd e.mask (cStr (e.name ++ following))) = s.changeOf (e.event following) := by
  unfold ReadState.changeOf Sys.changeOf parsed Record.event Event.fullPath
  dsimp only
  rw [← h.lookup]
  by_cases hnil : e.name = []
  · rw [if_pos hnil, hnil, List.nil_append, parse_appendName]
  · rw [if_neg hnil, (cStr_name_append hnil following).2, parse_appendName_of_name (hname hnil)]

/-- Reading `wd_map` enters the key on either side. -/
theorem ShowsMap.enterKey (h : ShowsMap t s) (wd : Int32)
    (hmap : s'.wdMap = Function.update s.wdMap wd.toInt (some (s.lookup wd.toInt))) :
    ShowsMap (t.enterKey wd) s' := by
  intro w
  rw [hmap]
  show (Function.update t.wdMap wd (some (t.lookup wd)) w).map parse = _
  by_cases hw : w = wd
  · rw [hw, Function.update_self, Function.update_self, ← h.lookup]
    rfl
  · have hne : w.toInt ≠ wd.toInt := fun he => hw (Int32.toInt_inj.mp he)
    rw [Function.update_of_ne hw, Function.update_of_ne hne]
    exact h w

theorem foldl_assign_world (entries : List (Int32 × Bytes)) (t : ReadState Sys) :
    (entries.foldl ReadState.assign t).world = t.world := by
  induction entries generalizing t with
  | nil => rfl
  | cons entry entries ih => rw [List.foldl_cons, ih]; rfl

theorem descend_true {σ : Type} {w : World σ} {t : ReadState σ} {p : Bytes}
    {entries : List (Int32 × Bytes)} {world world' : σ}
    (hdir : w.isDirectory t.world p = (true, world)) (hwatch : w.watch world p = (entries, world')) :
    t.descend w p = entries.foldl ReadState.assign { t with world := world' } := by
  simp only [ReadState.descend, hdir, hwatch]

theorem descend_false {σ : Type} {w : World σ} {t : ReadState σ} {p : Bytes} {world : σ}
    (hdir : w.isDirectory t.world p = (false, world)) :
    t.descend w p = { t with world := world } := by
  unfold ReadState.descend
  rw [hdir]

/-- A call of `watch`, by the application or by the reader. -/
theorem watch_shows {p : Bytes} (hn : Numbered s) (hnames : s.fs.Names) (ht : Shows t s)
    (h : s.watch (parse p) = some s') (hlt : s'.nextWd ≤ 2147483648) :
    ∃ entries k', Sys.world.watch t.world p = (entries, k') ∧
      Shows (entries.foldl ReadState.assign { t with world := k' }) s' := by
  unfold Sys.watch at h
  split at h
  · next ps hps =>
    obtain ⟨qs, hqs, rfl⟩ := pathsToWatch_eq hnames hps
    obtain ⟨entries, k', hreg, hk', hmap⟩ := registerPaths_shows hn ht.kernel h hlt
    refine ⟨entries, k', ?_, ?_, hmap _ ht.map, ?_⟩
    · show ((pathsToWatch t.world.fs p).bind (registerPaths t.world)).getD ([], t.world) = _
      rw [ht.kernel.fs, hqs, Option.bind_some, hreg]
      rfl
    · rw [foldl_assign_world]
      exact hk'
    · rw [seen_foldl_assign, (foldlM_reads hn h).2]
      exact ht.seen
  · cases h

theorem descend_shows {p : Bytes} {q : Path} (hq : parse p = q) (hn : Numbered s)
    (hnames : s.fs.Names) (ht : Shows t s) (h : s.descend q = some s')
    (hlt : s'.nextWd ≤ 2147483648) : Shows (t.descend Sys.world p) s' := by
  subst hq
  have hdir : Sys.world.isDirectory t.world p = (s.fs.isDirectory (parse p), t.world) := by
    rw [← ht.kernel.fs]
    rfl
  unfold Sys.descend at h
  split at h
  · next hd =>
    rw [hd] at hdir
    obtain ⟨entries, k', hwatch, hshows⟩ := watch_shows hn hnames ht h hlt
    rw [descend_true hdir hwatch]
    exact hshows
  · next hd =>
    cases h
    rw [Bool.eq_false_iff.mpr hd] at hdir
    rw [descend_false hdir]
    exact ⟨ht.kernel, ht.map, ht.seen⟩

/-- What the loop does for a record is what handling its event does. -/
theorem handle_shows {e : Record} {following : Bytes} (hname : e.name ≠ [] → IsName e.ownName)
    (hn : Numbered s) (hnames : s.fs.Names) (ht : Shows t s)
    (h : s.handle (e.event following) = some s') (hlt : s'.nextWd ≤ 2147483648) :
    Shows (t.handle Sys.world e.wd e.mask (cStr (e.name ++ following))) s' := by
  obtain ⟨u, hu, rfl⟩ := Option.map_eq_some_iff.mp h
  have hchange := ht.map.changeOf hname following
  have htake : Shows (t.enterKey e.wd) (s.take (e.event following) s.queue.tail) :=
    ⟨⟨ht.kernel.fs, ht.kernel.wdOf, ht.kernel.nextWd⟩, ht.map.enterKey e.wd rfl, ht.seen⟩
  have hshows := descend_shows (congrArg Change.path hchange)
    (s := s.take (e.event following) s.queue.tail) ⟨hn.pos, hn.wdOf⟩ hnames htake hu hlt
  have hk := hshows.kernel
  refine ⟨⟨hk.fs, hk.wdOf, hk.nextWd⟩, hshows.map, ?_⟩
  show (_ ++ [_]).map parsed = u.seen ++ [s.changeOf (e.event following)]
  rw [List.map_append, List.map_singleton, hchange, hshows.seen]

/-! ## One read -/

theorem walk_shows {records : List Record} {beyond : Bytes}
    (hnamed : ∀ e ∈ records, e.name ≠ [] → IsName e.ownName) (hnul : 0 ∈ beyond)
    (hn : Numbered s) (hnames : s.fs.Names) (ht : Shows t s)
    (h : run Sys.handle s (events records beyond) = some s') (hlt : s'.nextWd ≤ 2147483648) :
    ∃ t', walk Sys.world t records beyond = some t' ∧ Shows t' s' := by
  induction records generalizing s t with
  | nil =>
    cases h
    exact ⟨t, rfl, ht⟩
  | cons e rest ih =>
    obtain ⟨s₁, hs₁, h⟩ := run_cons_eq_some.mp h
    have hmem : 0 ∈ e.name ++ (rest.flatMap Record.encode ++ beyond) :=
      List.mem_append_right _ (List.mem_append_right _ hnul)
    have hr := handle_reads hn hs₁
    have hle := (run_reads hr.numbered h).nextWd
    have ht₁ := handle_shows (hnamed e (List.mem_cons_self ..)) hn hnames ht hs₁ (by omega)
    obtain ⟨t', hwalk, ht'⟩ := ih (fun e' he' => hnamed e' (List.mem_cons_of_mem _ he'))
      hr.numbered (hr.fs ▸ hnames) ht₁ h
    refine ⟨t', ?_, ht'⟩
    rw [walk, if_pos hmem]
    exact hwalk

/-- **The reader on bytes.** Let the buffer hold the records of the queued events,
with a NUL somewhere behind them. When the reader of the system can drain its
queue, the loop on bytes walks the buffer to its end and shows the same `wd_map`,
the same watches and the same calls of `onchange`. -/
theorem readLoop_shows (f : Filled) (hnamed : ∀ e ∈ f.records, e.name ≠ [] → IsName e.ownName)
    (hnul : 0 ∈ f.beyond) (hn : Numbered s) (hnames : s.fs.Names) (ht : Shows t s)
    (hqueue : s.queue = events f.records f.beyond) (h : s.drain = some s')
    (hlt : s'.nextWd ≤ 2147483648) :
    ∃ fuel t', readLoop Sys.world f.buffer f.r fuel 0 t = some (f.r, t') ∧ Shows t' s' := by
  unfold Sys.drain at h
  rw [hqueue] at h
  obtain ⟨t', hwalk, ht'⟩ := walk_shows hnamed hnul hn hnames ht h hlt
  obtain ⟨fuel, hloop⟩ := (readLoop_iff_walk Sys.world t t' f).mpr hwalk
  exact ⟨fuel, t', hloop, ht'⟩

/-! ## A run on bytes -/

/-- Before the first call of `watch` nothing has to be shown. -/
theorem start_shows (fs : Entry) :
    Numbered (Sys.start fs) ∧ Shows ⟨fun _ => none, Sys.start fs, []⟩ (Sys.start fs) := by
  refine ⟨⟨Int.one_pos, fun hw => by cases hw⟩, ⟨rfl, rfl, rfl⟩, fun _ => rfl, rfl⟩

theorem Applied.numbered {op : Op} (h : Applied s op s') (hn : Numbered s) : Numbered s' :=
  ⟨h.nextWd ▸ hn.pos, fun hw => h.nextWd ▸ hn.wdOf (h.watches hw)⟩

/-- An operation of another process is seen by the program in its next calls only. -/
theorem Applied.shows {op : Op} (h : Applied s op s') (ht : Shows t s) :
    Shows { t with world := s' } s' := by
  refine ⟨⟨rfl, rfl, rfl⟩, fun wd => ?_, ?_⟩
  · rw [h.wdMap]
    exact ht.map wd
  · rw [h.seen]
    exact ht.seen

/-- One operation of another process, and one read of what it queued. -/
theorem opStep_shows {root : Path} {op : Op} {u : Sys} (f : Filled)
    (hnamed : ∀ e ∈ f.records, e.name ≠ [] → IsName e.ownName) (hnul : 0 ∈ f.beyond)
    (hs : Wired s) (hn : Numbered s) (ht : Shows t s) (hop : s.apply op = some u)
    (hnames : u.fs.Names) (hqueue : u.queue = events f.records f.beyond)
    (h : opStep root s op = some s') (hlt : s'.nextWd ≤ 2147483648) :
    ∃ fuel t', readLoop Sys.world f.buffer f.r fuel 0 { t with world := u } = some (f.r, t') ∧
      Shows t' s' := by
  obtain ⟨-, h⟩ := Option.ite_none_right_eq_some.mp h
  rw [hop, Option.bind_some] at h
  have happly := apply_cases hs hop
  exact readLoop_shows f hnamed hnul (happly.numbered hn) hnames (happly.shows ht) hqueue h hlt

end CommonCpp.Monitor
