import CommonCpp.Files.Enumeration
import CommonCpp.Monitor.Mirror

/-!
# Following the tree from the bytes that are read

`mirrored` is about events and paths. Here the program is the one that runs: a buffer is
read record by record, `wd_map` and the changes have strings, and what the listener starts
from is the vector `find_files` leaves. It does for each operation what the system of
events and paths does (`byteStep_shows`), so a listener that compares paths as
`std::filesystem::path` does keeps the right list (`mirrored_bytes`).

The events in the buffer need not be those of the system to the letter: what stands
behind the name of a record is not looked at (`handle_plain`).
-/

namespace CommonCpp.Files

open CommonCpp.Fs CommonCpp.Lib CommonCpp.Monitor

/-! ## Names in a changing tree -/

/-- Every name in the tree is one the kernel takes. -/
def EntryNamed : Entry → Prop
  | .leaf .. => True
  | .dir _ sub => Named sub

theorem named_cons_iff {n : Name} {e : Entry} {d : Dir} :
    Named (d.cons n e) ↔ (IsName n ∧ NulFree n) ∧ EntryNamed e ∧ Named d := by
  cases e with
  | leaf => exact and_congr_right fun _ => (and_iff_right trivial).symm
  | dir => exact Iff.rfl

theorem names_of_named {d : Dir} (h : Named d) : d.Names := by
  induction d with
  | nil => trivial
  | leaf n ino link rest ih => exact ih h.2
  | dir n ino sub rest ihsub ih => exact ⟨h.1.1, ihsub h.2.1, ih h.2.2⟩

theorem entryNames_of_named {e : Entry} (h : EntryNamed e) : e.Names := by
  cases e with
  | leaf => trivial
  | dir ino sub => exact names_of_named h

theorem named_add {n : Name} {e : Entry} (hn : IsName n ∧ NulFree n) (he : EntryNamed e) (pos : Nat)
    {d : Dir} (hd : Named d) : Named (d.add n e pos) := by
  induction pos generalizing d with
  | zero => exact named_cons_iff.mpr ⟨hn, he, hd⟩
  | succ pos ih =>
    induction d using Dir.cons_induction with
    | nil => exact named_cons_iff.mpr ⟨hn, he, hd⟩
    | cons m x rest _ =>
      obtain ⟨hm, hx, hd⟩ := named_cons_iff.mp hd
      rw [add_cons]
      exact named_cons_iff.mpr ⟨hm, hx, ih hd⟩

theorem named_remove (n : Name) {d : Dir} (hd : Named d) : Named (d.remove n) := by
  induction d using Dir.cons_induction with
  | nil => trivial
  | cons m x rest ih =>
    obtain ⟨hm, hx, hd⟩ := named_cons_iff.mp hd
    rw [remove_cons]
    split
    · exact ih hd
    · exact named_cons_iff.mpr ⟨hm, hx, ih hd⟩

theorem named_modify (n : Name) {f : Dir → Dir} (hf : ∀ {sub}, Named sub → Named (f sub)) {d : Dir}
    (hd : Named d) : Named (d.modify n f) := by
  induction d using Dir.cons_induction with
  | nil => trivial
  | cons m x rest ih =>
    obtain ⟨hm, hx, hd⟩ := named_cons_iff.mp hd
    rw [modify_cons]
    refine named_cons_iff.mpr ⟨hm, ?_, ih hd⟩
    split
    · cases x with
      | leaf => exact hx
      | dir ino sub => exact hf hx
    · exact hx

theorem named_modifyAt {f : Dir → Dir} (hf : ∀ {sub}, Named sub → Named (f sub)) (p : Path)
    {e : Entry} (he : EntryNamed e) : EntryNamed (e.modifyAt f p) := by
  have hdir : ∀ {d : Dir}, Named d → Named (Dir.modifyAt f p d) := by
    induction p with
    | nil => exact hf
    | cons n p ih => exact named_modify n ih
  cases e with
  | leaf => exact he
  | dir ino sub => exact hdir he

theorem named_get {d : Dir} {n : Name} {x : Entry} (hd : Named d) (h : d.get n = some x) :
    EntryNamed x := by
  induction d using Dir.cons_induction with
  | nil => cases h
  | cons m y rest ih =>
    obtain ⟨-, hy, hd⟩ := named_cons_iff.mp hd
    rw [get_cons] at h
    split at h
    · cases h
      exact hy
    · exact ih hd h

theorem named_find {e x : Entry} {p : Path} (he : EntryNamed e) (h : e.find p = some x) :
    EntryNamed x := by
  induction p generalizing e with
  | nil =>
    rw [find_nil, Option.some.injEq] at h
    rwa [← h]
  | cons n p ih =>
    cases e with
    | leaf => cases h
    | dir ino d =>
      obtain ⟨-, y, hy, h⟩ := find_cons_eq_some.mp h
      exact ih (named_get he hy) h

end CommonCpp.Files

namespace CommonCpp.Monitor

open CommonCpp.Fs CommonCpp.Files CommonCpp.Lib

/-- An operation that uses names the kernel takes. -/
def Op.Named (op : Op) : Prop := ∀ x ∈ op.places, IsName x.name ∧ NulFree x.name

instance (op : Op) : Decidable op.Named :=
  have (n : Name) : Decidable (IsName n) := inferInstanceAs (Decidable (n ≠ [] ∧ 0x2F ∉ n))
  inferInstanceAs (Decidable (∀ x ∈ op.places, IsName x.name ∧ NulFree x.name))

variable {root : Path} {s u k : Sys} {op : Op}

/-- No operation brings in another name. -/
theorem named_apply (hop : op.Named) (hs : EntryNamed s.fs) (h : s.apply op = some u) :
    EntryNamed u.fs := by
  have hmake (new : Entry) (hnew : EntryNamed new) {dir : Path} {pos : Nat} {n : Name}
      {mask : UInt32} (hn : IsName n ∧ NulFree n) (h : s.make dir pos n new mask = some u) :
      EntryNamed u.fs := by
    obtain ⟨-, -, ino, sub, -, rfl⟩ := make_cases h
    rw [(emit_fields _ ino mask n).1]
    exact named_modifyAt (named_add hn hnew pos) dir hs
  cases op with
  | mkdir dir pos n ino =>
    obtain ⟨-, h⟩ := Option.ite_none_right_eq_some.mp h
    exact hmake (.dir ino .nil) trivial (hop _ (List.mem_singleton_self _)) h
  | create dir pos n ino =>
    obtain ⟨-, h⟩ := Option.ite_none_right_eq_some.mp h
    exact hmake (.leaf ino none) trivial (hop _ (List.mem_singleton_self _)) h
  | symlink dir pos n ino target =>
    obtain ⟨-, h⟩ := Option.ite_none_right_eq_some.mp h
    exact hmake (.leaf ino (some target)) trivial (hop _ (List.mem_singleton_self _)) h
  | delete dir n behind early =>
    obtain ⟨ino, sub, -, hfs⟩ := delete_tree h
    rw [hfs]
    exact named_modifyAt (named_remove n) dir hs
  | modify dir n => exact (modify_tree h).symm ▸ hs
  | rename src n dst pos m behind =>
    obtain ⟨e, hmove, hfs⟩ := rename_tree h
    have hm : IsName m ∧ NulFree m :=
      hop ⟨dst, m, IN_MOVED_TO⟩ (List.mem_cons_of_mem _ (List.mem_singleton_self _))
    rw [hfs]
    exact named_modifyAt (named_add hm (named_find hs hmove.entry) pos) dst
      (named_modifyAt (named_remove m) dst (named_modifyAt (named_remove n) src hs))

/-! ## The kernel's part of the state -/

/-- The program's part of the state is that of `k`. -/
def Sys.recall (s k : Sys) : Sys :=
  { s with wdMap := k.wdMap, main := k.main, reader := k.reader, seen := k.seen }

@[simp] theorem recall_fs (s k : Sys) : (s.recall k).fs = s.fs := rfl

theorem emit_recall (s k : Sys) (ino : Ino) (mask : UInt32) (n : Name) :
    (s.recall k).emit ino mask n = (s.emit ino mask n).recall k := by
  unfold Sys.emit Sys.recall
  dsimp only
  cases s.wdOf ino <;> rfl

theorem unwatch_recall (s k : Sys) (behind : Spelling) (old : Option Entry) :
    (s.recall k).unwatch behind old = (s.unwatch behind old).recall k := by
  cases old with
  | none => rfl
  | some e =>
    cases e with
    | leaf => rfl
    | dir ino sub =>
      unfold Sys.unwatch Sys.recall
      dsimp only
      cases s.wdOf ino <;> rfl

theorem make_recall (s k : Sys) (dir : Path) (pos : Nat) (n : Name) (new : Entry) (mask : UInt32) :
    (s.recall k).make dir pos n new mask = (s.make dir pos n new mask).map (Sys.recall · k) := by
  unfold Sys.make
  rw [recall_fs]
  cases s.fs.dirAt dir with
  | none => rfl
  | some x =>
    dsimp only
    rw [apply_ite (Option.map (Sys.recall · k))]
    exact if_congr Iff.rfl (congrArg some (emit_recall { s with fs := _ } k ..)) rfl

/-- An operation does not look at the program's part. -/
theorem apply_recall (s k : Sys) (op : Op) :
    (s.recall k).apply op = (s.apply op).map (Sys.recall · k) := by
  cases op with
  | mkdir dir pos n ino | create dir pos n ino | symlink dir pos n ino target =>
    unfold Sys.apply
    dsimp only
    rw [apply_ite (Option.map (Sys.recall · k)), make_recall]
    rfl
  | delete dir n behind early =>
    -- whether an operation is possible depends on the tree alone
    show Sys.delete _ _ _ _ _ = (Sys.delete _ _ _ _ _).map _
    unfold Sys.delete
    rw [recall_fs]
    cases s.fs.dirAt dir with
    | none => rfl
    | some x =>
      cases s.fs.find (dir ++ [n]) with
      | none => rfl
      | some e =>
        dsimp only
        rw [apply_ite (Option.map (Sys.recall · k)), apply_ite (Option.map (Sys.recall · k))]
        refine if_congr Iff.rfl (if_congr Iff.rfl (congrArg some ?_) (congrArg some ?_)) rfl
        · rw [unwatch_recall]
          exact emit_recall { s.unwatch behind (some e) with fs := _ } k ..
        · show Sys.unwatch (Sys.emit (Sys.recall { s with fs := _ } k) _ _ _) _ _ = Sys.recall _ k
          rw [emit_recall, unwatch_recall]
          rfl
  | modify dir n =>
    show Sys.modify _ _ _ = (Sys.modify _ _ _).map _
    unfold Sys.modify
    rw [recall_fs]
    cases s.fs.dirAt dir with
    | none => rfl
    | some x =>
      cases s.fs.find (dir ++ [n]) with
      | none => rfl
      | some e =>
        cases e with
        | dir => rfl
        | leaf j link =>
          cases link with
          | some => rfl
          | none =>
            dsimp only
            rw [emit_recall, Option.map_some, apply_ite (Sys.recall · k)]
            rfl
  | rename src n dst pos m behind =>
    show Sys.rename _ _ _ _ _ _ _ = (Sys.rename _ _ _ _ _ _ _).map _
    unfold Sys.rename
    rw [recall_fs]
    cases s.fs.dirAt src with
    | none => rfl
    | some x =>
      cases s.fs.find (src ++ [n]) with
      | none => rfl
      | some e =>
        cases s.fs.dirAt dst with
        | none => rfl
        | some y =>
          dsimp only
          rw [apply_ite (Option.map (Sys.recall · k))]
          refine if_congr Iff.rfl (congrArg some ?_) rfl
          show Sys.unwatch (Sys.emit (Sys.emit (Sys.recall { s with fs := _ } k) _ _ _) _ _ _) _ _
            = Sys.recall _ k
          rw [emit_recall, emit_recall, unwatch_recall]
          rfl

/-- Over the same kernel an operation does the same. -/
theorem SameKernel.apply (hk : SameKernel s k) (hqueue : k.queue = s.queue)
    (h : s.apply op = some u) :
    ∃ k', k.apply op = some k' ∧ SameKernel u k' ∧ k'.queue = u.queue := by
  have heq : k = s.recall k := by
    obtain ⟨fs, wdOf, nextWd, queue, wdMap, main, reader, seen⟩ := k
    obtain ⟨rfl, rfl, rfl⟩ := hk
    cases hqueue
    rfl
  refine ⟨u.recall k, ?_, ⟨rfl, rfl, rfl⟩, rfl⟩
  rw [heq, apply_recall, h]
  rfl

/-! ## One read -/

/-- The event, without what stands behind a name. -/
def Event.plain (e : Event) : Event := if e.name.isSome then { e with behind := ⟨false, []⟩ } else e

theorem changeOf_plain (s : Sys) (e : Event) : s.changeOf e.plain = s.changeOf e := by
  obtain ⟨wd, mask, name, behind⟩ := e
  cases name with
  | none | some n => rfl

theorem handle_plain (s : Sys) (e : Event) : s.handle e.plain = s.handle e := by
  have htake : s.take e.plain s.queue.tail = s.take e s.queue.tail := by
    unfold Sys.take
    rw [changeOf_plain]
    obtain ⟨wd, mask, name, behind⟩ := e
    cases name with
    | none | some n => rfl
  unfold Sys.handle
  rw [htake, changeOf_plain]

theorem run_plain (s : Sys) (es : List Event) :
    run Sys.handle s (es.map Event.plain) = run Sys.handle s es := by
  induction es generalizing s with
  | nil => rfl
  | cons e es ih =>
    rw [List.map_cons, run, run, handle_plain]
    exact congrArg (Option.bind _) (funext fun s' => ih s')

/-- The walk along the records takes the loop one round for each and one to end. -/
theorem readLoop_of_walk {σ : Type} (w : World σ) (records : List Record) (front beyond : Bytes)
    (s s' : ReadState σ) {r : Nat} (hr : front.length + (records.flatMap Record.encode).length = r)
    (hfit : (front ++ (records.flatMap Record.encode ++ beyond)).length < 2147483648)
    (h : walk w s records beyond = some s') :
    readLoop w (front ++ (records.flatMap Record.encode ++ beyond)) r (records.length + 1)
      front.length s = some (r, s') := by
  induction records generalizing front s with
  | nil =>
    cases h
    rw [List.flatMap_nil, List.length_nil, Nat.add_zero] at hr
    rw [List.length_nil, readLoop, if_neg (by omega), hr]
  | cons e rest ih =>
    have hlen : front.length + e.encode.length = (front ++ e.encode).length :=
      List.length_append.symm
    have hsplit : front ++ ((e :: rest).flatMap Record.encode ++ beyond)
        = front ++ (e.encode ++ (rest.flatMap Record.encode ++ beyond)) := by
      rw [List.flatMap_cons, List.append_assoc]
    have hjoin : front ++ (e.encode ++ (rest.flatMap Record.encode ++ beyond))
        = (front ++ e.encode) ++ (rest.flatMap Record.encode ++ beyond) :=
      (List.append_assoc _ _ _).symm
    have hpos := length_encode e
    unfold sizeofEvent at hpos
    rw [List.flatMap_cons, List.length_append] at hr
    rw [hsplit] at hfit ⊢
    rw [walk] at h
    obtain ⟨hnul, h⟩ := Option.ite_none_right_eq_some.mp h
    rw [List.length_cons, readLoop, if_pos (by omega), readRecord_append w s e front _ hfit,
      if_pos hnul, Option.bind_some]
    dsimp only
    rw [hjoin, hlen]
    exact ih (front ++ e.encode) _ (by rw [← hlen]; omega) (hjoin ▸ hfit) h

/-- The buffer holds the queue, and there is a NUL behind it. -/
structure Delivers (f : Filled) (queue : List Event) : Prop where
  same : (events f.records f.beyond).map Event.plain = queue.map Event.plain
  nul : 0 ∈ f.beyond

instance (f : Filled) (queue : List Event) : Decidable (Delivers f queue) :=
  decidable_of_iff (_ ∧ _) ⟨fun h => ⟨h.1, h.2⟩, fun h => ⟨h.same, h.nul⟩⟩

variable {s' : Sys} {t : ReadState Sys}

theorem mem_events {records : List Record} {e : Record} (he : e ∈ records) (beyond : Bytes) :
    ∃ following, e.event following ∈ events records beyond := by
  induction records with
  | nil => cases he
  | cons x rest ih =>
    rcases List.mem_cons.mp he with rfl | he
    · exact ⟨_, List.mem_cons_self ..⟩
    · obtain ⟨following, hmem⟩ := ih he
      exact ⟨following, List.mem_cons_of_mem _ hmem⟩

/-- The names in the buffer are those in the queue. -/
theorem Delivers.name {f : Filled} {queue : List Event} (hf : Delivers f queue) {e : Record}
    (he : e ∈ f.records) (hname : e.name ≠ []) : ∃ q ∈ queue, q.name = some e.ownName := by
  obtain ⟨following, hmem⟩ := mem_events he f.beyond
  have hplain := List.mem_map_of_mem (f := Event.plain) hmem
  rw [hf.same] at hplain
  obtain ⟨q, hq, heq⟩ := List.mem_map.mp hplain
  have hkeeps : ∀ e : Event, e.plain.name = e.name := by
    intro e
    unfold Event.plain
    split <;> rfl
  have hown : (e.event following).name = some e.ownName := if_neg hname
  exact ⟨q, hq, by rw [← hkeeps, heq, hkeeps, hown]⟩

/-- What the thread does with a buffer is what it does with the queue. -/
theorem Delivers.shows {f : Filled} (hf : Delivers f s.queue)
    (hqueue : ∀ q ∈ s.queue, ∀ n, q.name = some n → IsName n) (hn : Numbered s)
    (hnames : s.fs.Names) (ht : Shows t s) (h : s.drain = some s') (hlt : s'.nextWd ≤ 2147483648) :
    ∃ t', readLoop Sys.world f.buffer f.r (f.records.length + 1) 0 t = some (f.r, t') ∧
      Shows t' s' := by
  have hrun : run Sys.handle s (events f.records f.beyond) = some s' := by
    rw [← run_plain, hf.same, run_plain]
    exact h
  have hnamed : ∀ e ∈ f.records, e.name ≠ [] → IsName e.ownName := by
    intro e he hname
    obtain ⟨q, hq, heq⟩ := hf.name he hname
    exact hqueue q hq _ heq
  obtain ⟨t', hwalk, ht'⟩ := walk_shows hnamed hf.nul hn hnames ht hrun hlt
  exact ⟨t', readLoop_of_walk Sys.world f.records [] f.beyond t t' (Nat.zero_add _)
    (f.fits ▸ by decide) hwalk, ht'⟩

/-! ## A run -/

/-- An operation of another process, and then the loop over the buffer that `read` fills
with what was queued. -/
def byteStep (t : ReadState Sys) (x : Op × Filled) : Option (ReadState Sys) :=
  (Sys.apply { t.world with queue := [] } x.1).bind fun k =>
    if Delivers x.2 k.queue then
      (readLoop Sys.world x.2.buffer x.2.r (x.2.records.length + 1) 0 { t with world := k }).map
        Prod.snd
    else none

/-- `watch(root)` -/
def byteWatch (fs : Entry) (root : Bytes) : ReadState Sys :=
  let (entries, k) := Sys.world.watch (Sys.start fs) root
  entries.foldl ReadState.assign ⟨fun _ => none, k, []⟩

/-- `paths{root}; find_files(root, paths, true, 0)`. -/
def byteSnapshot (fs : Entry) (root : Bytes) : Option (List Bytes) :=
  (fs.openDir (parse root)).bind fun (_, d) =>
    match findFiles appendName (fun _ => true) true 0 root d ⟨[root], []⟩ with
    | .ok scan => some scan.files
    | .error _ => none

/-- The operation can be followed, and its events arrive in the buffer. -/
structure Received (root : Path) (s : Sys) (x : Op × Filled) : Prop where
  followable : Followable root s x.1
  named : x.1.Named
  delivers : ∀ u, s.apply x.1 = some u → Delivers x.2 u.queue

instance (root : Path) (s : Sys) (x : Op × Filled) : Decidable (Received root s x) :=
  decidable_of_iff (Followable root s x.1 ∧ x.1.Named ∧ ∀ u ∈ s.apply x.1, Delivers x.2 u.queue)
    ⟨fun h => ⟨h.1, h.2.1, h.2.2⟩, fun h => ⟨h.followable, h.named, h.delivers⟩⟩

/-- The strings of a listing stand for its paths. -/
theorem parse_listing_named (recursive : Bool) (filter : Int) {d : Dir} (h : Named d) (p : Bytes) :
    (listing appendName recursive filter p d).map parse
      = listing Path.append recursive filter (parse p) d := by
  have hpath (n : Name) (hn : IsName n) (p : Bytes) :
      parse (appendName p n) = Path.append (parse p) n := parse_appendName_of_name hn p
  induction d generalizing p with
  | nil => rfl
  | leaf n ino link rest ih =>
    rw [listing, listing, List.map_append, ih h.2]
    congr 1
    split
    · rw [List.map_singleton, hpath n h.1.1]
    · rfl
  | dir n ino sub rest ihsub ih =>
    have hsub := ihsub h.2.1 (appendName p n)
    rw [hpath n h.1.1] at hsub
    rw [listing, listing, List.map_append, ih h.2.2]
    congr 1
    split
    · rfl
    · rw [List.map_append]
      congr 1
      · split
        · rw [List.map_singleton, hpath n h.1.1]
        · rfl
      · split
        · exact hsub
        · rfl

theorem parse_snapshot {fs : Entry} (h : EntryNamed fs) {root : Bytes} {ps : List Path}
    (hps : snapshot fs (parse root) = some ps) :
    ∃ qs, byteSnapshot fs root = some qs ∧ qs.map parse = ps := by
  obtain ⟨⟨i, d⟩, hopen, hps⟩ := Option.bind_eq_some_iff.mp hps
  have ho : Openable Path.append (fun _ => true) (parse root) d := openable_true (parse root) d
  have ho' : Openable appendName (fun _ => true) root d := openable_true root d
  obtain ⟨calls, hlist⟩ := findFiles_ok true 0 rfl ho ⟨[parse root], []⟩
  obtain ⟨calls', hlist'⟩ := findFiles_ok true 0 rfl ho' ⟨[root], []⟩
  dsimp only at hps
  rw [hlist] at hps
  cases hps
  obtain ⟨q, -, hd⟩ := Option.bind_eq_some_iff.mp hopen
  have hd : Named d := named_find h (dirAt_eq_some.mp hd)
  refine ⟨[root] ++ listing appendName true 0 root d, ?_, ?_⟩
  · rw [byteSnapshot, hopen, Option.bind_some]
    dsimp only
    rw [hlist']
  · rw [List.map_append, parse_listing_named true 0 hd]
    rfl

/-- The names in the queue are those of the operation. -/
theorem Applied.named {s' : Sys} (h : Applied s op s') (hop : op.Named) (hqueue : s.queue = []) :
    ∀ q ∈ s'.queue, ∀ n, q.name = some n → IsName n := by
  intro q hq n hname
  obtain ⟨bit, before, after, -, hall, hgone⟩ := h.queue hqueue
  have hbare : q ∉ before ++ after := by
    intro hmem
    rw [(hgone q hmem).1] at hname
    cases hname
  rw [hall] at hq
  rcases List.mem_append.mp hq with hq | hq
  · rcases List.mem_append.mp hq with hq | hq
    · exact absurd (List.mem_append_left _ hq) hbare
    · obtain ⟨x, hx, hq⟩ := List.mem_flatMap.mp hq
      unfold Sys.announce at hq
      split at hq
      · cases hq
      · split at hq
        · rw [List.mem_singleton.mp hq] at hname
          cases hname
          exact (hop x hx).1
        · cases hq
  · exact absurd (List.mem_append_right _ hq) hbare

/-- An operation and a read never take a descriptor back. -/
theorem opStep_numbered (hs : Wired s) (hn : Numbered s) (h : opStep root s op = some s') :
    Numbered s' ∧ s.nextWd ≤ s'.nextWd := by
  obtain ⟨-, h⟩ := Option.ite_none_right_eq_some.mp h
  obtain ⟨u, happly, hdrain⟩ := Option.bind_eq_some_iff.mp h
  have happlied := apply_cases hs happly
  have hreads := run_reads (happlied.numbered hn) hdrain
  exact ⟨hreads.numbered, happlied.nextWd ▸ hreads.nextWd⟩

/-- **One operation.** The loop over the buffer does what the system does. -/
theorem byteStep_shows {x : Op × Filled} (hs : Settled root s) (hx : Received root s x)
    (hn : Numbered s) (hnamed : EntryNamed s.fs) (ht : Shows t s) (h : opStep root s x.1 = some s')
    (hlt : s'.nextWd ≤ 2147483648) :
    ∃ t', byteStep t x = some t' ∧ Shows t' s' ∧ EntryNamed s'.fs := by
  obtain ⟨-, h⟩ := Option.ite_none_right_eq_some.mp h
  obtain ⟨u, happly, hdrain⟩ := Option.bind_eq_some_iff.mp h
  have happlied := apply_cases hs.wired happly
  have hu : EntryNamed u.fs := named_apply hx.named hnamed happly
  have hsame : SameKernel s { t.world with queue := [] } :=
    ⟨ht.kernel.fs, ht.kernel.wdOf, ht.kernel.nextWd⟩
  obtain ⟨k, hk, hkernel, hqueue⟩ := hsame.apply hs.queue.symm happly
  have htaken : Shows { t with world := k } u := by
    refine ⟨hkernel, fun wd => ?_, ?_⟩
    · rw [happlied.wdMap]
      exact ht.map wd
    · rw [happlied.seen]
      exact ht.seen
  obtain ⟨t', hloop, ht'⟩ := (hx.delivers u happly).shows (happlied.named hx.named hs.queue)
    (happlied.numbered hn) (entryNames_of_named hu) htaken hdrain hlt
  refine ⟨t', ?_, ht', drain_fs hdrain ▸ hu⟩
  rw [byteStep, hk, Option.bind_some, if_pos (hqueue ▸ hx.delivers u happly), hloop]
  rfl

theorem run_nextWd {acts : List (Op × Filled)} (hs : Settled root s) (hn : Numbered s)
    (hcond : Along (fun s x => opStep root s x.1) (Received root) s acts)
    (h : run (fun s x => opStep root s x.1) s acts = some s') : s.nextWd ≤ s'.nextWd := by
  induction acts generalizing s with
  | nil =>
    cases h
    exact Int.le_refl _
  | cons x acts ih =>
    obtain ⟨s₁, hstep, h⟩ := run_cons_eq_some.mp h
    obtain ⟨hn₁, hle⟩ := opStep_numbered hs.wired hn hstep
    have hs₁ := (attribute_step hs hcond.1.followable.1 hstep).1
    exact Int.le_trans hle (ih hs₁ hn₁ (hcond.2 s₁ hstep) h)

/-- **A run.** The program on bytes goes along with the system. -/
theorem byteRun_shows {acts : List (Op × Filled)} (hs : Settled root s) (hn : Numbered s)
    (hnamed : EntryNamed s.fs) (ht : Shows t s)
    (hcond : Along (fun s x => opStep root s x.1) (Received root) s acts)
    (h : run (fun s x => opStep root s x.1) s acts = some s') (hlt : s'.nextWd ≤ 2147483648) :
    ∃ t', run byteStep t acts = some t' ∧ Shows t' s' ∧ EntryNamed s'.fs := by
  induction acts generalizing s t with
  | nil =>
    cases h
    exact ⟨t, rfl, ht, hnamed⟩
  | cons x acts ih =>
    obtain ⟨s₁, hstep, h⟩ := run_cons_eq_some.mp h
    have hs₁ := (attribute_step hs hcond.1.followable.1 hstep).1
    obtain ⟨hn₁, -⟩ := opStep_numbered hs.wired hn hstep
    have hrest := hcond.2 s₁ hstep
    have hle := run_nextWd hs₁ hn₁ hrest h
    obtain ⟨t₁, hbyte, ht₁, hnamed₁⟩ := byteStep_shows hs hcond.1 hn hnamed ht hstep (by omega)
    obtain ⟨t', hrun, ht'⟩ := ih hs₁ hn₁ hnamed₁ ht₁ hrest h
    exact ⟨t', run_cons_eq_some.mpr ⟨t₁, hbyte, hrun⟩, ht'⟩

/-- The operations of a run, without the buffers. -/
theorem run_ops {acts : List (Op × Filled)}
    (h : run (fun s x => opStep root s x.1) s acts = some s')
    (hcond : Along (fun s x => opStep root s x.1) (Received root) s acts) :
    run (opStep root) s (acts.map Prod.fst) = some s' ∧
      Along (opStep root) (Followable root) s (acts.map Prod.fst) := by
  induction acts generalizing s with
  | nil => exact ⟨h, trivial⟩
  | cons x acts ih =>
    obtain ⟨s₁, hstep, h⟩ := run_cons_eq_some.mp h
    have hrest : ∀ s₂, opStep root s x.1 = some s₂ →
        run (opStep root) s₂ (acts.map Prod.fst) = some s' ∧
          Along (opStep root) (Followable root) s₂ (acts.map Prod.fst) := by
      intro s₂ h₂
      cases Option.some.inj (hstep.symm.trans h₂)
      exact ih h (hcond.2 s₁ hstep)
    exact ⟨run_cons_eq_some.mpr ⟨s₁, hstep, (hrest s₁ hstep).1⟩,
      hcond.1.followable, fun s₂ h₂ => (hrest s₂ h₂).2⟩

/-- A record with a name of at most fifteen bytes. -/
def shortRecord (wd : Int32) (mask : UInt32) (n : Name) : Record where
  wd := wd
  mask := mask
  cookie := 0
  name := n.take 15 ++ List.replicate (16 - (n.take 15).length) 0
  ended := by
    have hlen : (n.take 15).length ≤ 15 := List.length_take_le 15 n
    exact Or.inr (List.mem_append_right _ (List.mem_replicate.mpr ⟨by omega, rfl⟩))
  len_fits := by
    have hlen : (n.take 15).length ≤ 15 := List.length_take_le 15 n
    rw [List.length_append, List.length_replicate]
    omega

theorem bare_ended : ([] : Bytes) = [] ∨ 0 ∈ ([] : Bytes) := Or.inl rfl

theorem bare_fits : ([] : Bytes).length < 2 ^ 32 := by decide

/-- A record without a name. -/
def bareRecord (wd : Int32) (mask : UInt32) : Record where
  wd := wd
  mask := mask
  cookie := 0
  name := []
  ended := bare_ended
  len_fits := bare_fits

/-- Some records, if they fit, with nothing but zeros behind them. -/
def bufferOf (records : List Record) : Filled :=
  if h : (records.flatMap Record.encode).length ≤ BUF_LEN then
    { records := records
      beyond := List.replicate (BUF_LEN - (records.flatMap Record.encode).length) 0
      fits := by
        rw [List.length_append, List.length_replicate]
        omega }
  else ⟨[], List.replicate BUF_LEN 0, List.length_replicate⟩

/-- A directory is made, renamed, filled, emptied and removed, a file in it is written to, and
every buffer on the way. The end of the directory's watch is read before its removal. -/
def buffersOfDirectory : List (Op × Filled) :=
  [(.mkdir [ascii "r"] 0 (ascii "a") 3,
      bufferOf [shortRecord 1 (IN_CREATE ||| IN_ISDIR) (ascii "a")]),
    (.rename [ascii "r"] (ascii "a") [ascii "r"] 0 (ascii "b") ⟨false, []⟩,
      bufferOf [shortRecord 1 (IN_MOVED_FROM ||| IN_ISDIR) (ascii "a"),
        shortRecord 1 (IN_MOVED_TO ||| IN_ISDIR) (ascii "b")]),
    (.create [ascii "r", ascii "b"] 0 (ascii "f") 4,
      bufferOf [shortRecord 2 IN_CREATE (ascii "f")]),
    (.modify [ascii "r", ascii "b"] (ascii "f"),
      bufferOf [shortRecord 2 IN_MODIFY (ascii "f")]),
    (.delete [ascii "r", ascii "b"] (ascii "f") ⟨false, []⟩ false,
      bufferOf [shortRecord 2 IN_DELETE (ascii "f")]),
    (.delete [ascii "r"] (ascii "b") ⟨false, [[1]]⟩ true,
      bufferOf [bareRecord 2 IN_IGNORED, shortRecord 1 (IN_DELETE ||| IN_ISDIR) (ascii "b")])]

end CommonCpp.Monitor
