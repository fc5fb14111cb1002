import CommonCpp.Lib.Mirror
import CommonCpp.Monitor.Attribution

/-!
# The reports are enough to follow the tree

A program that lists the root once with `find_files`, right after `watch`, and
from then on only takes the arguments of `onchange`, knows at every pause what
`find_files` would list (`mirrored`). What makes a rename of a directory work is
that its two reports come one after the other: everything known below the old
path is below the new one.

A `change` has no cookie, so a report of something moved in from outside cannot
be told from the second half of a rename, and what is in it is reported by
nothing: those renames are left out.
-/

namespace CommonCpp.Monitor

open CommonCpp.Fs CommonCpp.Lib

/-- What a reported change says about the paths of the tree. -/
def Change.edits (c : Change Path) : List (Edit Name) :=
  match c.ct with
  | .added => [.add c.path]
  | .removed => [.remove c.path]
  | .INMOVEDFROM => [.lift c.path]
  | .INMOVEDTO => [.place c.path]
  | .modified | .renamed | .unknown => []

/-- The mirror after a call of `onchange`. -/
def notice (m : Mirror Name) (c : Change Path) : Mirror Name := m.replay c.edits

/-- `paths{root}; find_files(root, paths, true, 0)`. -/
def snapshot (fs : Entry) (root : Path) : Option (List Path) :=
  (fs.openDir root).bind fun (_, d) =>
    match findFiles Path.append (fun _ => true) true 0 root d ⟨[root], []⟩ with
    | .ok scan => some scan.files
    | .error _ => none

/-- The paths of the tree at or below the root. -/
def shown (root : Path) (fs : Entry) : Set Path := { p | root <+: p ∧ (fs.stat p).isSome }

/-- The mirror has the paths of the tree. -/
def Mirrors (root : Path) (m : Mirror Name) (s : Sys) : Prop := m.paths = shown root s.fs

/-- No rename brings something in under the root from outside. -/
def Op.KeepsOut (root : Path) : Op → Prop
  | .rename src _ dst _ _ _ => root <+: dst → root <+: src
  | .mkdir .. | .create .. | .symlink .. | .delete .. | .modify .. => True

instance (root : Path) : ∀ op : Op, Decidable (op.KeepsOut root)
  | .rename src _ dst _ _ _ => inferInstanceAs (Decidable (root <+: dst → root <+: src))
  | .mkdir .. | .create .. | .symlink .. | .delete .. | .modify .. => isTrue trivial

/-- The operation is reported as it is, and what it does under the root is known there. -/
def Followable (root : Path) (s : Sys) (op : Op) : Prop :=
  Attributable root s op ∧ op.KeepsOut root

instance (root : Path) (s : Sys) (op : Op) : Decidable (Followable root s op) :=
  inferInstanceAs (Decidable (_ ∧ _))

variable {root : Path} {s s' : Sys} {op : Op}

theorem mem_shown {fs : Entry} {p : Path} : p ∈ shown root fs ↔ root <+: p ∧ (fs.stat p).isSome :=
  Iff.rfl

/-- The listing has every path of the tree, the root first. -/
theorem mem_snapshot {fs : Entry} (hwf : fs.WF) {i : Ino} (h : fs.stat root = some (.dir i)) :
    ∃ ps, snapshot fs root = some ps ∧ ∀ p, p ∈ ps ↔ p ∈ shown root fs := by
  obtain ⟨sub, hsub⟩ := stat_dir_iff.mp h
  have hopen : Openable Path.append (fun _ => true) root sub := openable_true root sub
  obtain ⟨calls, hfind⟩ := findFiles_ok true 0 rfl hopen ⟨[root], []⟩
  refine ⟨root :: listing Path.append true 0 root sub, ?_, fun p => ?_⟩
  · rw [snapshot, openDir_of_find hsub, Option.bind_some]
    dsimp only
    rw [hfind]
    rfl
  · rw [List.mem_cons, mem_listing_all (wf_find hwf hsub : (Entry.dir i sub).WF), mem_shown]
    constructor
    · rintro (rfl | ⟨z, node, rfl, hz, hstat⟩)
      · exact ⟨List.prefix_refl _, by rw [h]; rfl⟩
      · refine ⟨List.prefix_append _ _, ?_⟩
        rw [stat_append hsub, stat_dir_root hz, hstat]
        rfl
    · rintro ⟨⟨z, rfl⟩, hsome⟩
      cases z with
      | nil => exact Or.inl (List.append_nil _)
      | cons n z =>
        obtain ⟨node, hstat⟩ := Option.isSome_iff_exists.mp hsome
        rw [stat_append hsub] at hstat
        exact Or.inr ⟨n :: z, node, rfl, List.cons_ne_nil _ _, hstat⟩

/-! ## What one operation does to the paths -/

theorem unwatch_fs (s : Sys) (behind : Spelling) (old : Option Entry) :
    (s.unwatch behind old).fs = s.fs := by
  unfold Sys.unwatch
  split
  · split <;> rfl
  · rfl
  · rfl

theorem delete_tree {dir : Path} {n : Name} {behind : Spelling} {early : Bool}
    (h : s.delete dir n behind early = some s') :
    ∃ ino sub, s.fs.find dir = some (.dir ino sub) ∧ s'.fs = s.fs.eraseAt dir n := by
  unfold Sys.delete at h
  split at h
  · next ino sub e hdir hentry =>
    obtain ⟨-, h⟩ := Option.ite_none_right_eq_some.mp h
    refine ⟨ino, sub, dirAt_eq_some.mp hdir, ?_⟩
    split at h
    · cases h
      rw [(emit_fields _ ino _ n).1, unwatch_fs]
    · cases h
      rw [unwatch_fs, (emit_fields _ ino _ n).1]
  · cases h

theorem modify_tree {dir : Path} {n : Name} (h : s.modify dir n = some s') : s'.fs = s.fs := by
  unfold Sys.modify at h
  split at h
  · next ino sub j hdir hentry =>
    cases h
    split
    · rfl
    · exact (emit_fields s ino IN_MODIFY n).1
  · cases h

theorem rename_tree {src dst : Path} {n m : Name} {pos : Nat} {behind : Spelling}
    (h : s.rename src n dst pos m behind = some s') :
    ∃ e, Moves s.fs src n dst m e ∧ s'.fs = s.fs.moveAt src n dst pos m e := by
  unfold Sys.rename at h
  split at h
  · next i sub e j sub' hsrc hentry hdst =>
    dsimp only at h
    obtain ⟨⟨hdot, hapart, -⟩, h⟩ := Option.ite_none_right_eq_some.mp h
    cases h
    refine ⟨e, ⟨⟨i, sub, dirAt_eq_some.mp hsrc⟩, hentry, ⟨j, sub', dirAt_eq_some.mp hdst⟩, hdot,
      hapart⟩, ?_⟩
    rw [unwatch_fs, (emit_fields _ j _ m).1, (emit_fields _ i _ n).1]
  · cases h

/-- A changed entry that is not below the root's directories shows nothing under the root. -/
theorem outside {dir p : Path} {n : Name} (hroot : ¬ root <+: dir) (hkeeps : ¬ dir ++ [n] <+: root)
    (hp : root <+: p) : ¬ dir ++ [n] <+: p := by
  intro h
  rcases List.prefix_or_prefix_of_prefix hp h with hle | hle
  · rcases List.prefix_concat_iff.mp hle with heq | hle
    · exact hkeeps (heq ▸ List.prefix_refl _)
    · exact hroot hle
  · exact hkeeps hle

/-- What the five kinds of a changed entry are taken for. -/
theorem changeType_masks : changeType IN_CREATE = .added ∧ changeType IN_DELETE = .removed ∧
    changeType IN_MODIFY = .modified ∧ changeType IN_MOVED_FROM = .INMOVEDFROM ∧
    changeType IN_MOVED_TO = .INMOVEDTO := by
  decide

theorem edits_create (dir : Path) (n : Name) :
    (Place.change ⟨dir, n, IN_CREATE⟩).edits = [.add (dir ++ [n])] := by
  rw [Place.change, changeType_masks.1]
  rfl

theorem edits_delete (dir : Path) (n : Name) :
    (Place.change ⟨dir, n, IN_DELETE⟩).edits = [.remove (dir ++ [n])] := by
  rw [Place.change, changeType_masks.2.1]
  rfl

theorem edits_modify (dir : Path) (n : Name) : (Place.change ⟨dir, n, IN_MODIFY⟩).edits = [] := by
  rw [Place.change, changeType_masks.2.2.1]
  rfl

theorem edits_from (dir : Path) (n : Name) :
    (Place.change ⟨dir, n, IN_MOVED_FROM⟩).edits = [.lift (dir ++ [n])] := by
  rw [Place.change, changeType_masks.2.2.2.1]
  rfl

theorem edits_to (dir : Path) (n : Name) :
    (Place.change ⟨dir, n, IN_MOVED_TO⟩).edits = [.place (dir ++ [n])] := by
  rw [Place.change, changeType_masks.2.2.2.2]
  rfl

theorem changesBelow_one {x : Place} (hplaces : op.places = [x]) :
    changesBelow root op = if root <+: x.dir then [x.change] else [] := by
  rw [changesBelow, hplaces, List.filter_singleton]
  by_cases hroot : root <+: x.dir
  · simp [hroot]
  · simp [hroot]

/-- An entry that is made: one more path, if it is under the root. -/
theorem follow_make {dir : Path} {pos : Nat} {n : Name} {new : Entry} {mask : UInt32} {i : Ino}
    {m : Mirror Name} (h : s.make dir pos n new mask = some s')
    (hnew : ∀ m r, new.stat (m :: r) = none) (hroot : s.fs.stat root = some (.dir i))
    (hplaces : op.places = [⟨dir, n, IN_CREATE⟩]) (hm : m.paths = shown root s.fs) :
    (m.replay ((changesBelow root op).flatMap Change.edits)).paths = shown root s'.fs := by
  obtain ⟨hdot, habs, ino, sub, hdir, rfl⟩ := make_cases h
  have hstat : ∀ q, (s.fs.addAt dir pos n new).stat q
      = if q = dir ++ [n] then some new.node else s.fs.stat q :=
    stat_addAt_bare hnew hdir hdot habs
  have hnot : ¬ dir ++ [n] <+: root := fun hp =>
    find_of_le hp (find_ne_none_of_stat hroot) habs
  rw [changesBelow_one hplaces, (emit_fields _ ino mask n).1]
  by_cases hbelow : root <+: dir
  · rw [if_pos hbelow, List.flatMap_singleton, edits_create]
    ext x
    refine Mirror.mem_add.trans ?_
    rw [hm, mem_shown, mem_shown, hstat]
    by_cases hx : x = dir ++ [n]
    · rw [if_pos hx, hx]
      simp [hbelow.trans (List.prefix_append _ _)]
    · rw [if_neg hx]
      simp [hx]
  · rw [if_neg hbelow]
    ext x
    show x ∈ m.paths ↔ _
    rw [hm, mem_shown, mem_shown, hstat]
    refine and_congr_right fun hx => ?_
    have hne : x ≠ dir ++ [n] := fun heq => outside hbelow hnot hx (heq ▸ List.prefix_refl _)
    rw [if_neg hne]

/-- An entry that is removed: its path is gone, and nothing was below it. -/
theorem follow_delete {dir : Path} {n : Name} {behind : Spelling} {early : Bool} {m : Mirror Name}
    (h : s.delete dir n behind early = some s')
    (hkeeps : (Op.delete dir n behind early).KeepsRoot root) (hm : m.paths = shown root s.fs) :
    (m.replay ((changesBelow root (.delete dir n behind early)).flatMap Change.edits)).paths
      = shown root s'.fs := by
  obtain ⟨ino, sub, hdir, hfs⟩ := delete_tree h
  have hnot : ¬ dir ++ [n] <+: root := hkeeps _ (List.mem_singleton.mpr rfl)
  rw [changesBelow_one rfl, hfs]
  by_cases hbelow : root <+: dir
  · rw [if_pos hbelow, List.flatMap_singleton, edits_delete]
    ext x
    refine Mirror.mem_remove.trans ?_
    rw [hm, mem_shown, mem_shown, stat_eraseAt hdir]
    by_cases hx : dir ++ [n] <+: x
    · simp [hx]
    · simp [hx]
  · rw [if_neg hbelow]
    ext x
    show x ∈ m.paths ↔ _
    rw [hm, mem_shown, mem_shown, stat_eraseAt hdir]
    exact and_congr_right fun hx => by rw [if_neg (outside hbelow hnot hx)]

/-- What is written to a file leaves the paths as they are, and is no edit. -/
theorem follow_modify {dir : Path} {n : Name} {m : Mirror Name} (h : s.modify dir n = some s')
    (hm : m.paths = shown root s.fs) :
    (m.replay ((changesBelow root (.modify dir n)).flatMap Change.edits)).paths
      = shown root s'.fs := by
  have hnone : (changesBelow root (.modify dir n)).flatMap Change.edits = [] := by
    rw [changesBelow_one rfl]
    split
    · rw [List.flatMap_singleton, edits_modify]
    · rfl
  rw [hnone, modify_tree h]
  exact hm

/-- A rename within the root: what was at and below the old path is at the new one. -/
theorem lift_place_shown {src dst : Path} {n k : Name} {e : Entry} {m : Mirror Name}
    (hmove : Moves s.fs src n dst k e) (pos : Nat) (hsrc : root <+: src) (hdst : root <+: dst)
    (hm : m.paths = shown root s.fs) :
    (m.replay [.lift (src ++ [n]), .place (dst ++ [k])]).paths
      = shown root (s.fs.moveAt src n dst pos k e) := by
  have hunder : ∀ {dir : Path} {n : Name} (r : Path), root <+: dir → root <+: dir ++ [n] ++ r :=
    fun _ hdir => (hdir.trans (List.prefix_append _ _)).trans (List.prefix_append _ _)
  have hself : src ++ [n] ∈ m.paths := by
    rw [hm, mem_shown, Entry.stat, hmove.entry]
    exact ⟨hsrc.trans (List.prefix_append _ _), rfl⟩
  ext x
  refine (Mirror.lift_place hself x).trans ?_
  rw [mem_shown, stat_moveAt hmove]
  by_cases hx : dst ++ [k] <+: x
  · obtain ⟨r, rfl⟩ := hx
    have hdrop : (dst ++ [k] ++ r).drop (dst.length + 1) = r := by
      rw [show dst.length + 1 = (dst ++ [k]).length by simp, List.drop_left]
    rw [if_pos (List.prefix_append _ _), hdrop, ← stat_append hmove.entry]
    constructor
    · rintro (⟨r', heq, hr⟩ | ⟨hnot, -⟩)
      · cases List.append_cancel_left heq
        rw [hm, mem_shown] at hr
        exact ⟨hunder r hdst, hr.2⟩
      · exact absurd (List.prefix_append _ _) hnot
    · rintro ⟨-, hr⟩
      refine Or.inl ⟨r, rfl, ?_⟩
      rw [hm, mem_shown]
      exact ⟨hunder r hsrc, hr⟩
  · rw [if_neg hx]
    constructor
    · rintro (⟨r, rfl, -⟩ | ⟨-, hnot, hmem⟩)
      · exact absurd (List.prefix_append _ _) hx
      · rw [if_neg hnot]
        rwa [hm, mem_shown] at hmem
    · rintro ⟨hroot, hsome⟩
      by_cases hold : src ++ [n] <+: x
      · rw [if_pos hold] at hsome
        cases hsome
      · rw [if_neg hold] at hsome
        refine Or.inr ⟨hx, hold, ?_⟩
        rw [hm, mem_shown]
        exact ⟨hroot, hsome⟩

/-- A rename that leaves the root takes away what it moves, and one outside is not noticed. -/
theorem follow_rename {src dst : Path} {n k : Name} {pos : Nat} {behind : Spelling}
    {m : Mirror Name} (h : s.rename src n dst pos k behind = some s')
    (hkeeps : (Op.rename src n dst pos k behind).KeepsRoot root)
    (hout : (Op.rename src n dst pos k behind).KeepsOut root) (hm : m.paths = shown root s.fs) :
    (m.replay ((changesBelow root (.rename src n dst pos k behind)).flatMap Change.edits)).paths
      = shown root s'.fs := by
  obtain ⟨e, hmove, hfs⟩ := rename_tree h
  have hfrom : ¬ src ++ [n] <+: root := hkeeps _ (List.mem_cons_self ..)
  have hto : ¬ dst ++ [k] <+: root :=
    hkeeps _ (List.mem_cons_of_mem _ (List.mem_singleton.mpr rfl))
  have hchanges : changesBelow root (.rename src n dst pos k behind)
      = (if root <+: src then [Place.change ⟨src, n, IN_MOVED_FROM⟩] else [])
        ++ if root <+: dst then [Place.change ⟨dst, k, IN_MOVED_TO⟩] else [] := by
    by_cases hsrc : root <+: src <;> by_cases hdst : root <+: dst <;>
      simp [changesBelow, Op.places, hsrc, hdst]
  rw [hchanges, hfs]
  by_cases hsrc : root <+: src
  · rw [if_pos hsrc]
    by_cases hdst : root <+: dst
    · rw [if_pos hdst]
      show (m.replay (Change.edits _ ++ (Change.edits _ ++ []))).paths = _
      rw [edits_from, edits_to]
      exact lift_place_shown hmove pos hsrc hdst hm
    · rw [if_neg hdst]
      show (m.replay (Change.edits _ ++ [])).paths = _
      rw [edits_from]
      ext x
      refine Mirror.mem_lift.trans ?_
      rw [hm, mem_shown, mem_shown, stat_moveAt hmove, and_assoc]
      refine and_congr_right fun hx => ?_
      rw [if_neg (outside hdst hto hx)]
      by_cases hold : src ++ [n] <+: x
      · simp [hold]
      · simp [hold]
  · have hdst : ¬ root <+: dst := fun hdst => hsrc (hout hdst)
    rw [if_neg hsrc, if_neg hdst]
    ext x
    show x ∈ m.paths ↔ _
    rw [hm, mem_shown, mem_shown, stat_moveAt hmove]
    refine and_congr_right fun hx => ?_
    rw [if_neg (outside hdst hto hx), if_neg (outside hsrc hfrom hx)]

/-- Every operation: the changes below the root, taken in order, carry the mirror over. -/
theorem follow_apply {m : Mirror Name} (hs : Settled root s) (hkeeps : op.KeepsRoot root)
    (hout : op.KeepsOut root) (h : s.apply op = some s') (hm : m.paths = shown root s.fs) :
    (m.replay ((changesBelow root op).flatMap Change.edits)).paths = shown root s'.fs := by
  obtain ⟨i, hroot⟩ := hs.rootDir
  cases op with
  | mkdir dir pos n ino =>
    obtain ⟨-, h⟩ := Option.ite_none_right_eq_some.mp h
    exact follow_make h (stat_of_removable (e := .dir ino .nil) rfl) hroot rfl hm
  | create dir pos n ino =>
    obtain ⟨-, h⟩ := Option.ite_none_right_eq_some.mp h
    exact follow_make h (fun _ _ => rfl) hroot rfl hm
  | symlink dir pos n ino target =>
    obtain ⟨-, h⟩ := Option.ite_none_right_eq_some.mp h
    exact follow_make h (fun _ _ => rfl) hroot rfl hm
  | rename src n dst pos k behind => exact follow_rename h hkeeps hout hm
  | delete dir n behind early => exact follow_delete h hkeeps hm
  | modify dir n => exact follow_modify h hm

/-! ## Records without a name -/

/-- The queue grew by events with a name, and by ends of watches. -/
def OnlyEnds (k k' : Sys) : Prop :=
  ∀ e ∈ k'.queue, e ∈ k.queue ∨ e.name.isSome = true ∨ e.mask = IN_IGNORED

theorem OnlyEnds.trans {k k₁ k' : Sys} (h : OnlyEnds k k₁) (h' : OnlyEnds k₁ k') :
    OnlyEnds k k' := by
  intro e he
  rcases h' e he with he | he
  · exact h e he
  · exact Or.inr he

theorem onlyEnds_apply (h : s.apply op = some s') : OnlyEnds s s' := by
  refine apply_closed (fun k e he => Or.inl he) OnlyEnds.trans (fun k fs ino mask n e he => ?_)
    (fun k behind old e he => ?_) h
  · rw [emit_queue] at he
    rcases List.mem_append.mp he with he | he
    · exact Or.inl he
    · split at he
      · cases List.mem_singleton.mp he
        exact Or.inr (Or.inl rfl)
      · cases he
  · unfold Sys.unwatch at he
    split at he
    · split at he
      · rcases List.mem_append.mp he with he | he
        · exact Or.inl he
        · cases List.mem_singleton.mp he
          exact Or.inr (Or.inr rfl)
      · exact Or.inl he
    · exact Or.inl he
    · exact Or.inl he

/-- What is reported of an event is the event's kind. -/
theorem ct_of_collect {s : Sys} {es : List Event} {r : Report}
    (hr : r ∈ collect Sys.handle (fun s e => [⟨e, s.changeOf e, s.fs⟩]) s es) :
    r.event ∈ es ∧ r.change.ct = changeType r.event.mask := by
  induction es generalizing s with
  | nil => cases hr
  | cons e es ih =>
    rw [collect] at hr
    rcases List.mem_append.mp hr with hr | hr
    · cases List.mem_singleton.mp hr
      exact ⟨List.mem_cons_self .., rfl⟩
    · split at hr
      · obtain ⟨hmem, hct⟩ := ih hr
        exact ⟨List.mem_cons_of_mem _ hmem, hct⟩
      · cases hr

/-- A report of a record without a name says nothing. -/
theorem edits_of_unnamed (hs : Settled root s) {r : Report} (hr : r ∈ reported s op)
    (hname : r.event.name.isSome = false) : r.change.edits = [] := by
  unfold reported at hr
  split at hr
  · next t ht =>
    obtain ⟨hmem, hct⟩ := ct_of_collect hr
    rcases onlyEnds_apply ht _ hmem with hq | hsome | hmask
    · rw [hs.queue] at hq
      cases hq
    · rw [hname] at hsome
      cases hsome
    · have hunknown : r.change.ct = .unknown := by
        rw [hct, hmask]
        decide
      rw [Change.edits, hunknown]
  · cases hr

theorem edits_named {log : List Report}
    (h : ∀ r ∈ log, r.event.name.isSome = false → r.change.edits = []) :
    (log.map Report.change).flatMap Change.edits = (named log).flatMap Change.edits := by
  induction log with
  | nil => rfl
  | cons r log ih =>
    have hlog := ih fun q hq => h q (List.mem_cons_of_mem _ hq)
    rw [List.map_cons, List.flatMap_cons, hlog]
    cases hname : r.event.name.isSome with
    | true =>
      rw [show named (r :: log) = r.change :: named log by simp [named, hname], List.flatMap_cons]
    | false =>
      rw [show named (r :: log) = named log by simp [named, hname],
        h r (List.mem_cons_self ..) hname, List.nil_append]

/-! ## A run -/

theorem replay_changes (m : Mirror Name) (cs : List (Change Path)) :
    cs.foldl notice m = m.replay (cs.flatMap Change.edits) := by
  induction cs generalizing m with
  | nil => rfl
  | cons c cs ih => rw [List.foldl_cons, ih, List.flatMap_cons, Mirror.replay_append, notice]

/-- The reader does not change the tree. -/
theorem handle_fs {e : Event} (h : s.handle e = some s') : s'.fs = s.fs := by
  have hfold : ∀ {ps : List Path} {k k' : Sys}, ps.foldlM Sys.register k = some k' →
      k'.fs = k.fs := by
    intro ps
    induction ps with
    | nil => intro k k' hk; cases hk; rfl
    | cons p ps ih =>
      intro k k' hk
      rw [List.foldlM_cons] at hk
      obtain ⟨k₁, hreg, hk⟩ := Option.bind_eq_some_iff.mp hk
      obtain ⟨i, wd, -, hreg⟩ := register_cases hreg
      exact (ih hk).trans hreg.fs
  obtain ⟨t, ht, rfl⟩ := Option.map_eq_some_iff.mp h
  show t.fs = (s.take e s.queue.tail).fs
  unfold Sys.descend at ht
  split at ht
  · unfold Sys.watch at ht
    split at ht
    · exact hfold ht
    · cases ht
  · cases ht
    rfl

theorem drain_fs (h : s.drain = some s') : s'.fs = s.fs := by
  have hstep : ∀ {k e k'}, k.fs = s.fs → Sys.handle k e = some k' → k'.fs = s.fs :=
    fun hk ha => (handle_fs ha).trans hk
  exact run_invariant hstep rfl h

/-- **One operation.** The calls of `onchange` carry the mirror over to the tree as it is
then. -/
theorem follow_step :
    Follows (opStep root) (Settled root) (Followable root) reported
      (fun m r => notice m r.change) (Mirrors root) := by
  intro s op s' m hs hcond h hm
  obtain ⟨-, -, hnamed, -⟩ := attribute_step hs hcond.1 h
  obtain ⟨hkeeps, h⟩ := Option.ite_none_right_eq_some.mp h
  obtain ⟨t, happly, hdrain⟩ := Option.bind_eq_some_iff.mp h
  have hedits : ((reported s op).map Report.change).flatMap Change.edits
      = (named (reported s op)).flatMap Change.edits :=
    edits_named fun r hr => edits_of_unnamed hs hr
  have hfold : (reported s op).foldl (fun m r => notice m r.change) m
      = m.replay ((changesBelow root op).flatMap Change.edits) := by
    rw [← List.foldl_map, replay_changes, hedits, hnamed]
  unfold Mirrors
  rw [hfold, drain_fs hdrain]
  exact follow_apply hs hkeeps hcond.2 happly hm

/-- From a settled system on, the reports make the listing of the beginning that of the end. -/
theorem run_mirrors {s₀ : Sys} {ops : List Op} (hs₀ : Settled root s₀) (hseen₀ : s₀.seen = [])
    (hrun : run (opStep root) s₀ ops = some s)
    (hcond : Along (opStep root) (Followable root) s₀ ops) :
    ∃ before after, snapshot s₀.fs root = some before ∧ snapshot s.fs root = some after ∧
      ∀ p, p ∈ (s.seen.foldl notice (Mirror.ofPaths { q | q ∈ before })).paths ↔ p ∈ after := by
  have hsettled : ∀ {s op s'}, Settled root s → Followable root s op →
      opStep root s op = some s' → Settled root s' :=
    fun hs hc h => (attribute_step hs hc.1 h).1
  obtain ⟨hs, hseen, -, -⟩ := attribute_run hs₀ (hcond.mono fun h => h.1) hrun
  obtain ⟨j, hj⟩ := hs₀.rootDir
  obtain ⟨k, hk⟩ := hs.rootDir
  obtain ⟨before, hbefore, hmem⟩ := mem_snapshot hs₀.wired.wf hj
  obtain ⟨after, hafter, hmem'⟩ := mem_snapshot hs.wired.wf hk
  refine ⟨before, after, hbefore, hafter, fun p => ?_⟩
  have hfollow : Mirrors root ((reportLog root s₀ ops).foldl (fun m r => notice m r.change)
      (Mirror.ofPaths { q | q ∈ before })) s :=
    run_follows hsettled follow_step hs₀ hcond hrun (Set.ext hmem)
  rw [hseen₀, List.nil_append] at hseen
  rw [hseen, List.foldl_map, hfollow, hmem']

end CommonCpp.Monitor
