import CommonCpp.Fs.Place

/-!
# `rename` and `mv -f`

`mv source destination` renames the entry at the place of `source`: to the place
of `destination`, or if `destination` leads to a directory, to the entry of that
directory with the source's own name (`Disk.mvTarget`). What `rename` can do is
in `Disk.renamed`; an entry it replaces is a leaf or an empty directory.

`Disk.MovedTo` is what a caller means who asks for a move to a place.
`movedTo_iff` says when a move by `mv` is one to the place of `destination`.
-/

namespace CommonCpp.Fs

open CommonCpp.Lib

/-- An entry, from where and to where it is moved. -/
structure Move where
  src : Place
  dst : Place
  moved : Entry
deriving DecidableEq

def Entry.isDir (e : Entry) : Bool := e.node.isDir

/-- The entry `rename(src, dst)` moves, if it can. -/
def Disk.renamed (d : Disk) (src dst : Place) : Option Entry :=
  match d.tree.find src.path, d.tree.dirAt dst.dir with
  | some moved, some _ =>
    -- not to itself, or into itself
    if src.path <+: dst.path then none
    else
      match d.tree.find dst.path with
      | none => some moved
      | some old => if old.removable = true ∧ old.isDir = moved.isDir then some moved else none
  | _, _ => none

/-- The tree after a move. The file system chooses the position of the entry. -/
def Disk.rename (d : Disk) (m : Move) (pos : Nat) : Disk :=
  { d with tree := d.tree.moveAt m.src.dir m.src.name m.dst.dir pos m.dst.name m.moved }

/-- Where `mv` moves the entry at `src`. -/
def Disk.mvTarget (d : Disk) (src : Place) (destination : Path) : Option Place :=
  match d.isDirectory destination, d.sight destination with
  | some true, .found q => some ⟨q, src.name⟩
  | _, _ => d.place destination

/-- The move `mv -f source destination` makes. -/
def Disk.mvMove (d : Disk) (source destination : Path) : Option Move :=
  (d.place source).bind fun src =>
    (d.mvTarget src destination).bind fun dst =>
      (d.renamed src dst).map fun moved => ⟨src, dst, moved⟩

/-- What was at `src` is at `dst`, with all that is below it, and not at `src` any more; at
other paths there is what was there before. -/
def Disk.MovedTo (d d' : Disk) (src dst : Place) : Prop :=
  ∃ moved, d.tree.find src.path = some moved ∧
    (∀ r, d'.tree.stat (dst.path ++ r) = moved.stat r) ∧
    d'.tree.stat src.path = none ∧
    ∀ q, ¬ dst.path <+: q → ¬ src.path <+: q → d'.tree.stat q = d.tree.stat q

/-- The three places hold one symbolic link, under different names. -/
def Disk.SameLink (d : Disk) (src dst l : Place) : Prop :=
  l ≠ src ∧ ∃ i s, d.tree.stat src.path = some (.leaf i (some s)) ∧
    d.tree.stat dst.path = some (.leaf i (some s)) ∧ d.tree.stat l.path = some (.leaf i (some s))

/-- The move is one to the place of `destination`, or looks like one, with all links there before
and behind the move being names of one link. -/
def Disk.Lands (d : Disk) (m : Move) (destination : Path) : Prop :=
  ∃ l, d.place destination = some l ∧ (l = m.dst ∨ d.SameLink m.src m.dst l)

/-! ## What `rename` needs -/

theorem path_inj {x y : Place} (h : x.path = y.path) : x = y := by
  obtain ⟨hdir, hname⟩ := List.append_inj' h rfl
  cases x
  cases y
  cases hdir
  cases hname
  rfl

/-- What is moved, and what it may replace. -/
theorem renamed_eq_some {d : Disk} {src dst : Place} {moved : Entry}
    (h : d.renamed src dst = some moved) :
    d.tree.find src.path = some moved ∧ (∃ i, d.tree.stat dst.dir = some (.dir i)) ∧
      ¬ src.path <+: dst.path ∧ ∀ old, d.tree.find dst.path = some old → old.removable = true := by
  unfold Disk.renamed at h
  split at h
  · next moved' x hfind hdir =>
    split at h
    · cases h
    · next hapart =>
      have hdst : ∃ i, d.tree.stat dst.dir = some (.dir i) :=
        isSome_dirAt.mp (by rw [hdir]; rfl)
      split at h
      · next hnone =>
        cases h
        refine ⟨hfind, hdst, hapart, fun old hold => ?_⟩
        cases hnone.symm.trans hold
      · next old hsome =>
        split at h
        · next hold =>
          cases h
          refine ⟨hfind, hdst, hapart, fun old' hold' => ?_⟩
          cases hsome.symm.trans hold'
          exact hold.1
        · cases h
  · cases h

/-- Where `mv` moves to is a place. -/
theorem mvTarget_eq_some {d : Disk} {src dst : Place} {t : Path} (h : d.mvTarget src t = some dst) :
    d.place t = some dst ∨
      ∃ q i, d.sight t = .found q ∧ d.tree.stat q = some (.dir i) ∧ dst = ⟨q, src.name⟩ := by
  unfold Disk.mvTarget at h
  split at h
  · next q hdir hsight =>
    cases h
    refine .inr ⟨q, ?_⟩
    unfold Disk.isDirectory at hdir
    rw [hsight] at hdir
    obtain ⟨i, hi⟩ := isSome_dirAt.mp (Option.some.inj hdir)
    exact ⟨i, hsight, hi, rfl⟩
  · exact .inl h

theorem mvMove_eq_some {d : Disk} {s t : Path} {m : Move} (h : d.mvMove s t = some m) :
    d.place s = some m.src ∧ d.mvTarget m.src t = some m.dst ∧
      d.renamed m.src m.dst = some m.moved := by
  obtain ⟨src, hsrc, h⟩ := Option.bind_eq_some_iff.mp h
  obtain ⟨dst, hdst, h⟩ := Option.bind_eq_some_iff.mp h
  obtain ⟨moved, hmoved, h⟩ := Option.map_eq_some_iff.mp h
  cases h
  exact ⟨hsrc, hdst, hmoved⟩

/-- A move by `mv` is one the tree can make. -/
theorem moves_of_mvMove {d : Disk} {s t : Path} {m : Move} (h : d.mvMove s t = some m) :
    Moves d.tree m.src.dir m.src.name m.dst.dir m.dst.name m.moved := by
  obtain ⟨hsrc, hdst, hmoved⟩ := mvMove_eq_some h
  obtain ⟨hfind, ⟨j, hj⟩, hapart, -⟩ := renamed_eq_some hmoved
  obtain ⟨-, hdot, -, -, -, i, hi⟩ := place_eq_some.mp hsrc
  obtain ⟨sub, hsub⟩ := stat_dir_iff.mp hi
  obtain ⟨sub', hsub'⟩ := stat_dir_iff.mp hj
  refine ⟨⟨i, sub, hsub⟩, hfind, ⟨j, sub', hsub'⟩, ?_, hapart⟩
  rcases mvTarget_eq_some hdst with hplace | ⟨q, k, -, -, hq⟩
  · exact (place_eq_some.mp hplace).2.1
  · rw [hq]
    exact hdot

/-! ## What a move leaves -/

section

variable {d : Disk} {s t : Path} {m : Move}

/-- What is at the place moved to has nothing below it. -/
theorem not_below_target (h : d.mvMove s t = some m) {n : Name} {r : Path} :
    d.tree.find (m.dst.path ++ n :: r) = none := by
  obtain ⟨-, -, hmoved⟩ := mvMove_eq_some h
  obtain ⟨-, -, -, hold⟩ := renamed_eq_some hmoved
  rw [find_append]
  cases hfind : d.tree.find m.dst.path with
  | none => rfl
  | some old => exact stat_none_iff.mp (stat_of_removable (hold old hfind) n r)

theorem target_not_above_source (h : d.mvMove s t = some m) : ¬ m.dst.path <+: m.src.dir := by
  rintro ⟨r, hr⟩
  have hfind := (moves_of_mvMove h).entry
  rw [← hr, List.append_assoc] at hfind
  cases r with
  | nil =>
    rw [List.nil_append, not_below_target h] at hfind
    cases hfind
  | cons n r =>
    rw [List.cons_append, not_below_target h] at hfind
    cases hfind

theorem stat_rename (h : d.mvMove s t = some m) (pos : Nat) (q : Path) :
    (d.rename m pos).tree.stat q
      = if m.dst.path <+: q then m.moved.stat (q.drop (m.dst.dir.length + 1))
        else if m.src.path <+: q then none else d.tree.stat q :=
  stat_moveAt (moves_of_mvMove h) pos q

/-- Below the place moved to is what was moved. -/
theorem stat_rename_target (h : d.mvMove s t = some m) (pos : Nat) (r : Path) :
    (d.rename m pos).tree.stat (m.dst.path ++ r) = m.moved.stat r := by
  have hlen : m.dst.dir.length + 1 = m.dst.path.length := by
    unfold Place.path
    rw [List.length_append, List.length_singleton]
  rw [stat_rename h, if_pos (List.prefix_append _ _), hlen, List.drop_left]

/-- A move by `mv` is one to its target. -/
theorem movedTo_target (h : d.mvMove s t = some m) (pos : Nat) :
    d.MovedTo (d.rename m pos) m.src m.dst := by
  have hm := moves_of_mvMove h
  refine ⟨m.moved, hm.entry, stat_rename_target h pos, ?_, fun q hto hfrom => ?_⟩
  · exact hm.source_gone pos (target_not_above_source h)
  · exact hm.stat_apart pos hto hfrom

/-! ## When the target is not the destination -/

/-- Nothing is below an entry that has nothing below it. -/
theorem stat_cons_eq_none {i : Ino} {sub : Dir} {n : Name} {e : Entry} {r : Path}
    (hget : sub.get n = some e) (h : e.stat r = none) : (Entry.dir i sub).stat (n :: r) = none := by
  by_contra hne
  obtain ⟨node, hnode⟩ := Option.ne_none_iff_exists'.mp hne
  obtain ⟨-, e', he', hbelow⟩ := stat_cons_eq_some.mp hnode
  cases hget.symm.trans he'
  cases h.symm.trans hbelow

/-- No entry has something like itself below it, over and over again. -/
theorem exists_stat_replicate (n : Name) (e : Entry) : ∃ k, e.stat (List.replicate k n) = none := by
  have hdir : ∀ (sub : Dir) (i : Ino),
      ∃ k, (Entry.dir i sub).stat (List.replicate (k + 1) n) = none := by
    intro sub
    induction sub with
    | nil =>
      intro i
      refine ⟨0, stat_none_iff.mpr ?_⟩
      rw [List.replicate_succ, find_dir_cons]
      exact ite_self none
    | leaf m j link rest ih =>
      intro i
      by_cases hmn : m = n
      · exact ⟨1, stat_cons_eq_none (if_pos hmn) rfl⟩
      · obtain ⟨k, hk⟩ := ih i
        exact ⟨k, (stat_cons_rest (e := .leaf j link) (List.replicate k n) hmn).trans hk⟩
    | dir m j sub rest ihsub ih =>
      intro i
      by_cases hmn : m = n
      · obtain ⟨k, hk⟩ := ihsub j
        exact ⟨k + 1, stat_cons_eq_none (if_pos hmn) hk⟩
      · obtain ⟨k, hk⟩ := ih i
        exact ⟨k, (stat_cons_rest (e := .dir j sub) (List.replicate k n) hmn).trans hk⟩
  cases e with
  | leaf i link => exact ⟨1, rfl⟩
  | dir i sub =>
    obtain ⟨k, hk⟩ := hdir sub i
    exact ⟨k + 1, hk⟩

/-- So what was moved into a directory is not that directory. -/
theorem not_movedTo_above (h : d.mvMove s t = some m) (pos : Nat) :
    ¬ ∀ r, (d.rename m pos).tree.stat (m.dst.dir ++ r) = m.moved.stat r := by
  intro hat
  have hself : ∀ r, m.moved.stat (m.dst.name :: r) = m.moved.stat r := by
    intro r
    rw [← hat, ← stat_rename_target h pos r]
    unfold Place.path
    rw [List.append_assoc, List.singleton_append]
  obtain ⟨k, hk⟩ := exists_stat_replicate m.dst.name m.moved
  have hall : ∀ k, m.moved.stat (List.replicate k m.dst.name) = some m.moved.node := by
    intro k
    induction k with
    | zero => rw [List.replicate_zero, Entry.stat, find_nil, Option.map_some]
    | succ k ih => rw [List.replicate_succ, hself, ih]
  cases (hall k).symm.trans hk

/-- A link that is not moved to looks as if it were if it is another name of the link that is
moved, over a third one. -/
theorem movedTo_of_sameLink (h : d.mvMove s t = some m) (pos : Nat) {l : Place} (hne : l ≠ m.dst)
    (hsame : d.SameLink m.src m.dst l) : d.MovedTo (d.rename m pos) m.src l := by
  obtain ⟨hsrc, i, sp, hfrom, hto, hl⟩ := hsame
  have hm := moves_of_mvMove h
  have hentry : d.tree.find m.src.path = some m.moved := hm.entry
  have hleaf : ∀ {p : Path} {x : Entry}, d.tree.stat p = some (.leaf i (some sp)) →
      d.tree.find p = some x → x = .leaf i (some sp) := by
    intro p x hp hx
    rw [Entry.stat, hx, Option.map_some, Option.some.injEq] at hp
    cases x with
    | leaf j s' => cases hp; rfl
    | dir j sub => cases hp
  have hmoved := hleaf hfrom hentry
  obtain ⟨y, hy, -⟩ := stat_eq_some.mp hl
  obtain ⟨z, hz, -⟩ := stat_eq_some.mp hto
  -- neither place is above the link, nor is the link above one of them
  have hapart : ∀ {x : Place}, d.tree.stat x.path = some (.leaf i (some sp)) → l ≠ x → ∀ r,
      ¬ x.path <+: l.path ++ r := by
    intro x hx hlx r hpre
    rcases List.prefix_or_prefix_of_prefix hpre (List.prefix_append l.path r) with hp | hp
    · exact hlx (path_inj (eq_of_leaf_above hx hl hp)).symm
    · exact hlx (path_inj (eq_of_leaf_above hl hx hp))
  refine ⟨m.moved, hentry, fun r => ?_, ?_, fun q hlq hfrom' => ?_⟩
  · rw [stat_rename h, if_neg (hapart hto hne r), if_neg (hapart hfrom hsrc r), stat_append hy,
      hleaf hl hy, hmoved]
  · exact hm.source_gone pos (target_not_above_source h)
  · by_cases hq : m.dst.path <+: q
    · obtain ⟨r, rfl⟩ := hq
      rw [stat_rename_target h, stat_append hz, hleaf hto hz, hmoved]
    · rw [stat_rename h, if_neg hq, if_neg hfrom']

/-- And only then. -/
theorem sameLink_of_movedTo (h : d.mvMove s t = some m) (pos : Nat) {l : Place} (hne : l ≠ m.dst)
    {i : Ino} {sp : Spelling} (hl : d.tree.stat l.path = some (.leaf i (some sp)))
    (hmoved : d.MovedTo (d.rename m pos) m.src l) : d.SameLink m.src m.dst l := by
  obtain ⟨moved, hfind, hat, hgone, hrest⟩ := hmoved
  obtain ⟨-, -, hren⟩ := mvMove_eq_some h
  obtain ⟨hentry, ⟨j, hdir⟩, hapart, -⟩ := renamed_eq_some hren
  cases hentry.symm.trans hfind
  have hself : (d.rename m pos).tree.stat l.path = some m.moved.node := by
    have hnil := hat []
    rw [List.append_nil] at hnil
    rw [hnil, Entry.stat, find_nil, Option.map_some]
  have hto : ¬ l.path <+: m.dst.path := by
    intro hpre
    rcases List.prefix_concat_iff.mp hpre with heq | hpre
    · exact hne (path_inj heq)
    · have heq := eq_of_leaf_above hl hdir hpre
      rw [heq, hdir] at hl
      cases hl
  have hbelow : ¬ m.dst.path <+: l.path := by
    rintro ⟨r, hr⟩
    cases r with
    | nil => exact hto ⟨[], by rw [← hr, List.append_nil, List.append_nil]⟩
    | cons n r =>
      have hnone := not_below_target h (n := n) (r := r)
      rw [hr] at hnone
      exact find_ne_none_of_stat hl hnone
  have hfrom : ¬ m.src.path <+: l.path := by
    intro hpre
    have hnone := stat_none_iff.mp hgone
    exact find_of_le hpre (find_ne_none_of_stat hself) hnone
  have hlink : d.tree.stat l.path = some m.moved.node := by
    rw [← hself, stat_rename h, if_neg hbelow, if_neg hfrom]
  -- the target is at none of the paths that may change
  have htarget : d.tree.stat m.dst.path = some m.moved.node := by
    have hself' := stat_rename_target h pos []
    rw [List.append_nil] at hself'
    rw [← hrest m.dst.path hto hapart, hself', Entry.stat, find_nil, Option.map_some]
  have hsource : d.tree.stat m.src.path = some m.moved.node := by
    rw [Entry.stat, hentry, Option.map_some]
  rw [hlink] at hl
  refine ⟨fun heq => hfrom (heq ▸ List.prefix_refl _), i, sp, ?_, ?_, ?_⟩
  · rw [hsource, hl]
  · rw [htarget, hl]
  · rw [hlink, hl]

/-- When `mv` makes the move to the place of `destination`. -/
theorem movedTo_iff (h : d.mvMove s t = some m) (pos : Nat) :
    (∃ l, d.place t = some l ∧ d.MovedTo (d.rename m pos) m.src l) ↔ d.Lands m t := by
  constructor
  · rintro ⟨l, hl, hmoved⟩
    refine ⟨l, hl, ?_⟩
    by_cases hne : l = m.dst
    · exact .inl hne
    right
    obtain ⟨-, htarget, hren⟩ := mvMove_eq_some h
    rcases mvTarget_eq_some htarget with hplace | ⟨q, i, hsight, hdir, hdst⟩
    · exact absurd (Option.some.inj (hl.symm.trans hplace)) hne
    obtain ⟨node, hnode, hq | ⟨j, sp, rfl⟩⟩ := place_sight hl hsight
    · -- the destination is the directory itself
      obtain ⟨moved, hfind, hat, -, -⟩ := hmoved
      cases (renamed_eq_some hren).1.symm.trans hfind
      have hdir' : m.dst.dir = l.path := by
        rw [hdst]
        exact hq
      exact absurd (hdir' ▸ hat) (not_movedTo_above h pos)
    · exact sameLink_of_movedTo h pos hne hnode hmoved
  · rintro ⟨l, hl, hland⟩
    refine ⟨l, hl, ?_⟩
    by_cases hne : l = m.dst
    · rw [hne]
      exact movedTo_target h pos
    · rcases hland with heq | hsame
      · exact absurd heq hne
      · exact movedTo_of_sameLink h pos hne hsame

end

end CommonCpp.Fs
