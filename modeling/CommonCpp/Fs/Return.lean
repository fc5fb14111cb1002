import CommonCpp.Fs.Mv

/-!
# Moving there and back

After a move to where nothing was, the old place and the new one are the only
differences, and at each of them one of the two trees has nothing. So a walk in the
tree behind the move goes as it went before it or one of the two ends in nothing
(`Disk.Agrees`), and a path still names the place it named or is lost. A move
back that `mv` makes is therefore from the new place to the old one, and restores
what was at every path (`stat_mvMove_back`); `mvMove_back_iff` says when it is made.
-/

namespace CommonCpp.Fs

open CommonCpp.Lib

/-- Two disks that say the same of every path at which both have something. -/
structure Disk.Agrees (d d' : Disk) : Prop where
  searchable : d'.searchable = d.searchable
  tooLong : d'.tooLong = d.tooLong
  stat : ∀ q, d'.tree.stat q = d.tree.stat q ∨ d'.tree.stat q = none ∨ d.tree.stat q = none

section

variable {d d' : Disk}

/-- A walk sees nothing of the tree but what `stat` says. -/
theorem walk_stat (d : Disk) (done todo : Path) (n : Name) :
    d.walk done (n :: todo) =
      match d.tree.stat done with
      | some (.dir ino) =>
        if d.searchable ino = false then .refused
        else if n = ascii "." then d.walk done todo
        else if n = ascii ".." then d.walk done.dropLast todo
        else
          match d.tree.stat (done ++ [n]) with
          | some (.dir _) => d.walk (done ++ [n]) todo
          | some (.leaf _ (some s)) => .link (s.under done ++ todo)
          | some (.leaf _ none) => if todo = [] then .found (done ++ [n]) else .missing
          | none => .missing
      | _ => .missing := by
  rw [Disk.walk]
  cases hdir : d.tree.dirAt done with
  | some x =>
    have hstat : d.tree.stat done = some (.dir x.1) := stat_dir_iff.mpr ⟨x.2, dirAt_eq_some.mp hdir⟩
    generalize d.tree.stat done = node at hstat
    subst hstat
    rfl
  | none =>
    cases hstat : d.tree.stat done with
    | none => rfl
    | some node =>
      cases node with
      | leaf i link => rfl
      | dir i =>
        have hsome := isSome_dirAt.mpr ⟨i, hstat⟩
        rw [hdir] at hsome
        cases hsome

/-- A walk is the same in both, or one of them loses it. -/
theorem Disk.Agrees.walk (h : d.Agrees d') (todo done : Path) :
    d'.walk done todo = d.walk done todo ∨ d'.walk done todo = .missing ∨
      d.walk done todo = .missing := by
  induction todo generalizing done with
  | nil => exact .inl rfl
  | cons n todo ih =>
    rw [walk_stat, walk_stat, h.searchable]
    rcases h.stat done with heq | hnone | hnone
    case inr.inl => exact .inr (.inl (by rw [hnone]))
    case inr.inr => exact .inr (.inr (by rw [hnone]))
    rw [heq]
    match d.tree.stat done with
    | none => exact .inl rfl
    | some (.leaf _ _) => exact .inl rfl
    | some (.dir ino) =>
      dsimp only
      by_cases hsearch : d.searchable ino = false
      · rw [if_pos hsearch, if_pos hsearch]
        exact .inl rfl
      rw [if_neg hsearch, if_neg hsearch]
      by_cases hdot : n = ascii "."
      · rw [if_pos hdot, if_pos hdot]
        exact ih done
      rw [if_neg hdot, if_neg hdot]
      by_cases hup : n = ascii ".."
      · rw [if_pos hup, if_pos hup]
        exact ih _
      rw [if_neg hup, if_neg hup]
      rcases h.stat (done ++ [n]) with heq | hnone | hnone
      · rw [heq]
        cases d.tree.stat (done ++ [n]) with
        | none => exact .inl rfl
        | some node =>
          cases node with
          | dir i => exact ih _
          | leaf i link => cases link <;> exact .inl rfl
      · rw [hnone]
        exact .inr (.inl rfl)
      · rw [hnone]
        exact .inr (.inr rfl)

theorem Disk.Agrees.sightIn (h : d.Agrees d') (k : Nat) (p : Path) :
    d'.sightIn k p = d.sightIn k p ∨ d'.sightIn k p = .missing ∨ d.sightIn k p = .missing := by
  induction k generalizing p with
  | zero => exact .inl rfl
  | succ k ih =>
    rw [sightIn_succ, sightIn_succ]
    rcases h.walk p [] with heq | hmissing | hmissing
    · rw [heq]
      cases d.walk [] p with
      | link q => exact ih q
      | found q | missing | refused => exact .inl rfl
    · rw [hmissing]
      exact .inr (.inl rfl)
    · rw [hmissing]
      exact .inr (.inr rfl)

/-- Where `stat` says the same of every path, every path leads to the same. -/
theorem sight_congr (hsearchable : d'.searchable = d.searchable) (hlong : d'.tooLong = d.tooLong)
    (hstat : ∀ q, d'.tree.stat q = d.tree.stat q) (p : Path) : d'.sight p = d.sight p := by
  have hwalk : ∀ todo done, d'.walk done todo = d.walk done todo := by
    intro todo
    induction todo with
    | nil => exact fun _ => rfl
    | cons n todo ih =>
      intro done
      rw [walk_stat, walk_stat, hsearchable, hstat, hstat, ih, ih, ih]
  have hsight : ∀ k p, d'.sightIn k p = d.sightIn k p := by
    intro k
    induction k with
    | zero => exact fun _ => rfl
    | succ k ih =>
      intro p
      rw [sightIn_succ, sightIn_succ, hwalk]
      cases d.walk [] p with
      | link q => exact ih q
      | found q | missing | refused => rfl
  unfold Disk.sight
  rw [hlong, hsight]

/-- A path names the place it named, or is lost. -/
theorem Disk.Agrees.place (h : d.Agrees d') {p : Path} {x : Place} (hx : d.place p = some x)
    (hdir : d'.tree.stat x.dir = d.tree.stat x.dir) :
    d'.place p = some x ∨ d'.place p = none ∧ d'.sight p = .missing := by
  obtain ⟨hlong, hdot, q, rfl, hsight, i, hi⟩ := place_eq_some.mp hx
  rw [← h.tooLong] at hlong
  rcases h.sightIn 41 q with heq | hmissing | hmissing
  · exact .inl (place_eq_some.mpr ⟨hlong, hdot, q, rfl, heq.trans hsight, i, hdir.trans hi⟩)
  · right
    constructor
    · by_contra hne
      obtain ⟨y, hy⟩ := Option.ne_none_iff_exists'.mp hne
      obtain ⟨-, -, q', hq', hsight', -⟩ := place_eq_some.mp hy
      cases (List.append_inj' hq' rfl).1
      cases hmissing.symm.trans hsight'
    · rw [Disk.sight, if_neg (by simpa using hlong)]
      exact sightIn_append_missing hmissing _
  · cases hmissing.symm.trans hsight

/-- Where there is nothing, `mv` moves to the place itself. -/
theorem mvTarget_of_free {p : Path} {x : Place} (hx : d.place p = some x)
    (hfree : d.tree.stat x.path = none) (src : Place) : d.mvTarget src p = some x := by
  unfold Disk.mvTarget
  split
  · next q hdir hsight =>
    obtain ⟨node, hnode, -⟩ := place_sight hx hsight
    cases hfree.symm.trans hnode
  · exact hx

/-- A path that is lost is no target. -/
theorem mvTarget_of_lost {p : Path} (hplace : d.place p = none) (hsight : d.sight p = .missing)
    (src : Place) : d.mvTarget src p = none := by
  unfold Disk.mvTarget
  rw [hsight]
  split
  · next heq => cases heq
  · exact hplace

end

section

variable {d : Disk} {s t : Path} {m : Move}

/-- Nothing is below where nothing is. -/
theorem stat_none_below {e : Entry} {p q : Path} (h : e.stat p = none) (hpq : p <+: q) :
    e.stat q = none := by
  by_contra hne
  obtain ⟨node, hnode⟩ := Option.ne_none_iff_exists'.mp hne
  exact find_of_le hpq (find_ne_none_of_stat hnode) (stat_none_iff.mp h)

theorem agrees_rename (h : d.mvMove s t = some m) (hfree : d.tree.stat m.dst.path = none)
    (pos : Nat) : d.Agrees (d.rename m pos) where
  searchable := rfl
  tooLong := rfl
  stat q := by
    rw [stat_rename h]
    by_cases hto : m.dst.path <+: q
    · exact .inr (.inr (stat_none_below hfree hto))
    rw [if_neg hto]
    by_cases hfrom : m.src.path <+: q
    · rw [if_pos hfrom]
      exact .inr (.inl rfl)
    · rw [if_neg hfrom]
      exact .inl rfl

/-- The directories moved from and to are where they were. -/
theorem stat_dirs_rename (h : d.mvMove s t = some m) (pos : Nat) :
    (d.rename m pos).tree.stat m.src.dir = d.tree.stat m.src.dir ∧
      (d.rename m pos).tree.stat m.dst.dir = d.tree.stat m.dst.dir := by
  have hself : ∀ x : Place, ¬ x.path <+: x.dir := fun x => snoc_not_above x.dir x.name
  have hapart : ¬ m.src.path <+: m.dst.dir := fun hp =>
    (moves_of_mvMove h).apart (hp.trans (List.prefix_append _ _))
  constructor
  · rw [stat_rename h, if_neg (target_not_above_source h), if_neg (hself m.src)]
  · rw [stat_rename h, if_neg (hself m.dst), if_neg hapart]

/-- A destination at which there is nothing is where the move goes. -/
theorem dst_of_free (h : d.mvMove s t = some m) {l : Place} (hl : d.place t = some l)
    (hfree : d.tree.stat l.path = none) : m.dst = l := by
  obtain ⟨-, htarget, -⟩ := mvMove_eq_some h
  rw [mvTarget_of_free hl hfree] at htarget
  exact (Option.some.inj htarget).symm

theorem stat_source_rename (h : d.mvMove s t = some m) (pos : Nat) :
    (d.rename m pos).tree.stat m.src.path = none :=
  (moves_of_mvMove h).source_gone pos (target_not_above_source h)

/-- A move back goes from the new place to the old one. -/
theorem places_back (h : d.mvMove s t = some m) {l : Place} (hl : d.place t = some l)
    (hfree : d.tree.stat l.path = none) {pos : Nat} {m' : Move}
    (hback : (d.rename m pos).mvMove t s = some m') :
    (d.rename m pos).place t = some m'.src ∧ (d.rename m pos).place s = some m'.dst ∧
      m'.src = m.dst ∧ m'.dst = m.src := by
  have hdst := dst_of_free h hl hfree
  rw [← hdst] at hl hfree
  have hagrees := agrees_rename h hfree pos
  obtain ⟨hsrcdir, hdstdir⟩ := stat_dirs_rename h pos
  obtain ⟨hfrom, htarget, -⟩ := mvMove_eq_some hback
  have hsrc : m'.src = m.dst := by
    rcases hagrees.place hl hdstdir with hsame | ⟨hlost, -⟩
    · exact Option.some.inj (hfrom.symm.trans hsame)
    · cases hlost.symm.trans hfrom
  rcases hagrees.place (mvMove_eq_some h).1 hsrcdir with hsame | ⟨hlost, hmissing⟩
  · rw [mvTarget_of_free hsame (stat_source_rename h pos)] at htarget
    exact ⟨hfrom, hsame.trans htarget, hsrc, (Option.some.inj htarget).symm⟩
  · rw [mvTarget_of_lost hlost hmissing] at htarget
    cases htarget

/-- What was moved can be renamed back. -/
theorem exists_renamed_back (h : d.mvMove s t = some m) (pos : Nat) :
    ∃ moved, (d.rename m pos).renamed m.dst m.src = some moved := by
  obtain ⟨moved, hmoved⟩ : ∃ moved, (d.rename m pos).tree.find m.dst.path = some moved := by
    have hstat := stat_rename_target h pos []
    rw [List.append_nil, Entry.stat, Entry.stat, find_nil, Option.map_some] at hstat
    obtain ⟨moved, hmoved, -⟩ := Option.map_eq_some_iff.mp hstat
    exact ⟨moved, hmoved⟩
  have hdir : ((d.rename m pos).tree.dirAt m.src.dir).isSome = true := by
    obtain ⟨i, sub, hsub⟩ := (moves_of_mvMove h).source
    exact isSome_dirAt.mpr ⟨i, (stat_dirs_rename h pos).1.trans (stat_dir_iff.mpr ⟨sub, hsub⟩)⟩
  have hapart : ¬ m.dst.path <+: m.src.path := by
    intro hpre
    rcases List.prefix_concat_iff.mp hpre with heq | hpre
    · exact (moves_of_mvMove h).apart (heq ▸ List.prefix_refl _)
    · exact target_not_above_source h hpre
  obtain ⟨x, hx⟩ := Option.isSome_iff_exists.mp hdir
  refine ⟨moved, ?_⟩
  unfold Disk.renamed
  rw [hmoved, hx]
  dsimp only
  rw [if_neg hapart, stat_none_iff.mp (stat_source_rename h pos)]

/-- The move back is made where both paths still name their places. -/
theorem mvMove_back_iff (h : d.mvMove s t = some m) {l : Place} (hl : d.place t = some l)
    (hfree : d.tree.stat l.path = none) (pos : Nat) :
    (∃ m', (d.rename m pos).mvMove t s = some m') ↔
      (d.rename m pos).place t = some m.dst ∧ (d.rename m pos).place s = some m.src := by
  constructor
  · rintro ⟨m', hback⟩
    obtain ⟨ht, hs, hsrc, hdst⟩ := places_back h hl hfree hback
    exact ⟨hsrc ▸ ht, hdst ▸ hs⟩
  · rintro ⟨ht, hs⟩
    obtain ⟨moved, hmoved⟩ := exists_renamed_back h pos
    refine ⟨⟨m.dst, m.src, moved⟩, ?_⟩
    unfold Disk.mvMove
    rw [ht, Option.bind_some, mvTarget_of_free hs (stat_source_rename h pos), Option.bind_some,
      hmoved]
    rfl

/-- And what was at every path is there again. -/
theorem stat_mvMove_back (h : d.mvMove s t = some m) {l : Place} (hl : d.place t = some l)
    (hfree : d.tree.stat l.path = none) {pos : Nat} {m' : Move}
    (hback : (d.rename m pos).mvMove t s = some m') (pos' : Nat) (q : Path) :
    ((d.rename m pos).rename m' pos').tree.stat q = d.tree.stat q := by
  obtain ⟨-, -, hsrc, hdst⟩ := places_back h hl hfree hback
  rw [← dst_of_free h hl hfree] at hfree
  by_cases hfrom : m.src.path <+: q
  · obtain ⟨r, rfl⟩ := hfrom
    calc ((d.rename m pos).rename m' pos').tree.stat (m.src.path ++ r)
        = m'.moved.stat r := by rw [← hdst, stat_rename_target hback]
      _ = (d.rename m pos).tree.stat (m'.src.path ++ r) :=
          (stat_append (moves_of_mvMove hback).entry r).symm
      _ = m.moved.stat r := by rw [hsrc, stat_rename_target h]
      _ = d.tree.stat (m.src.path ++ r) := (stat_append (moves_of_mvMove h).entry r).symm
  rw [stat_rename hback, hsrc, hdst, if_neg hfrom]
  by_cases hto : m.dst.path <+: q
  · rw [if_pos hto, stat_none_below hfree hto]
  · rw [if_neg hto, stat_rename h, if_neg hto, if_neg hfrom]

end

end CommonCpp.Fs
