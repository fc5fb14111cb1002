import CommonCpp.Fs.Access

/-!
# Places

A path names a place, the directory it leads to but for its last element and
that element's name in it; what is at the place need not be what the path leads
to, as the last element can be a link (`place_sight`). `rename`, `unlink` and
`mkdir` are about places, `stat` and `opendir` about what is led to.

`sight_unlink`: once the leaf at the place of a path is taken out, there is
nothing to see at that path, however it got there.
-/

namespace CommonCpp.Fs

open CommonCpp.Lib

/-- A directory, and a name in it. -/
structure Place where
  dir : Path
  name : Name
deriving DecidableEq

def Place.path (x : Place) : Path := x.dir ++ [x.name]

/-- The place a path names. -/
def Disk.place (d : Disk) (p : Path) : Option Place :=
  match p.getLast? with
  | none => none
  | some n =>
    if d.tooLong p ∨ isDot n then none
    else
      match d.sightIn 41 p.dropLast with
      | .found q => if (d.tree.dirAt q).isSome then some ⟨q, n⟩ else none
      | .missing | .refused => none

/-- How a walk goes on: along the link it met, or not at all. -/
def Disk.arrive (d : Disk) (k : Nat) : Pace → Sight
  | .found q => .found q
  | .link q => d.sightIn k q
  | .missing => .missing
  | .refused => .refused

theorem sightIn_succ (d : Disk) (k : Nat) (p : Path) :
    d.sightIn (k + 1) p = d.arrive k (d.walk [] p) := by
  rw [Disk.sightIn]
  cases d.walk [] p <;> rfl

theorem isSome_dirAt {e : Entry} {p : Path} :
    (e.dirAt p).isSome = true ↔ ∃ i, e.stat p = some (.dir i) := by
  constructor
  · intro h
    obtain ⟨⟨i, sub⟩, hdir⟩ := Option.isSome_iff_exists.mp h
    exact ⟨i, stat_dir_iff.mpr ⟨sub, dirAt_eq_some.mp hdir⟩⟩
  · rintro ⟨i, h⟩
    obtain ⟨sub, hsub⟩ := stat_dir_iff.mp h
    rw [dirAt_eq_some.mpr hsub]
    rfl

theorem place_eq_some {d : Disk} {p : Path} {x : Place} :
    d.place p = some x ↔ d.tooLong p = false ∧ isDot x.name = false ∧
      ∃ q, p = q ++ [x.name] ∧ d.sightIn 41 q = .found x.dir ∧
        ∃ i, d.tree.stat x.dir = some (.dir i) := by
  unfold Disk.place
  rcases List.eq_nil_or_concat p with rfl | ⟨q, n, rfl⟩
  · refine ⟨nofun, ?_⟩
    rintro ⟨-, -, q, hq, -⟩
    exact absurd hq.symm (by simp)
  · rw [List.concat_eq_append, List.getLast?_concat, List.dropLast_concat]
    dsimp only
    by_cases hbad : d.tooLong (q ++ [n]) = true ∨ isDot n = true
    · rw [if_pos hbad]
      refine ⟨nofun, ?_⟩
      rintro ⟨hlong, hdot, q', hq, -⟩
      obtain ⟨-, hn⟩ := List.append_inj' hq rfl
      rw [(List.cons.inj hn).1] at hbad
      rw [(List.cons.inj hn).1] at hlong
      rcases hbad with h | h
      · cases hlong.symm.trans h
      · cases hdot.symm.trans h
    · rw [if_neg hbad]
      obtain ⟨hlong, hdot⟩ := not_or.mp hbad
      constructor
      · intro h
        cases hsight : d.sightIn 41 q with
        | missing | refused =>
          simp only [hsight] at h
          cases h
        | found r =>
          simp only [hsight] at h
          split at h
          · next hdir =>
            cases h
            exact ⟨by simpa using hlong, by simpa using hdot, q, rfl, hsight, isSome_dirAt.mp hdir⟩
          · cases h
      · rintro ⟨-, -, q', hq, hsight, hdir⟩
        obtain ⟨hq', hn⟩ := List.append_inj' hq rfl
        rw [hq', hsight]
        dsimp only
        rw [if_pos (isSome_dirAt.mpr hdir), (List.cons.inj hn).1]

/-! ## Walking on -/

/-- The walk goes on from the directory its first part leads to, or from the link it
meets there, or it is over. -/
theorem Disk.walk_append (d : Disk) (z todo done : Path) :
    (∀ q i, d.walk done todo = .found q → d.tree.stat q = some (.dir i) →
        d.walk done (todo ++ z) = d.walk q z) ∧
      (∀ t, d.walk done todo = .link t → d.walk done (todo ++ z) = .link (t ++ z)) ∧
      (d.walk done todo = .missing → d.walk done (todo ++ z) = .missing) := by
  induction todo generalizing done with
  | nil =>
    refine ⟨fun q i h _ => ?_, by rintro _ ⟨⟩, by rintro ⟨⟩⟩
    cases h
    rfl
  | cons n todo ih =>
    rw [List.cons_append, Disk.walk, Disk.walk]
    cases d.tree.dirAt done with
    | none => exact ⟨by rintro _ _ ⟨⟩, by rintro _ ⟨⟩, fun _ => rfl⟩
    | some x =>
      dsimp only
      by_cases hsearch : d.searchable x.1 = false
      · rw [if_pos hsearch, if_pos hsearch]
        exact ⟨by rintro _ _ ⟨⟩, by rintro _ ⟨⟩, by rintro ⟨⟩⟩
      rw [if_neg hsearch, if_neg hsearch]
      by_cases hdot : n = ascii "."
      · rw [if_pos hdot, if_pos hdot]
        exact ih done
      rw [if_neg hdot, if_neg hdot]
      by_cases hup : n = ascii ".."
      · rw [if_pos hup, if_pos hup]
        exact ih _
      rw [if_neg hup, if_neg hup]
      cases hstat : d.tree.stat (done ++ [n]) with
      | none => exact ⟨by rintro _ _ ⟨⟩, by rintro _ ⟨⟩, fun _ => rfl⟩
      | some node =>
        cases node with
        | dir i => exact ih _
        | leaf i link =>
          cases link with
          | some s =>
            -- the link is not followed, what is behind it is kept
            refine ⟨by rintro _ _ ⟨⟩, fun t h => ?_, by rintro ⟨⟩⟩
            cases h
            dsimp only
            rw [List.append_assoc]
          | none =>
            dsimp only
            by_cases hlast : todo = []
            · -- a file has nothing below it
              rw [if_pos hlast]
              refine ⟨fun q j h hq => ?_, by rintro _ ⟨⟩, by rintro ⟨⟩⟩
              cases h
              rw [hstat] at hq
              cases hq
            · rw [if_neg hlast, if_neg fun h => hlast (List.append_eq_nil_iff.mp h).1]
              exact ⟨by rintro _ _ ⟨⟩, by rintro _ ⟨⟩, fun _ => rfl⟩

/-- Behind a path to a directory the walk goes on there. -/
theorem sightIn_append {d : Disk} {k : Nat} {q r : Path} {i : Ino} (h : d.sightIn k q = .found r)
    (hr : d.tree.stat r = some (.dir i)) (z : Path) :
    ∃ j, d.sightIn k (q ++ z) = d.arrive j (d.walk r z) := by
  induction k generalizing q with
  | zero => cases h
  | succ k ih =>
    rw [sightIn_succ] at h
    rw [sightIn_succ]
    obtain ⟨hfound, hlink, -⟩ := Disk.walk_append d z q []
    cases hw : d.walk [] q with
    | found q' =>
      rw [hw] at h
      cases h
      exact ⟨k, by rw [hfound r i hw hr]⟩
    | link t =>
      rw [hw] at h
      rw [hlink t hw]
      exact ih h
    | missing | refused =>
      rw [hw] at h
      cases h

theorem sightIn_append_missing {d : Disk} {k : Nat} {q : Path} (h : d.sightIn k q = .missing)
    (z : Path) : d.sightIn k (q ++ z) = .missing := by
  induction k generalizing q with
  | zero => cases h
  | succ k ih =>
    rw [sightIn_succ] at h
    rw [sightIn_succ]
    obtain ⟨-, hlink, hmissing⟩ := Disk.walk_append d z q []
    cases hw : d.walk [] q with
    | found q' =>
      rw [hw] at h
      cases h
    | link t =>
      rw [hw] at h
      rw [hlink t hw]
      exact ih h
    | missing =>
      rw [hmissing hw]
      rfl
    | refused =>
      rw [hw] at h
      cases h

/-- The walk over one name of a directory. -/
theorem walk_name {d : Disk} {done : Path} {n : Name} {i : Ino}
    (hdone : d.tree.stat done = some (.dir i)) (hdot : isDot n = false) :
    d.walk done [n] = if d.searchable i = false then .refused
      else match d.tree.stat (done ++ [n]) with
        | some (.leaf _ (some s)) => .link (s.under done)
        | some _ => .found (done ++ [n])
        | none => .missing := by
  obtain ⟨sub, hsub⟩ := stat_dir_iff.mp hdone
  rw [Disk.walk, dirAt_eq_some.mpr hsub]
  dsimp only
  by_cases hsearch : d.searchable i = false
  · rw [if_pos hsearch, if_pos hsearch]
  rw [if_neg hsearch, if_neg hsearch, if_neg (not_dot_ne hdot).1, if_neg (not_dot_ne hdot).2]
  cases d.tree.stat (done ++ [n]) with
  | none => rfl
  | some node =>
    cases node with
    | dir j => rfl
    | leaf j link =>
      cases link with
      | none => rfl
      | some s =>
        dsimp only
        rw [List.append_nil]

/-- Where a path leads that leads somewhere: to what is at its place, or through the link there. -/
theorem place_sight {d : Disk} {p q : Path} {x : Place} (hx : d.place p = some x)
    (hq : d.sight p = .found q) :
    ∃ node, d.tree.stat x.path = some node ∧ (q = x.path ∨ ∃ i s, node = .leaf i (some s)) := by
  obtain ⟨hlong, hdot, r, rfl, hr, i, hi⟩ := place_eq_some.mp hx
  rw [Disk.sight, if_neg (by simpa using hlong)] at hq
  obtain ⟨j, hj⟩ := sightIn_append hr hi [x.name]
  rw [hj] at hq
  rw [walk_name hi hdot] at hq
  unfold Place.path
  by_cases hsearch : d.searchable i = false
  · rw [if_pos hsearch] at hq
    cases hq
  rw [if_neg hsearch] at hq
  cases hstat : d.tree.stat (x.dir ++ [x.name]) with
  | none =>
    simp only [hstat] at hq
    cases hq
  | some node =>
    refine ⟨node, rfl, ?_⟩
    cases node with
    | dir k =>
      simp only [hstat] at hq
      cases hq
      exact .inl rfl
    | leaf k link =>
      cases link with
      | some s => exact .inr ⟨k, s, rfl⟩
      | none =>
        simp only [hstat] at hq
        cases hq
        exact .inl rfl

/-! ## Taking out a leaf -/

/-- Nothing is below a leaf. -/
theorem eq_of_leaf_above {e : Entry} {p q : Path} {i : Ino} {s : Option Spelling} {node : Node}
    (hp : e.stat p = some (.leaf i s)) (hq : e.stat q = some node) (hpq : p <+: q) : p = q := by
  obtain ⟨r, rfl⟩ := hpq
  cases r with
  | nil => exact (List.append_nil p).symm
  | cons n r =>
    obtain ⟨k, hk⟩ := stat_dir_of_below (find_ne_none_of_stat hq)
    cases hp.symm.trans hk

/-- Above a directory there is a directory. -/
theorem stat_dir_dropLast {e : Entry} {p : Path} {i : Ino} (h : e.stat p = some (.dir i)) :
    ∃ j, e.stat p.dropLast = some (.dir j) := by
  rcases List.eq_nil_or_concat p with rfl | ⟨q, m, rfl⟩
  · exact ⟨i, h⟩
  · rw [List.concat_eq_append] at h ⊢
    rw [List.dropLast_concat]
    exact stat_dir_of_below (find_ne_none_of_stat h)

/-- The tree without the entry at a place. -/
def Disk.unlink (d : Disk) (x : Place) : Disk := { d with tree := d.tree.eraseAt x.dir x.name }

section

variable {d : Disk} {x : Place} {i j : Ino} {link : Option Spelling}

theorem stat_unlink (hdir : d.tree.stat x.dir = some (.dir i)) (q : Path) :
    (d.unlink x).tree.stat q = if x.path <+: q then none else d.tree.stat q := by
  obtain ⟨sub, hsub⟩ := stat_dir_iff.mp hdir
  exact stat_eraseAt hsub q

/-- Directories are not below the leaf that was taken out. -/
theorem stat_unlink_dir (hdir : d.tree.stat x.dir = some (.dir i))
    (hleaf : d.tree.stat x.path = some (.leaf j link)) {q : Path} {k : Ino}
    (hq : d.tree.stat q = some (.dir k)) : (d.unlink x).tree.stat q = some (.dir k) := by
  rw [stat_unlink hdir, if_neg, hq]
  intro hpre
  rw [eq_of_leaf_above hleaf hq hpre, hq] at hleaf
  cases hleaf

/-- A walk goes as before, or meets the gap. -/
theorem walk_unlink (hdir : d.tree.stat x.dir = some (.dir i))
    (hleaf : d.tree.stat x.path = some (.leaf j link)) (todo done : Path) {k : Ino}
    (hdone : d.tree.stat done = some (.dir k)) :
    (d.unlink x).walk done todo = d.walk done todo ∨ (d.unlink x).walk done todo = .missing := by
  induction todo generalizing done k with
  | nil => exact .inl rfl
  | cons n todo ih =>
    obtain ⟨sub, hsub⟩ := stat_dir_iff.mp hdone
    obtain ⟨sub', hsub'⟩ := stat_dir_iff.mp (stat_unlink_dir hdir hleaf hdone)
    rw [Disk.walk, Disk.walk, dirAt_eq_some.mpr hsub, dirAt_eq_some.mpr hsub']
    dsimp only
    by_cases hsearch : d.searchable k = false
    · rw [if_pos hsearch, if_pos (show (d.unlink x).searchable k = false from hsearch)]
      exact .inl rfl
    rw [if_neg hsearch, if_neg (show ¬ (d.unlink x).searchable k = false from hsearch)]
    by_cases hdot : n = ascii "."
    · rw [if_pos hdot, if_pos hdot]
      exact ih done hdone
    rw [if_neg hdot, if_neg hdot]
    by_cases hup : n = ascii ".."
    · rw [if_pos hup, if_pos hup]
      obtain ⟨k', hk'⟩ := stat_dir_dropLast hdone
      exact ih _ hk'
    rw [if_neg hup, if_neg hup, stat_unlink hdir]
    by_cases hgap : x.path <+: done ++ [n]
    · rw [if_pos hgap]
      exact .inr rfl
    rw [if_neg hgap]
    cases hstat : d.tree.stat (done ++ [n]) with
    | none => exact .inl rfl
    | some node =>
      cases node with
      | dir k' => exact ih _ hstat
      | leaf k' link' => cases link' <;> exact .inl rfl

theorem sightIn_unlink (hdir : d.tree.stat x.dir = some (.dir i))
    (hleaf : d.tree.stat x.path = some (.leaf j link)) (k : Nat) (p : Path) :
    (d.unlink x).sightIn k p = d.sightIn k p ∨ (d.unlink x).sightIn k p = .missing := by
  have hroot : ∃ r, d.tree.stat [] = some (.dir r) := by
    cases hx : x.dir with
    | nil => exact ⟨i, hx ▸ hdir⟩
    | cons n r =>
      rw [hx] at hdir
      exact stat_dir_of_below (p := []) (find_ne_none_of_stat hdir)
  obtain ⟨r, hr⟩ := hroot
  induction k generalizing p with
  | zero => exact .inl rfl
  | succ k ih =>
    rw [sightIn_succ, sightIn_succ]
    rcases walk_unlink hdir hleaf p [] hr with hw | hw
    · rw [hw]
      cases d.walk [] p with
      | link q => exact ih q
      | found q | missing | refused => exact .inl rfl
    · rw [hw]
      exact .inr rfl

/-- A path that led to something that was no directory leads to nothing once the entry at its
place is gone: whichever way it goes, it meets the gap. -/
theorem sight_unlink {p q : Path} (hx : d.place p = some x) (hq : d.sight p = .found q)
    (hleaf : d.tree.stat x.path = some (.leaf j link)) : (d.unlink x).sight p = .missing := by
  obtain ⟨hlong, hdot, r, rfl, hr, i, hi⟩ := place_eq_some.mp hx
  have hi' := stat_unlink_dir hi hleaf hi
  have hnone : (d.unlink x).tree.stat (x.dir ++ [x.name]) = none := by
    rw [stat_unlink hi]
    exact if_pos (List.prefix_refl _)
  have hlong' : (d.unlink x).tooLong (r ++ [x.name]) = false := hlong
  rw [Disk.sight, if_neg (by simpa using hlong)] at hq
  rw [Disk.sight, if_neg (by simpa using hlong')]
  rcases sightIn_unlink hi hleaf 41 r with hsame | hmissing
  · rw [hr] at hsame
    obtain ⟨k, hk⟩ := sightIn_append hr hi [x.name]
    obtain ⟨k', hk'⟩ := sightIn_append hsame hi' [x.name]
    rw [hk, walk_name hi hdot] at hq
    rw [hk', walk_name hi' hdot, hnone]
    by_cases hsearch : d.searchable i = false
    · rw [if_pos hsearch] at hq
      cases hq
    · rw [if_neg (show ¬ (d.unlink x).searchable i = false from hsearch)]
      rfl
  · exact sightIn_append_missing hmissing [x.name]

end

end CommonCpp.Fs
