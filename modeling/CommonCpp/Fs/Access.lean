import CommonCpp.Fs.FindFiles
import CommonCpp.Fs.Move
import Mathlib.Logic.Relation

/-!
# Path resolution that can be refused

`Entry.walk` with what it leaves out: a directory one may not search stops the
walk, one that may not be read cannot be opened or watched (a descriptor or a
watch that is not to be had comes to the same), and a path can be longer than
the kernel takes. So looking at a path ends in one of three ways: there is
something, there is nothing (`ENOENT`, `ENOTDIR`), or the kernel refuses to say
(`EACCES`, `ELOOP`, `ENAMETOOLONG`). `std::filesystem::is_directory` takes the
second for an answer and throws for the third.

Where everything is permitted this is the resolution of `Fs.Resolve`
(`sight_of_open`). A link to itself is refused whatever is permitted
(`selfLink_refused`).
-/

namespace CommonCpp.Fs

open CommonCpp.Lib

/-- A tree, and what this process may do in it. -/
structure Disk where
  tree : Entry
  readable : Ino → Bool
  searchable : Ino → Bool
  /-- The text of the path is longer than the kernel takes. -/
  tooLong : Path → Bool

/-- What there is to see at a path, following links. -/
inductive Sight where
  | found (p : Path)
  | missing
  | refused
deriving DecidableEq

/-- How the walk along one path ends. -/
inductive Pace where
  | found (p : Path)
  | link (p : Path)
  | missing
  | refused

/-- Walk along `todo`, standing in the directory `done`, which is searched for every
element. -/
def Disk.walk (d : Disk) : Path → Path → Pace
  | done, [] => .found done
  | done, n :: todo =>
    match d.tree.dirAt done with
    | none => .missing
    | some (ino, _) =>
      if d.searchable ino = false then .refused
      else if n = ascii "." then d.walk done todo
      else if n = ascii ".." then d.walk done.dropLast todo
      else
        match d.tree.stat (done ++ [n]) with
        | some (.dir _) => d.walk (done ++ [n]) todo
        | some (.leaf _ (some s)) => .link (s.under done ++ todo)
        | some (.leaf _ none) => if todo = [] then .found (done ++ [n]) else .missing
        | none => .missing

/-- Follow at most `k` restarts; one more is `ELOOP`. -/
def Disk.sightIn (d : Disk) : Nat → Path → Sight
  | 0, _ => .refused
  | k + 1, p =>
    match d.walk [] p with
    | .found q => .found q
    | .link q => d.sightIn k q
    | .missing => .missing
    | .refused => .refused

/-- `stat` -/
def Disk.sight (d : Disk) (p : Path) : Sight := if d.tooLong p then .refused else d.sightIn 41 p

/-- `std::filesystem::is_directory`; `none` if it throws. -/
def Disk.isDirectory (d : Disk) (p : Path) : Option Bool :=
  match d.sight p with
  | .found q => some (d.tree.dirAt q).isSome
  | .missing => some false
  | .refused => none

/-- `opendir` -/
def Disk.openDir (d : Disk) (p : Path) : Option (Ino × Dir) :=
  match d.sight p with
  | .found q => (d.tree.dirAt q).filter fun x => d.readable x.1
  | .missing | .refused => none

/-- The inode `inotify_add_watch` gets to. -/
def Disk.watchIno (d : Disk) (p : Path) : Option Ino :=
  match d.sight p with
  | .found q => ((d.tree.stat q).map Node.ino).filter d.readable
  | .missing | .refused => none

/-- What a call of `find_files` has to do next, innermost first. -/
inductive Item where
  /-- Open this directory. -/
  | directory (p : Path)
  /-- Go through the entries `readdir` has not given yet. -/
  | entries (p : Path) (d : Dir)

/-- One step of `find_files(path, paths, true, 2)`; `none` is its exception. -/
def Disk.listStep (d : Disk) (files : List Path) : Item → List Item → Option (List Path × List Item)
  | .directory p, stack => (d.openDir p).map fun (_, sub) => (files, .entries p sub :: stack)
  | .entries _ .nil, stack => some (files, stack)
  | .entries p (.leaf _ _ _ rest), stack => some (files, .entries p rest :: stack)
  | .entries p (.dir n _ _ rest), stack =>
    if isDot n then some (files, .entries p rest :: stack)
    else some (files ++ [p ++ [n]], .directory (p ++ [n]) :: .entries p rest :: stack)

/-- Everything may be read and searched, and no path is too long. -/
structure Disk.Open (d : Disk) : Prop where
  root : ∃ ino sub, d.tree = .dir ino sub
  readable : ∀ i, d.readable i = true
  searchable : ∀ i, d.searchable i = true
  short : ∀ p, d.tooLong p = false

/-- `is_directory` throws where the kernel refuses to say what there is. -/
theorem isDirectory_eq_none {d : Disk} {p : Path} :
    d.isDirectory p = none ↔ d.sight p = .refused := by
  unfold Disk.isDirectory
  cases d.sight p with
  | found q => exact ⟨nofun, nofun⟩
  | missing => exact ⟨nofun, nofun⟩
  | refused => exact ⟨fun _ => rfl, fun _ => rfl⟩

/-! ## Where nothing is refused -/

/-- What a walk without permissions says of one with them. -/
def Walk.pace : Walk → Pace
  | .found p => .found p
  | .link p => .link p
  | .fail => .missing

theorem walk_of_open {d : Disk} (h : d.Open) (todo done : Path)
    (hdone : (d.tree.dirAt done).isSome = true) :
    d.walk done todo = (d.tree.walk done todo).pace := by
  induction todo generalizing done with
  | nil => rfl
  | cons n todo ih =>
    obtain ⟨⟨ino, sub⟩, hdir⟩ := Option.isSome_iff_exists.mp hdone
    rw [Disk.walk, Entry.walk, hdir]
    dsimp only
    rw [if_neg (by rw [h.searchable ino]; rintro ⟨⟩)]
    by_cases hdot : n = ascii "."
    · rw [if_pos hdot, if_pos hdot]
      exact ih done hdone
    rw [if_neg hdot, if_neg hdot]
    by_cases hup : n = ascii ".."
    · rw [if_pos hup, if_pos hup]
      refine ih _ ?_
      -- above a directory there is a directory
      rcases List.eq_nil_or_concat done with rfl | ⟨q, m, rfl⟩
      · exact hdone
      · have hfind : d.tree.find (q ++ [m]) ≠ none := by
          rw [← List.concat_eq_append, dirAt_eq_some.mp hdir]
          rintro ⟨⟩
        obtain ⟨i, sub', hq⟩ := find_parent_dir hfind
        rw [List.concat_eq_append, List.dropLast_concat, dirAt_eq_some.mpr hq]
        rfl
    rw [if_neg hup, if_neg hup]
    cases hstat : d.tree.stat (done ++ [n]) with
    | none => rfl
    | some node =>
      cases node with
      | dir i =>
        obtain ⟨sub', hsub⟩ := stat_dir_iff.mp hstat
        exact ih _ (by rw [dirAt_eq_some.mpr hsub]; rfl)
      | leaf i link =>
        cases link with
        | some s => rfl
        | none =>
          dsimp only
          split <;> rfl

theorem sight_of_open {d : Disk} (h : d.Open) (p q : Path) :
    d.sight p = .found q ↔ d.tree.resolve p = some q := by
  obtain ⟨ino, sub, hroot⟩ := h.root
  have hdone : (d.tree.dirAt []).isSome = true := by
    rw [hroot]
    rfl
  rw [Disk.sight, h.short p, if_neg Bool.false_ne_true, Entry.resolve]
  generalize 41 = k
  induction k generalizing p with
  | zero => exact ⟨by rintro ⟨⟩, by rintro ⟨⟩⟩
  | succ k ih =>
    rw [Disk.sightIn, Entry.resolveIn, walk_of_open h p [] hdone]
    cases d.tree.walk [] p with
    | found r =>
      dsimp only [Walk.pace]
      rw [Sight.found.injEq, Option.some.injEq]
    | link r => exact ih r
    | fail => exact ⟨by rintro ⟨⟩, by rintro ⟨⟩⟩

/-- What is not found leads nowhere. -/
theorem resolve_eq_none_of_open {d : Disk} (h : d.Open) {p : Path}
    (hp : ∀ q, d.sight p ≠ .found q) : d.tree.resolve p = none := by
  cases hresolve : d.tree.resolve p with
  | none => rfl
  | some q => exact absurd ((sight_of_open h p q).mpr hresolve) (hp q)

theorem openDir_of_open {d : Disk} (h : d.Open) (p : Path) : d.openDir p = d.tree.openDir p := by
  unfold Disk.openDir Entry.openDir
  cases hsight : d.sight p with
  | found q =>
    rw [(sight_of_open h p q).mp hsight, Option.bind_some]
    dsimp only
    cases d.tree.dirAt q with
    | none => rfl
    | some x => exact Option.filter_eq_some_iff.mpr ⟨rfl, h.readable x.1⟩
  | missing | refused =>
    rw [resolve_eq_none_of_open h (by simp [hsight])]
    rfl

/-- Where the kernel says what there is, `is_directory` says what the tree says. -/
theorem isDirectory_of_open {d : Disk} (h : d.Open) {p : Path} (hp : d.sight p ≠ .refused) :
    d.isDirectory p = some (d.tree.isDirectory p) := by
  unfold Disk.isDirectory Entry.isDirectory Entry.openDir
  cases hsight : d.sight p with
  | found q =>
    rw [(sight_of_open h p q).mp hsight]
    rfl
  | missing =>
    rw [resolve_eq_none_of_open h (by simp [hsight])]
    rfl
  | refused => exact absurd hsight hp

/-! ## Listing step by step -/

/-- Steps of `find_files`, from what has been found and has to be done. -/
def Disk.ListRun (d : Disk) : List Path × List Item → List Path × List Item → Prop :=
  Relation.ReflTransGen fun a b =>
    ∃ item stack, a.2 = item :: stack ∧ d.listStep a.1 item stack = some b

/-- Every directory below `p` is still there when it is opened. -/
def Disk.Still (d : Disk) (p : Path) (sub : Dir) : Prop :=
  ∀ z i s, z ≠ [] → (Entry.dir 0 sub).find z = some (.dir i s) → d.openDir (p ++ z) = some (i, s)

theorem Disk.ListRun.step {d : Disk} {files : List Path} {item : Item} {stack : List Item}
    {a b : List Path × List Item} (h : d.listStep files item stack = some a) (hrun : d.ListRun a b) :
    d.ListRun (files, item :: stack) b :=
  Relation.ReflTransGen.head ⟨item, stack, rfl, h⟩ hrun

/-- The entries behind the first one are entries of the directory. -/
theorem Disk.Still.rest {d : Disk} {p : Path} {n : Name} {x : Entry} {rest : Dir}
    (h : d.Still p (rest.cons n x)) (hn : isDot n = false → rest.get n = none) :
    d.Still p rest := by
  intro z i s hz hfind
  refine h z i s hz ?_
  cases z with
  | nil => exact absurd rfl hz
  | cons m z =>
    obtain ⟨hdot, e, he, hfind⟩ := find_cons_eq_some.mp hfind
    refine find_cons_eq_some.mpr ⟨hdot, e, ?_, hfind⟩
    have hnm : n ≠ m := by
      rintro rfl
      cases (hn hdot).symm.trans he
    rw [get_cons, if_neg hnm, he]

/-- A sub-directory is still there, with all that is below it. -/
theorem Disk.Still.inside {d : Disk} {p : Path} {n : Name} {ino : Ino} {sub rest : Dir}
    (h : d.Still p (.dir n ino sub rest)) (hdot : isDot n = false) :
    d.openDir (p ++ [n]) = some (ino, sub) ∧ d.Still (p ++ [n]) sub := by
  have hfind : ∀ z,
      (Entry.dir 0 (.dir n ino sub rest)).find (n :: z) = (Entry.dir ino sub).find z := by
    intro z
    rw [find_dir_cons, if_neg (by rw [hdot]; exact nofun), Dir.get, if_pos rfl, Option.bind_some]
  refine ⟨h [n] ino sub nofun (hfind []), fun z i s hz hs => ?_⟩
  have hroot : (Entry.dir ino sub).find z = some (.dir i s) := by
    cases z with
    | nil => exact absurd rfl hz
    | cons m z => exact hs
  have hopen := h (n :: z) i s nofun ((hfind z).trans hroot)
  rw [List.append_assoc]
  exact hopen

/-- Where nothing changes meanwhile, the steps come to what `find_files` does at once. -/
theorem listing_run {d : Disk} {sub : Dir} (hwf : sub.WF) {p : Path} (h : d.Still p sub)
    (files : List Path) (stack : List Item) :
    d.ListRun (files, .entries p sub :: stack)
      (files ++ listing Path.append true 2 p sub, stack) := by
  induction sub generalizing p files stack with
  | nil =>
    rw [listing, List.append_nil]
    exact .step rfl .refl
  | leaf n ino link rest ih =>
    have hrest : d.Still p rest := Disk.Still.rest (x := .leaf ino link) h hwf.1
    refine .step rfl ?_
    rw [listing, if_neg (fun hn => hn.2 rfl), List.nil_append]
    exact ih hwf.2 hrest files stack
  | dir n ino sub rest ihsub ih =>
    have hrest : d.Still p rest := Disk.Still.rest (x := .dir ino sub) h hwf.1
    have hlater := fun files => ih hwf.2.2 hrest files stack
    rw [listing]
    by_cases hdot : isDot n = true
    · rw [if_pos hdot, List.nil_append]
      refine .step ?_ (hlater files)
      rw [Disk.listStep, if_pos hdot]
    · rw [if_neg hdot, if_pos (by decide), if_pos rfl, ← List.append_assoc, ← List.append_assoc]
      obtain ⟨hopen, hstill⟩ := h.inside (Bool.eq_false_iff.mpr hdot)
      have hpush : d.listStep files (.entries p (.dir n ino sub rest)) stack
          = some (files ++ [p ++ [n]], .directory (p ++ [n]) :: .entries p rest :: stack) := by
        rw [Disk.listStep, if_neg hdot]
      have henter : d.listStep (files ++ [p ++ [n]]) (.directory (p ++ [n]))
            (.entries p rest :: stack)
          = some (files ++ [p ++ [n]], .entries (p ++ [n]) sub :: .entries p rest :: stack) := by
        rw [Disk.listStep, hopen]
        rfl
      exact .step hpush (.step henter ((ihsub hwf.2.1 hstill _ _).trans (hlater _)))

/-- In a disk that refuses nothing, what a path leads to is there to be listed. -/
theorem still_of_open {d : Disk} (h : d.Open) {p q : Path} {ino : Ino} {sub : Dir}
    (hp : d.tree.resolve p = some q) (hq : d.tree.find q = some (.dir ino sub)) : d.Still p sub := by
  intro z i s hz hfind
  have hbelow : d.tree.find (q ++ z) = some (.dir i s) := by
    rw [find_append, hq, Option.bind_some]
    cases z with
    | nil => exact absurd rfl hz
    | cons m z => exact hfind
  have hresolve := resolve_below hp (stat_dir_iff.mpr ⟨s, hbelow⟩)
  rw [openDir_of_open h, Entry.openDir, hresolve, Option.bind_some]
  exact dirAt_eq_some.mpr hbelow

/-- Where a path is found, it can be watched, if everything may be read. -/
theorem watchIno_of_open {d : Disk} (h : d.Open) {p q : Path} {ino : Ino}
    (hp : d.tree.resolve p = some q) (hq : d.tree.stat q = some (.dir ino)) :
    (d.watchIno p).isSome = true := by
  unfold Disk.watchIno
  rw [(sight_of_open h p q).mpr hp]
  dsimp only
  rw [hq]
  exact Option.isSome_of_eq_some (Option.filter_eq_some_iff.mpr ⟨rfl, h.readable ino⟩)

/-- A directory is listed as `find_files` lists it. -/
theorem listRun_of_open {d : Disk} (h : d.Open) (hwf : d.tree.WF) {p : Path} {ino : Ino} {sub : Dir}
    (hopen : d.tree.openDir p = some (ino, sub)) :
    d.ListRun ([p], [.directory p]) ([p] ++ listing Path.append true 2 p sub, []) := by
  obtain ⟨q, hresolve, hat⟩ := Option.bind_eq_some_iff.mp hopen
  have hfind := dirAt_eq_some.mp hat
  have hstep : d.listStep [p] (.directory p) [] = some ([p], [.entries p sub]) := by
    rw [Disk.listStep, openDir_of_open h, hopen]
    rfl
  exact .step hstep (listing_run (wf_find hwf hfind) (still_of_open h hresolve hfind) _ _)

/-- A directory is listed to the end, and everything listed can be watched. -/
theorem listed_of_open {d : Disk} (h : d.Open) (hwf : d.tree.WF) {p : Path}
    (hdir : d.isDirectory p = some true) :
    ∃ paths, d.ListRun ([p], [.directory p]) (paths, []) ∧
      ∀ q ∈ paths, (d.watchIno q).isSome = true := by
  obtain ⟨q, ino, sub, hsight, hat⟩ : ∃ q ino sub, d.sight p = .found q ∧
      d.tree.dirAt q = some (ino, sub) := by
    unfold Disk.isDirectory at hdir
    cases hs : d.sight p with
    | found q =>
      simp only [hs, Option.some.injEq] at hdir
      obtain ⟨⟨ino, sub⟩, hat⟩ := Option.isSome_iff_exists.mp hdir
      exact ⟨q, ino, sub, rfl, hat⟩
    | missing | refused =>
      simp only [hs] at hdir
      cases hdir
  have hresolve := (sight_of_open h p q).mp hsight
  have hfind := dirAt_eq_some.mp hat
  have hsub : sub.WF := wf_find hwf hfind
  have hopen : d.tree.openDir p = some (ino, sub) := by
    rw [Entry.openDir, hresolve, Option.bind_some, hat]
  refine ⟨[p] ++ listing Path.append true 2 p sub, listRun_of_open h hwf hopen, fun r hr => ?_⟩
  rcases List.mem_append.mp hr with hr | hr
  · rw [List.mem_singleton.mp hr]
    exact watchIno_of_open h hresolve (stat_dir_iff.mpr ⟨sub, hfind⟩)
  · obtain ⟨z, i, rfl, hz, hstat⟩ := (mem_listing_dirs hsub).mp hr
    have hbelow : d.tree.stat (q ++ z) = some (.dir i) := by
      rw [stat_append hfind]
      cases z with
      | nil => exact absurd rfl hz
      | cons n z => exact hstat
    exact watchIno_of_open h (resolve_below hresolve hbelow) hbelow

/-! ## Links to themselves -/

/-- A walk along directories gets to the last of them or is refused. -/
theorem walk_along (d : Disk) {ino : Ino} (z todo done : Path)
    (h : d.tree.stat (done ++ todo) = some (.dir ino)) :
    d.walk done (todo ++ z) = .refused ∨ d.walk done (todo ++ z) = d.walk (done ++ todo) z := by
  induction todo generalizing done with
  | nil => exact .inr (by rw [List.append_nil, List.nil_append])
  | cons n todo ih =>
    have hfind := find_ne_none_of_stat h
    have hdot := not_dot_ne (not_dot_of_find hfind n (by simp))
    have happ : done ++ n :: todo = (done ++ [n]) ++ todo := by simp
    obtain ⟨i, hi⟩ : ∃ i, d.tree.stat done = some (.dir i) := stat_dir_of_below hfind
    obtain ⟨sub, hsub⟩ := stat_dir_iff.mp hi
    have hnext : ∃ j, d.tree.stat (done ++ [n]) = some (.dir j) := by
      cases todo with
      | nil => exact ⟨ino, h⟩
      | cons m todo =>
        rw [happ] at hfind
        exact stat_dir_of_below hfind
    obtain ⟨j, hj⟩ := hnext
    rw [List.cons_append, Disk.walk, dirAt_eq_some.mpr hsub]
    dsimp only
    by_cases hsearch : d.searchable i = false
    · rw [if_pos hsearch]
      exact .inl rfl
    · rw [if_neg hsearch, if_neg hdot.1, if_neg hdot.2, hj, happ]
      rw [happ] at h
      exact ih _ h

/-- What is at a link that leads to itself the kernel never says. -/
theorem selfLink_refused (d : Disk) {q : Path} {n : Name} {s : Spelling} {ino : Ino}
    (hlink : d.tree.stat (q ++ [n]) = some (.leaf ino (some s))) (hself : s.under q = q ++ [n]) :
    d.sight (q ++ [n]) = .refused := by
  have hfind := find_ne_none_of_stat hlink
  have hdot := not_dot_ne (not_dot_of_find hfind n (by simp))
  obtain ⟨i, hi⟩ := stat_dir_of_below hfind
  obtain ⟨sub, hsub⟩ := stat_dir_iff.mp hi
  have hstep : d.walk [] (q ++ [n]) = .refused ∨ d.walk [] (q ++ [n]) = .link (q ++ [n]) := by
    rcases walk_along d [n] q [] hi with h | h
    · exact .inl h
    · rw [h, List.nil_append, Disk.walk, dirAt_eq_some.mpr hsub]
      dsimp only
      by_cases hsearch : d.searchable i = false
      · rw [if_pos hsearch]
        exact .inl rfl
      · rw [if_neg hsearch, if_neg hdot.1, if_neg hdot.2, hlink]
        dsimp only
        rw [hself, List.append_nil]
        exact .inr rfl
  have hin : ∀ k, d.sightIn k (q ++ [n]) = .refused := by
    intro k
    induction k with
    | zero => rfl
    | succ k ih =>
      rw [Disk.sightIn]
      rcases hstep with h | h
      · rw [h]
      · rw [h]
        exact ih
  unfold Disk.sight
  rw [hin]
  exact ite_self _

end CommonCpp.Fs
