import CommonCpp.Files.Namei
import CommonCpp.Fs.Place
import CommonCpp.Lib.Exit

/-!
# `common::makedir`

Something at the path that is no directory is removed, and a directory is made
in its place: two operations, each of which can fail. `makedir` is all or
nothing (`AllOrNothing`) except where the first succeeds and the second does
not (`Lost`); that this is the only way is `allOrNothing_iff`.
-/

namespace CommonCpp.Files

open CommonCpp.Lib CommonCpp.Fs

/-- How far the kernel lets the operations go. -/
structure MakeEnv where
  cwd : Path
  /-- `remove_all` succeeds. -/
  removes : Bool
  /-- The calls of `mkdir` that succeed: the position and the inode of the new directories.
  The call behind them fails. -/
  made : List (Nat × Ino)
  /-- `ec.message()` -/
  message : Bytes

/-- `std::filesystem::exists`; `none` if it throws. -/
def pathExists (d : Disk) (p : PathName) : Option Bool :=
  match p.sight d with
  | .found _ => some true
  | .missing => some false
  | .refused => none

/-- `std::filesystem::remove_all(p, ec)` on something that is no directory, and whether it leaves
`ec` clear. -/
def removeAll (removes : Bool) (d : Disk) (p : Path) : Disk × Bool :=
  match removes, d.place p with
  | true, some x => (d.unlink x, true)
  | _, _ => (d, false)

/-- `mkdir` -/
def mkdir (d : Disk) (p : Path) (pos : Nat) (ino : Ino) : Option Disk :=
  (d.place p).bind fun x =>
    match d.tree.find x.path with
    | none => some { d with tree := d.tree.addAt x.dir pos x.name (.dir ino .nil) }
    | some _ => none

/-- `std::filesystem::create_directories(done ++ todo, ec)` where `done` is a directory, and
whether it leaves `ec` clear. -/
def createDirectories : List (Nat × Ino) → Disk → Path → Path → Disk × Bool
  | _, d, done, [] => (d, d.isDirectory done == some true)
  | made, d, done, n :: todo =>
    if d.isDirectory (done ++ [n]) = some true then createDirectories made d (done ++ [n]) todo
    else
      match made with
      | [] => (d, false)
      | (pos, ino) :: made =>
        match mkdir d (done ++ [n]) pos ino with
        | some d => createDirectories made d (done ++ [n]) todo
        | none => (d, false)

/-- `if (!std::filesystem::exists(path))`. A separator behind the path is stripped where the
directories are made. -/
def makeMissing (env : MakeEnv) (d : Disk) (p : PathName) : Exit Unit × Disk :=
  match pathExists d p with
  | none => (.systemError, d)
  | some true => (.returned (), d)
  | some false =>
    match createDirectories env.made d [] p.path with
    | (d, true) => (.returned (), d)
    | (d, false) => (.exception env.message, d)

/-- `makedir`, on a path -/
def makedirAt (env : MakeEnv) (d : Disk) (p : PathName) : Exit Unit × Disk :=
  match pathExists d p with
  | none => (.systemError, d)
  | some false => makeMissing env d p
  | some true =>
    match d.isDirectory p.path with
    | none => (.systemError, d)
    | some true => makeMissing env d p
    | some false =>
      match removeAll env.removes d p.path with
      | (d, false) => (.exception env.message, d)
      | (d, true) => makeMissing env d p

/-- `makedir`. The empty string is no path: it does not exist, and cannot be created. -/
def makedir (env : MakeEnv) (d : Disk) (path : Bytes) : Exit Unit × Disk :=
  match namei env.cwd (cStr path) with
  | none => (.exception env.message, d)
  | some p => makedirAt env d p

/-- `z` is at the path, or below what is at it. -/
def At (d : Disk) (p : PathName) (z : Path) : Prop :=
  (∃ x, d.place p.path = some x ∧ x.path <+: z) ∨ ∃ q, d.sight p.path = .found q ∧ q <+: z

/-- A call that returns leaves a directory at the path, and one that was there as it was. One that
throws leaves what was there. -/
def AllOrNothing (path : Option PathName) (d d' : Disk) : Exit Unit → Prop
  | .returned _ => ∃ p, path = some p ∧ d'.isDirectory p.path = some true ∧
      (d.isDirectory p.path = some true → d' = d)
  | .exception _ | .systemError => ∀ p, path = some p →
      ∀ z node, At d p z → d.tree.stat z = some node → d'.tree.stat z = some node
  | .undefined _ => False

/-- Something that is no directory is at the path, which does not ask for one, it can be removed,
and then no directory can be made. -/
def Lost (env : MakeEnv) (d : Disk) (p : PathName) : Prop :=
  pathExists d p = some true ∧ d.isDirectory p.path = some false ∧ env.removes = true ∧
    ∃ x, d.place p.path = some x ∧ (createDirectories env.made (d.unlink x) [] p.path).2 = false

/-! ## Making directories -/

theorem stat_mkdir {d d' : Disk} {p : Path} {pos : Nat} {ino : Ino}
    (h : mkdir d p pos ino = some d') :
    ∃ x, d.tree.stat x = none ∧
      ∀ z, d'.tree.stat z = if z = x then some (.dir ino) else d.tree.stat z := by
  obtain ⟨x, hx, h⟩ := Option.bind_eq_some_iff.mp h
  split at h
  · next hnone =>
    cases h
    obtain ⟨-, hdot, -, -, -, i, hi⟩ := place_eq_some.mp hx
    obtain ⟨sub, hsub⟩ := stat_dir_iff.mp hi
    have hempty : ∀ m r, (Entry.dir ino .nil).stat (m :: r) = none :=
      stat_of_removable (e := .dir ino .nil) rfl
    exact ⟨x.path, stat_none_iff.mpr hnone, stat_addAt_bare hempty hsub hdot hnone⟩
  · cases h

/-- What was there before stays, and what is new is a directory. -/
theorem createDirectories_keeps (todo done : Path) :
    ∀ (made : List (Nat × Ino)) (d : Disk),
      (∀ z node, d.tree.stat z = some node →
          (createDirectories made d done todo).1.tree.stat z = some node) ∧
        ∀ z i link, (createDirectories made d done todo).1.tree.stat z = some (.leaf i link) →
          d.tree.stat z = some (.leaf i link) := by
  induction todo generalizing done with
  | nil => exact fun _ _ => ⟨fun _ _ h => h, fun _ _ _ h => h⟩
  | cons n todo ih =>
    intro made d
    unfold createDirectories
    split
    · exact ih _ made d
    · cases made with
      | nil => exact ⟨fun _ _ h => h, fun _ _ _ h => h⟩
      | cons a made =>
        dsimp only
        cases hmk : mkdir d (done ++ [n]) a.1 a.2 with
        | none => exact ⟨fun _ _ h => h, fun _ _ _ h => h⟩
        | some d' =>
          dsimp only
          obtain ⟨hkeeps, hleaf⟩ := ih (done ++ [n]) made d'
          obtain ⟨x, hnone, hstat⟩ := stat_mkdir hmk
          refine ⟨fun z node hz => hkeeps z node ?_, fun z i link hz => ?_⟩
          · rw [hstat, if_neg, hz]
            intro heq
            rw [heq, hnone] at hz
            cases hz
          · have hz' := hleaf z i link hz
            rw [hstat] at hz'
            split at hz'
            · cases hz'
            · exact hz'

/-- Without an error there is a directory at the path. -/
theorem isDirectory_of_created (todo done : Path) :
    ∀ (made : List (Nat × Ino)) (d : Disk), (createDirectories made d done todo).2 = true →
      (createDirectories made d done todo).1.isDirectory (done ++ todo) = some true := by
  induction todo generalizing done with
  | nil =>
    intro made d h
    rw [List.append_nil]
    exact beq_iff_eq.mp h
  | cons n todo ih =>
    intro made d
    have happ : done ++ n :: todo = (done ++ [n]) ++ todo := by simp
    unfold createDirectories
    rw [happ]
    split
    · exact ih _ made d
    · cases made with
      | nil => exact nofun
      | cons a made =>
        dsimp only
        cases hmk : mkdir d (done ++ [n]) a.1 a.2 with
        | none => exact nofun
        | some d' => exact ih (done ++ [n]) made d'

/-! ## The call -/

section

variable {env : MakeEnv} {d : Disk} {p : PathName}

theorem pathExists_iff : pathExists d p = some true ↔ ∃ q, p.sight d = .found q := by
  unfold pathExists
  cases p.sight d with
  | found q => exact ⟨fun _ => ⟨q, rfl⟩, fun _ => rfl⟩
  | missing => exact ⟨nofun, nofun⟩
  | refused => exact ⟨nofun, nofun⟩

theorem isDirectory_of_pathExists_false (h : pathExists d p = some false) :
    d.isDirectory p.path = some false := by
  unfold pathExists at h
  cases hsight : p.sight d with
  | missing => exact p.not_directory_of_missing hsight
  | found q =>
    rw [hsight] at h
    cases h
  | refused =>
    rw [hsight] at h
    cases h

/-- What is at the place of a path that does not lead to a directory. -/
theorem leaf_of_not_directory {x : Place} (hx : d.place p.path = some x)
    (hexists : pathExists d p = some true) (hdir : d.isDirectory p.path = some false) :
    ∃ i link, d.tree.stat x.path = some (.leaf i link) := by
  obtain ⟨q, hseen⟩ := pathExists_iff.mp hexists
  have hq := (PathName.sight_found.mp hseen).1
  obtain ⟨node, hnode, hat⟩ := place_sight hx hq
  cases node with
  | leaf i link => exact ⟨i, link, hnode⟩
  | dir i =>
    rcases hat with rfl | ⟨j, s, hlink⟩
    · unfold Disk.isDirectory at hdir
      rw [hq] at hdir
      dsimp only at hdir
      rw [isSome_dirAt.mpr ⟨i, hnode⟩] at hdir
      cases hdir
    · cases hlink

/-- Where nothing is at the path, it is created or an error says it is not. -/
theorem makeMissing_of_missing (h : pathExists d p = some false) :
    makeMissing env d p
      = (if (createDirectories env.made d [] p.path).2 = true then .returned ()
          else .exception env.message, (createDirectories env.made d [] p.path).1) := by
  unfold makeMissing
  rw [h]
  dsimp only
  cases hcreate : createDirectories env.made d [] p.path with
  | mk d' ok => cases ok <;> rfl

/-- Taking something away that is no directory, and creating a directory. -/
theorem makedirAt_of_removed {x : Place} (hx : d.place p.path = some x)
    (hexists : pathExists d p = some true) (hdir : d.isDirectory p.path = some false)
    (hremoves : env.removes = true) :
    makedirAt env d p
      = (if (createDirectories env.made (d.unlink x) [] p.path).2 = true then .returned ()
          else .exception env.message,
        (createDirectories env.made (d.unlink x) [] p.path).1) := by
  obtain ⟨q, hseen⟩ := pathExists_iff.mp hexists
  have hq := (PathName.sight_found.mp hseen).1
  obtain ⟨i, link, hleaf⟩ := leaf_of_not_directory hx hexists hdir
  have hgone : pathExists (d.unlink x) p = some false := by
    unfold pathExists
    rw [p.sight_missing (sight_unlink hx hq hleaf)]
  rw [← makeMissing_of_missing hgone]
  unfold makedirAt removeAll
  rw [hexists, hdir, hremoves, hx]

theorem makedirAt_of_kept (hexists : pathExists d p = some true)
    (hdir : d.isDirectory p.path = some false)
    (hkept : env.removes = false ∨ d.place p.path = none) :
    makedirAt env d p = (.exception env.message, d) := by
  unfold makedirAt removeAll
  rw [hexists, hdir]
  dsimp only
  rcases hkept with hremoves | hplace
  · rw [hremoves]
  · rw [hplace]
    cases env.removes <;> rfl

/-- Nothing is lost where nothing is removed. -/
theorem allOrNothing_of_missing (h : pathExists d p = some false) :
    AllOrNothing (some p) d (makeMissing env d p).2 (makeMissing env d p).1 := by
  rw [makeMissing_of_missing h]
  dsimp only
  split
  · next hok =>
    refine ⟨p, rfl, isDirectory_of_created p.path [] env.made d hok, fun hdir => ?_⟩
    cases (isDirectory_of_pathExists_false h).symm.trans hdir
  · intro p' _ z node _ hz
    exact (createDirectories_keeps p.path [] env.made d).1 z node hz

/-- A removed entry does not come back. -/
theorem not_allOrNothing_of_lost (h : Lost env d p) :
    ¬ AllOrNothing (some p) d (makedirAt env d p).2 (makedirAt env d p).1 := by
  obtain ⟨hexists, hdir, hremoves, x, hx, hcreate⟩ := h
  obtain ⟨i, link, hleaf⟩ := leaf_of_not_directory hx hexists hdir
  rw [makedirAt_of_removed hx hexists hdir hremoves, hcreate]
  intro hall
  have hstill := hall p rfl x.path _ (.inl ⟨x, hx, List.prefix_refl _⟩) hleaf
  have hbefore := (createDirectories_keeps p.path [] env.made (d.unlink x)).2 x.path i link hstill
  obtain ⟨-, -, -, -, -, j, hj⟩ := place_eq_some.mp hx
  rw [stat_unlink hj, if_pos (List.prefix_refl _)] at hbefore
  cases hbefore

/-- Something that is no directory, and is not lost: it stays, or there is a directory
instead. -/
theorem allOrNothing_of_replaced (hexists : pathExists d p = some true)
    (hdir : d.isDirectory p.path = some false) (hlost : ¬ Lost env d p) :
    AllOrNothing (some p) d (makedirAt env d p).2 (makedirAt env d p).1 := by
  cases hremoves : env.removes with
  | false =>
    rw [makedirAt_of_kept hexists hdir (.inl hremoves)]
    exact fun _ _ _ _ _ hz => hz
  | true =>
    cases hx : d.place p.path with
    | none =>
      rw [makedirAt_of_kept hexists hdir (.inr hx)]
      exact fun _ _ _ _ _ hz => hz
    | some x =>
      have hok : (createDirectories env.made (d.unlink x) [] p.path).2 = true := by
        cases hcreate : (createDirectories env.made (d.unlink x) [] p.path).2 with
        | true => rfl
        | false => exact absurd ⟨hexists, hdir, hremoves, x, hx, hcreate⟩ hlost
      rw [makedirAt_of_removed hx hexists hdir hremoves, if_pos hok]
      refine ⟨p, rfl, isDirectory_of_created p.path [] env.made (d.unlink x) hok, fun h => ?_⟩
      cases hdir.symm.trans h

theorem allOrNothing_at (env : MakeEnv) (d : Disk) (p : PathName) :
    AllOrNothing (some p) d (makedirAt env d p).2 (makedirAt env d p).1 ↔ ¬ Lost env d p := by
  refine ⟨fun h hlost => not_allOrNothing_of_lost hlost h, fun hlost => ?_⟩
  cases hexists : pathExists d p with
  | none =>
    unfold makedirAt
    rw [hexists]
    exact fun _ _ _ _ _ hz => hz
  | some there =>
    cases there with
    | false =>
      unfold makedirAt
      rw [hexists]
      exact allOrNothing_of_missing hexists
    | true =>
      cases hdir : d.isDirectory p.path with
      | none =>
        unfold makedirAt
        rw [hexists, hdir]
        exact fun _ _ _ _ _ hz => hz
      | some isDir =>
        cases isDir with
        | true =>
          unfold makedirAt makeMissing
          rw [hexists, hdir]
          exact ⟨p, rfl, hdir, fun _ => rfl⟩
        | false => exact allOrNothing_of_replaced hexists hdir hlost

/-- **When `makedir` is all or nothing.** For every tree, every path and however far
the kernel lets the operations go: the call returns with a directory at the path, one that was
there being left alone, or throws with what was at the path still there, if and only if it is
not the case that something other than a directory was at the path, named without a separator
behind it, could be removed, and no directory could be made. -/
theorem allOrNothing_iff (env : MakeEnv) (d : Disk) (path : Bytes) :
    AllOrNothing (namei env.cwd (cStr path)) d (makedir env d path).2 (makedir env d path).1 ↔
      ∀ p, namei env.cwd (cStr path) = some p → ¬ Lost env d p := by
  unfold makedir
  cases namei env.cwd (cStr path) with
  | none => exact ⟨fun _ => nofun, fun _ => nofun⟩
  | some p =>
    refine (allOrNothing_at env d p).trans ⟨fun h p' hp' => ?_, fun h => h p rfl⟩
    cases hp'
    exact h

end

/-- A file `f`. -/
def oneFile : Disk where
  tree := .dir 1 (.leaf (ascii "f") 2 none .nil)
  readable := fun _ => true
  searchable := fun _ => true
  tooLong := fun _ => false

/-- No directory can be made. -/
def diskFull : MakeEnv := ⟨[], true, [], ascii "No space left on device"⟩

/-- `makedir("f/")` removes nothing, even where a directory could be made. -/
example : (makedir ⟨[], true, [(0, 3)], []⟩ oneFile (ascii "f/")).2.tree.stat [ascii "f"]
    = some (.leaf 2 none) := by decide +kernel

/-- `makedir("f")` throws, and the file is gone. -/
theorem file_lost :
    ¬ AllOrNothing (namei diskFull.cwd (cStr (ascii "f"))) oneFile
      (makedir diskFull oneFile (ascii "f")).2 (makedir diskFull oneFile (ascii "f")).1 := by
  have hpath : namei diskFull.cwd (cStr (ascii "f")) = some ⟨[ascii "f"], false⟩ := by
    decide +kernel
  have hplace : oneFile.place [ascii "f"] = some ⟨[], ascii "f"⟩ := by decide +kernel
  unfold makedir
  rw [hpath]
  refine not_allOrNothing_of_lost ⟨?_, ?_, rfl, ⟨[], ascii "f"⟩, hplace, ?_⟩
  · decide +kernel
  · decide +kernel
  · decide +kernel

end CommonCpp.Files
