import CommonCpp.Files.Commands
import CommonCpp.Files.Namei
import CommonCpp.Fs.Mv

/-!
# Where `common::movebycmd` moves to

`movebycmd` takes silence of `mv` for success. But `mv` is silent as well when
it has moved the source into a directory it found at the destination, which is
another path. `movesExactly_iff` says which calls do what the signature
promises: those where the move, if there is one, goes to the place of the
destination (`Disk.Lands`).
-/

namespace CommonCpp.Files

open CommonCpp.Lib CommonCpp.Text CommonCpp.Fs

/-- What `mv` prints when it fails. -/
structure Message where
  text : Bytes
  nulFree : NulFree text
  nonempty : text ≠ []
  unmoved : text ≠ movedText

/-- What `mv` depends on besides the tree and its operands. -/
structure MvEnv where
  cwd : Path
  /-- The position of the moved entry in its new directory. -/
  pos : Disk → Bytes → Bytes → Nat
  /-- A move the tree would allow may be refused all the same: for lack of permissions, on a
  busy or full file system, for a separator behind what is no directory. -/
  refused : Disk → Bytes → Bytes → Bool
  /-- It names the operands and the reason. -/
  message : Disk → Bytes → Bytes → Message

/-- The move `mv source destination -f` makes. -/
def MvEnv.move (env : MvEnv) (d : Disk) (source destination : Bytes) : Option Move :=
  if env.refused d source destination then none
  else
    (namei env.cwd source).bind fun s =>
      (namei env.cwd destination).bind fun t => d.mvMove s.path t.path

/-- What it leaves and prints: silence for success. -/
def MvEnv.mv (env : MvEnv) (d : Disk) (source destination : Bytes) : Disk × Bytes :=
  match env.move d source destination with
  | some m => (d.rename m (env.pos d source destination), [])
  | none => (d, (env.message d source destination).text)

/-- `popen` runs `mv`. An operand in front that starts with `-` would be an option. -/
def RunsMv (popen : Popen Disk) (env : MvEnv) : Prop :=
  ∀ d line s t, s.head? ≠ some 0x2D → t.head? ≠ some 0x2D →
    Shell.read line = some (moveCommand s t) →
    popen line d = ((env.mv d s t).1, some (env.mv d s t).2)

/-- A call that returns has moved what was at the one path to the other, with no other path
changed, and one that throws has changed nothing. -/
def MovesExactly (cwd : Path) (source destination : Bytes) (d d' : Disk) : Exit Unit → Prop
  | .returned _ => ∃ s t src dst, namei cwd source = some s ∧ namei cwd destination = some t ∧
      d.place s.path = some src ∧ d.place t.path = some dst ∧ d.MovedTo d' src dst
  | .exception _ | .systemError => d' = d
  | .undefined _ => False

/-! ## Operands -/

theorem operand_subset {path : Bytes} {c : UInt8} (h : c ∈ operand path) : c ∈ formalizePath path :=
  (List.takeWhile_prefix _).subset h

theorem nulFree_operand (path : Bytes) : NulFree (operand path) := nulFree_cStr _

theorem quote_notMem_operand {path : Bytes} (h : Shell.quote ∉ path) :
    Shell.quote ∉ operand path :=
  fun hm => h ((quote_mem_formalizePath path).mp (operand_subset hm))

theorem head_operand {path : Bytes} (h : path.head? ≠ some 0x2D) :
    (operand path).head? ≠ some 0x2D := by
  intro hhead
  obtain ⟨rest, hrest⟩ := List.head?_eq_some_iff.mp hhead
  have hprefix : operand path <+: formalizePath path := List.takeWhile_prefix _
  rw [hrest] at hprefix
  cases path with
  | nil => exact absurd (List.prefix_nil.mp hprefix) (List.cons_ne_nil _ _)
  | cons c path =>
    have hc : (if c = 0x5C then 0x2F else c) = (0x2D : UInt8) :=
      (List.cons_prefix_cons.mp hprefix).1.symm
    split at hc
    · cases hc
    · exact h (by rw [List.head?_cons, hc])

theorem nulFree_moveText {s t : Bytes} (hs : NulFree s) (ht : NulFree t) :
    NulFree (moveText s t) := by
  have hmv : NulFree (ascii "mv '") := by decide
  have hbetween : NulFree (ascii "' '") := by decide
  have hbehind : NulFree (ascii "' -f") := by decide
  exact nulFree_append.mpr ⟨hmv, nulFree_append.mpr ⟨hs, nulFree_append.mpr
    ⟨hbetween, nulFree_append.mpr ⟨ht, hbehind⟩⟩⟩⟩

/-! ## The call -/

section

variable {env : MvEnv} {popen : Popen Disk} {d : Disk} {source destination : Bytes}

theorem nulFree_mv (s t : Bytes) : NulFree (env.mv d s t).2 := by
  unfold MvEnv.mv
  split
  · exact List.forall_mem_nil _
  · exact (env.message d s t).nulFree

/-- The command runs, and all it prints is seen. -/
theorem prints_mv (hpopen : RunsMv popen env) (hs : Shell.quote ∉ source)
    (hd : Shell.quote ∉ destination) (hsd : source.head? ≠ some 0x2D)
    (hdd : destination.head? ≠ some 0x2D)
    (hfits : (operand source).length + (operand destination).length + 11 < INT_MAX) :
    Prints popen (movebycmdCommand source destination) d
      (env.mv d (operand source) (operand destination)).1
      (env.mv d (operand source) (operand destination)).2 := by
  have hcmd : movebycmdCommand source destination
      = some (moveText (operand source) (operand destination)) := by
    rw [movebycmdCommand_eq_if, if_pos hfits]
  have hnul := nulFree_moveText (nulFree_operand source) (nulFree_operand destination)
  have hread : Shell.read (execCmdLine (cStr (moveText (operand source) (operand destination))))
      = some (moveCommand (operand source) (operand destination)) := by
    rw [cStr_of_nulFree hnul, execCmdLine_moveText]
    exact read_moveLine (quote_notMem_operand hs) (quote_notMem_operand hd)
  refine ⟨_, _, hcmd, hpopen d _ _ _ (head_operand hsd) (head_operand hdd) hread, ?_⟩
  exact (text_of_nulFree (nulFree_mv _ _)).symm

/-- What `movebycmd` makes of what `mv` does. -/
theorem movebycmd_of_mv (hpopen : RunsMv popen env) (hs : Shell.quote ∉ source)
    (hd : Shell.quote ∉ destination) (hsd : source.head? ≠ some 0x2D)
    (hdd : destination.head? ≠ some 0x2D)
    (hfits : (operand source).length + (operand destination).length + 11 < INT_MAX) :
    movebycmd popen source destination d
      = match env.move d (operand source) (operand destination) with
        | some m => (.returned (), d.rename m (env.pos d (operand source) (operand destination)))
        | none => (.exception
            (ascii "ERROR:" ++ (env.message d (operand source) (operand destination)).text),
          d) := by
  rw [movebycmd_of_prints (prints_mv hpopen hs hd hsd hdd hfits)]
  unfold MvEnv.mv
  cases env.move d (operand source) (operand destination) with
  | some m => rfl
  | none =>
    dsimp only
    rw [if_pos ⟨(env.message _ _ _).unmoved.symm, (env.message _ _ _).nonempty.symm⟩]

/-- A text that cannot be built. -/
theorem movebycmd_of_long
    (hlong : ¬ (operand source).length + (operand destination).length + 11 < INT_MAX) :
    movebycmd popen source destination d
      = (if (operand source).length + (operand destination).length + 11 = INT_MAX
          then .undefined .overflow else .systemError, d) := by
  have hnone : movebycmdCommand source destination = none := by
    rw [movebycmdCommand_eq_if, if_neg hlong]
  rw [movebycmd_of_none hnone]
  unfold formatFailure
  rw [snprintf_move]
  dsimp only
  rw [← length_moveText]
  rfl

/-- A move that `mv` makes is the one that was meant if it goes to the place of the destination. -/
theorem movesExactly_of_move (hpopen : RunsMv popen env) (hs : Shell.quote ∉ source)
    (hd : Shell.quote ∉ destination) (hsd : source.head? ≠ some 0x2D)
    (hdd : destination.head? ≠ some 0x2D)
    (hfits : (operand source).length + (operand destination).length + 11 < INT_MAX) {m : Move}
    (hmove : env.move d (operand source) (operand destination) = some m) :
    MovesExactly env.cwd (operand source) (operand destination) d
        (movebycmd popen source destination d).2 (movebycmd popen source destination d).1 ↔
      ∃ t, namei env.cwd (operand destination) = some t ∧ d.Lands m t.path := by
  -- the paths the two strings lead along
  obtain ⟨s, t, hns, hnt, hmv⟩ : ∃ s t, namei env.cwd (operand source) = some s ∧
      namei env.cwd (operand destination) = some t ∧ d.mvMove s.path t.path = some m := by
    unfold MvEnv.move at hmove
    split at hmove
    · cases hmove
    · obtain ⟨s, hns, hmove⟩ := Option.bind_eq_some_iff.mp hmove
      obtain ⟨t, hnt, hmv⟩ := Option.bind_eq_some_iff.mp hmove
      exact ⟨s, t, hns, hnt, hmv⟩
  have hiff := movedTo_iff hmv (env.pos d (operand source) (operand destination))
  have hsrc := (mvMove_eq_some hmv).1
  rw [movebycmd_of_mv hpopen hs hd hsd hdd hfits, hmove]
  constructor
  · rintro ⟨s', t', src, dst, hns', hnt', hsrc', hdst', hmoved⟩
    cases hns.symm.trans hns'
    cases hnt.symm.trans hnt'
    cases hsrc.symm.trans hsrc'
    exact ⟨t, hnt, hiff.mp ⟨dst, hdst', hmoved⟩⟩
  · rintro ⟨t', hnt', hland⟩
    cases hnt.symm.trans hnt'
    obtain ⟨dst, hdst, hmoved⟩ := hiff.mpr hland
    exact ⟨s, t, m.src, dst, hns, hnt, hsrc, hdst, hmoved⟩

/-- **When a move is to the destination.** For every tree, every destination and
source without quotes that do not start with `-`: `movebycmd` returns with the object of the
source's path at the destination's path and nothing else changed, or throws with nothing
changed, if and only if the command does not overflow an `int` and the move `mv` makes, if it
makes one, goes to the place of the destination. -/
theorem movesExactly_iff (hpopen : RunsMv popen env) (hs : Shell.quote ∉ source)
    (hd : Shell.quote ∉ destination) (hsd : source.head? ≠ some 0x2D)
    (hdd : destination.head? ≠ some 0x2D) :
    MovesExactly env.cwd (operand source) (operand destination) d
        (movebycmd popen source destination d).2 (movebycmd popen source destination d).1 ↔
      (operand source).length + (operand destination).length + 11 ≠ INT_MAX ∧
        ((operand source).length + (operand destination).length + 11 < INT_MAX →
          ∀ m, env.move d (operand source) (operand destination) = some m →
            ∃ t, namei env.cwd (operand destination) = some t ∧ d.Lands m t.path) := by
  by_cases hfits : (operand source).length + (operand destination).length + 11 < INT_MAX
  · cases hmove : env.move d (operand source) (operand destination) with
    | none =>
      rw [movebycmd_of_mv hpopen hs hd hsd hdd hfits, hmove]
      exact ⟨fun _ => ⟨Nat.ne_of_lt hfits, fun _ => nofun⟩, fun _ => rfl⟩
    | some m =>
      rw [movesExactly_of_move hpopen hs hd hsd hdd hfits hmove]
      constructor
      · intro h
        refine ⟨Nat.ne_of_lt hfits, fun _ m' hm' => ?_⟩
        cases hm'
        exact h
      · intro h
        exact h.2 hfits m rfl
  · rw [movebycmd_of_long hfits]
    dsimp only
    by_cases hoverflow : (operand source).length + (operand destination).length + 11 = INT_MAX
    · rw [if_pos hoverflow]
      exact ⟨False.elim, fun h => absurd hoverflow h.1⟩
    · rw [if_neg hoverflow]
      exact ⟨fun _ => ⟨hoverflow, fun h => absurd h hfits⟩, fun _ => rfl⟩

end

/-! ## A directory at the destination -/

/-- A shell that knows `mv`. -/
def mvShell (env : MvEnv) : Popen Disk := fun line d =>
  match Shell.read line with
  | some ⟨[c, s, t, f], _⟩ =>
    if c = ascii "mv" ∧ f = ascii "-f" then ((env.mv d s t).1, some (env.mv d s t).2)
    else (d, none)
  | _ => (d, none)

theorem runsMv_mvShell (env : MvEnv) : RunsMv (mvShell env) env := by
  intro d line s t _ _ hread
  unfold mvShell
  rw [hread]
  exact if_pos ⟨rfl, rfl⟩

/-- What `mv` says when the source is not there. -/
def noSuchFile (source : Bytes) : Message where
  text := ascii "mv: cannot stat '" ++ cStr source ++ ascii "': No such file or directory\n"
  nulFree := nulFree_append.mpr
    ⟨nulFree_append.mpr ⟨by decide, nulFree_cStr source⟩, by decide⟩
  nonempty := List.append_ne_nil_of_right_ne_nil _ (by decide)
  unmoved h := by
    have hhead := congrArg List.head? h
    rw [List.append_assoc] at hhead
    have hm : (ascii "mv: cannot stat '"
        ++ (cStr source ++ ascii "': No such file or directory\n")).head? = some 0x6D := rfl
    exact absurd (hm.symm.trans hhead) (by decide)

/-- Started at the root, with nothing refused that the tree allows. -/
def atRoot : MvEnv := ⟨[], fun _ _ _ => 0, fun _ _ _ => false, fun _ source _ => noSuchFile source⟩

/-- A file `a` and an empty directory `d`. -/
def fileAndDirectory : Disk where
  tree := .dir 1 (.leaf (ascii "a") 2 none (.dir (ascii "d") 3 .nil .nil))
  readable := fun _ => true
  searchable := fun _ => true
  tooLong := fun _ => false

theorem movesExactly_missing :
    MovesExactly atRoot.cwd (operand (ascii "a")) (operand (ascii "b")) fileAndDirectory
        (movebycmd (mvShell atRoot) (ascii "a") (ascii "b") fileAndDirectory).2
        (movebycmd (mvShell atRoot) (ascii "a") (ascii "b") fileAndDirectory).1 ↔
      (operand (ascii "a")).length + (operand (ascii "b")).length + 11 ≠ INT_MAX ∧
        ((operand (ascii "a")).length + (operand (ascii "b")).length + 11 < INT_MAX →
          ∀ m, atRoot.move fileAndDirectory (operand (ascii "a")) (operand (ascii "b")) = some m →
            ∃ t, namei atRoot.cwd (operand (ascii "b")) = some t
              ∧ fileAndDirectory.Lands m t.path) :=
  @movesExactly_iff atRoot (mvShell atRoot) fileAndDirectory (ascii "a") (ascii "b")
    (runsMv_mvShell atRoot) (by decide) (by decide) (by decide) (by decide)

/-- `movebycmd("a", "d")` returns, and the file is at `d/a`. -/
theorem moved_into_directory :
    RunsMv (mvShell atRoot) atRoot ∧ Shell.quote ∉ ascii "a" ∧ Shell.quote ∉ ascii "d" ∧
      (ascii "a").head? ≠ some 0x2D ∧ (ascii "d").head? ≠ some 0x2D ∧
      ¬ MovesExactly atRoot.cwd (operand (ascii "a")) (operand (ascii "d")) fileAndDirectory
        (movebycmd (mvShell atRoot) (ascii "a") (ascii "d") fileAndDirectory).2
        (movebycmd (mvShell atRoot) (ascii "a") (ascii "d") fileAndDirectory).1 := by
  have hpopen := runsMv_mvShell atRoot
  have hquotes : Shell.quote ∉ ascii "a" ∧ Shell.quote ∉ ascii "d" := by decide
  have hdashes : (ascii "a").head? ≠ some 0x2D ∧ (ascii "d").head? ≠ some 0x2D := by decide
  refine ⟨hpopen, hquotes.1, hquotes.2, hdashes.1, hdashes.2, ?_⟩
  have hfits : (operand (ascii "a")).length + (operand (ascii "d")).length + 11 < INT_MAX := by
    decide
  have hmove : atRoot.move fileAndDirectory (operand (ascii "a")) (operand (ascii "d"))
      = some ⟨⟨[], ascii "a"⟩, ⟨[ascii "d"], ascii "a"⟩, .leaf 2 none⟩ := by decide +kernel
  rw [@movesExactly_of_move atRoot (mvShell atRoot) fileAndDirectory (ascii "a") (ascii "d") hpopen
    hquotes.1 hquotes.2 hdashes.1 hdashes.2 hfits _ hmove]
  rintro ⟨t, ht, l, hl, hland⟩
  have hnt : namei atRoot.cwd (operand (ascii "d")) = some ⟨[ascii "d"], false⟩ := by
    decide +kernel
  have hplace : fileAndDirectory.place [ascii "d"] = some ⟨[], ascii "d"⟩ := by decide +kernel
  cases hnt.symm.trans ht
  cases hplace.symm.trans hl
  rcases hland with heq | ⟨-, i, s, hlink, -⟩
  · exact absurd heq (by decide)
  · -- what was moved is no link
    have hfile : fileAndDirectory.tree.stat [ascii "a"] = some (.leaf 2 none) := by decide +kernel
    cases hfile.symm.trans hlink

end CommonCpp.Files
