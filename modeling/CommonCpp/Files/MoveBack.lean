import CommonCpp.Files.DeleteFile
import CommonCpp.Files.MoveByCmd
import CommonCpp.Fs.Return

/-!
# `common::movebycmd` there and back

A caller who renames a file and later gives it its old name back calls `movebycmd`
twice, with the paths exchanged. If nothing was at the new path, the second call
undoes the first or changes nothing: there is no third way, whatever links and dots the
two paths have in them (`moved_back`).
-/

namespace CommonCpp.Files

open CommonCpp.Lib CommonCpp.Text CommonCpp.Fs

/-- How the second of two calls can end, the first of which has led from `d` to `there`: with
everything as it was in `d`, or with nothing changed. -/
def Undone (cwd : Path) (d there : Disk) : Exit Unit × Disk → Prop
  | (.returned _, back) =>
    (∀ q, back.tree.stat q = d.tree.stat q) ∧
      ∀ filename, fileExist cwd back filename = fileExist cwd d filename
  | (.exception _, back) => back = there
  | (.systemError, _) | (.undefined _, _) => False

section

variable {env : MvEnv} {popen : Popen Disk} {d : Disk} {source destination : Bytes}

/-- What a call that returned has moved. -/
theorem move_of_returned (hpopen : RunsMv popen env) (hs : Shell.quote ∉ source)
    (hd : Shell.quote ∉ destination) (hsd : source.head? ≠ some 0x2D)
    (hdd : destination.head? ≠ some 0x2D)
    (hret : (movebycmd popen source destination d).1 = .returned ()) :
    (operand source).length + (operand destination).length + 11 < INT_MAX ∧
      ∃ m, env.move d (operand source) (operand destination) = some m ∧
        (movebycmd popen source destination d).2
          = d.rename m (env.pos d (operand source) (operand destination)) := by
  have hfits : (operand source).length + (operand destination).length + 11 < INT_MAX := by
    by_contra hlong
    rw [movebycmd_of_long hlong] at hret
    dsimp only at hret
    split at hret <;> cases hret
  refine ⟨hfits, ?_⟩
  rw [movebycmd_of_mv hpopen hs hd hsd hdd hfits] at hret ⊢
  cases hmove : env.move d (operand source) (operand destination) with
  | some m => exact ⟨m, rfl, rfl⟩
  | none =>
    rw [hmove] at hret
    cases hret

theorem move_eq_some {m : Move} :
    env.move d source destination = some m ↔ env.refused d source destination = false ∧
      ∃ s t, namei env.cwd source = some s ∧ namei env.cwd destination = some t ∧
        d.mvMove s.path t.path = some m := by
  unfold MvEnv.move
  cases env.refused d source destination with
  | true => exact ⟨by rintro ⟨⟩, by rintro ⟨⟨⟩, -⟩⟩
  | false => simp [Option.bind_eq_some_iff]

/-- `file_exist` sees no difference where `stat` sees none. -/
theorem fileExist_congr {d' : Disk} (cwd : Path) (hsearchable : d'.searchable = d.searchable)
    (hlong : d'.tooLong = d.tooLong) (hstat : ∀ q, d'.tree.stat q = d.tree.stat q)
    (filename : CString) : fileExist cwd d' filename = fileExist cwd d filename := by
  have hsight := sight_congr hsearchable hlong hstat
  have hdir : ∀ q, (d'.tree.dirAt q).isSome = (d.tree.dirAt q).isSome := by
    intro q
    rw [Bool.eq_iff_iff, isSome_dirAt, isSome_dirAt, hstat]
  have hname : ∀ p : PathName, p.sight d' = p.sight d := by
    intro p
    unfold PathName.sight
    rw [hsight]
    simp only [hdir]
  unfold fileExist
  simp only [hname]

/-- **There and back.** For every tree, and all paths without quotes that do not start
with `-`: if nothing is at the place of the destination and `movebycmd` returns, the same
call with the paths exchanged either returns, and `stat` and `file_exist` find at every path
what they found before both calls, or throws and changes nothing. It returns exactly if `mv`
is not refused the move and both paths still name the places they named. -/
theorem moved_back {env' : MvEnv} {popen' : Popen Disk} (hpopen : RunsMv popen env)
    (hpopen' : RunsMv popen' env') (hcwd : env'.cwd = env.cwd) (hs : Shell.quote ∉ source)
    (hd : Shell.quote ∉ destination) (hsd : source.head? ≠ some 0x2D)
    (hdd : destination.head? ≠ some 0x2D) {t : PathName} {l : Place}
    (ht : namei env.cwd (operand destination) = some t) (hl : d.place t.path = some l)
    (hfree : d.tree.stat l.path = none)
    (hret : (movebycmd popen source destination d).1 = .returned ()) :
    Undone env.cwd d (movebycmd popen source destination d).2
        (movebycmd popen' destination source (movebycmd popen source destination d).2) ∧
      ((movebycmd popen' destination source (movebycmd popen source destination d).2).1
          = .returned () ↔
        env'.refused (movebycmd popen source destination d).2 (operand destination)
            (operand source) = false ∧
          ∃ s, namei env.cwd (operand source) = some s ∧
            (movebycmd popen source destination d).2.place t.path = d.place t.path ∧
            (movebycmd popen source destination d).2.place s.path = d.place s.path) := by
  obtain ⟨hfits, m, hmove, hthere⟩ := move_of_returned hpopen hs hd hsd hdd hret
  obtain ⟨-, s, t', hns, hnt, hmv⟩ := move_eq_some.mp hmove
  cases ht.symm.trans hnt
  have hdst := dst_of_free hmv hl hfree
  have hsrc := (mvMove_eq_some hmv).1
  rw [hthere, movebycmd_of_mv hpopen' hd hs hdd hsd (by omega)]
  generalize env.pos d (operand source) (operand destination) = pos
  -- the way back is open where both places are as before
  have hplaces : (∃ m', (d.rename m pos).mvMove t.path s.path = some m') ↔
      (d.rename m pos).place t.path = d.place t.path ∧
        (d.rename m pos).place s.path = d.place s.path := by
    rw [mvMove_back_iff hmv hl hfree, hl, hsrc, hdst]
  cases hback : env'.move (d.rename m pos) (operand destination) (operand source) with
  | some m' =>
    obtain ⟨hrefused, t', s', hnt', hns', hmv'⟩ := move_eq_some.mp hback
    rw [hcwd] at hnt' hns'
    cases hns.symm.trans hns'
    cases ht.symm.trans hnt'
    have hstat := stat_mvMove_back hmv hl hfree hmv'
      (env'.pos (d.rename m pos) (operand destination) (operand source))
    refine ⟨⟨hstat, fileExist_congr env.cwd rfl rfl hstat⟩, fun _ => ?_, fun _ => rfl⟩
    exact ⟨hrefused, s, hns, hplaces.mp ⟨m', hmv'⟩⟩
  | none =>
    refine ⟨rfl, nofun, ?_⟩
    rintro ⟨hrefused, s', hns', hsame⟩
    cases hns.symm.trans hns'
    obtain ⟨m', hmv'⟩ := hplaces.mpr hsame
    have hsome := move_eq_some.mpr ⟨hrefused, t, s, hcwd ▸ ht, hcwd ▸ hns, hmv'⟩
    cases hback.symm.trans hsome

end

/-- A file is moved from `a` to `b` and back. -/
theorem moved_back_file :
    Undone [] fileAndDirectory
        (movebycmd (mvShell atRoot) (ascii "a") (ascii "b") fileAndDirectory).2
        (movebycmd (mvShell atRoot) (ascii "b") (ascii "a")
          (movebycmd (mvShell atRoot) (ascii "a") (ascii "b") fileAndDirectory).2) ∧
      ((movebycmd (mvShell atRoot) (ascii "b") (ascii "a")
            (movebycmd (mvShell atRoot) (ascii "a") (ascii "b") fileAndDirectory).2).1
          = .returned () ↔
        atRoot.refused (movebycmd (mvShell atRoot) (ascii "a") (ascii "b") fileAndDirectory).2
            (operand (ascii "b")) (operand (ascii "a")) = false ∧
          ∃ s, namei [] (operand (ascii "a")) = some s ∧
            (movebycmd (mvShell atRoot) (ascii "a") (ascii "b") fileAndDirectory).2.place
                [ascii "b"]
              = fileAndDirectory.place [ascii "b"] ∧
            (movebycmd (mvShell atRoot) (ascii "a") (ascii "b") fileAndDirectory).2.place s.path
              = fileAndDirectory.place s.path) := by
  have hmoved : (movebycmd (mvShell atRoot) (ascii "a") (ascii "b") fileAndDirectory).1
      = .returned () := by
    rw [movebycmd_of_mv (runsMv_mvShell atRoot) (by decide) (by decide) (by decide) (by decide)
      (by decide)]
    decide +kernel
  exact @moved_back atRoot (mvShell atRoot) fileAndDirectory (ascii "a") (ascii "b") atRoot
    (mvShell atRoot) (runsMv_mvShell atRoot) (runsMv_mvShell atRoot) rfl (by decide) (by decide)
    (by decide) (by decide) ⟨[ascii "b"], false⟩ ⟨[], ascii "b"⟩ (by decide +kernel)
    (by decide +kernel) (by decide +kernel) hmoved

end CommonCpp.Files
