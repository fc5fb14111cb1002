import CommonCpp.Fs.Access
import CommonCpp.Monitor.Refinement

/-!
# Path strings

A string is looked up from the root, or from the working directory. The empty
string is no path, not even a relative one. A separator at the end of a string
asks for a directory: behind `f/` there is nothing to see where `f` is a file.
-/

namespace CommonCpp.Files

open CommonCpp.Lib CommonCpp.Fs

/-- The path a string leads along, and whether it ends in a separator. -/
structure PathName where
  path : Path
  slash : Bool
deriving DecidableEq

/-- The string ends in a separator. -/
def endsInSlash (path : Bytes) : Bool := path.getLast? == some 0x2F

def namei (cwd : Path) (p : Bytes) : Option PathName :=
  if p = [] then none else some ⟨(Monitor.spelling p).under cwd, endsInSlash p⟩

/-- What `stat` sees. -/
def PathName.sight (p : PathName) (d : Disk) : Sight :=
  match d.sight p.path with
  | .found q => if p.slash = true ∧ (d.tree.dirAt q).isSome = false then .missing else .found q
  | .missing => .missing
  | .refused => .refused

/-- What is seen is at the path, and is a directory if one was asked for. -/
theorem PathName.sight_found {p : PathName} {d : Disk} {q : Path} :
    p.sight d = .found q ↔
      d.sight p.path = .found q ∧ (p.slash = true → (d.tree.dirAt q).isSome = true) := by
  unfold PathName.sight
  cases d.sight p.path with
  | missing => exact ⟨nofun, nofun⟩
  | refused => exact ⟨nofun, nofun⟩
  | found r =>
    dsimp only
    by_cases hfile : p.slash = true ∧ (d.tree.dirAt r).isSome = false
    · rw [if_pos hfile]
      refine ⟨nofun, ?_⟩
      rintro ⟨hr, hdir⟩
      cases hr
      cases hfile.2.symm.trans (hdir hfile.1)
    · rw [if_neg hfile]
      constructor
      · intro h
        cases h
        exact ⟨rfl, fun hslash => Bool.of_not_eq_false fun hnone => hfile ⟨hslash, hnone⟩⟩
      · rintro ⟨h, -⟩
        exact h

theorem PathName.sight_missing {p : PathName} {d : Disk} (h : d.sight p.path = .missing) :
    p.sight d = .missing := by
  unfold PathName.sight
  rw [h]

/-- Nothing is seen where there is nothing, or something else than a directory. -/
theorem PathName.not_directory_of_missing {p : PathName} {d : Disk} (h : p.sight d = .missing) :
    d.isDirectory p.path = some false := by
  unfold PathName.sight at h
  unfold Disk.isDirectory
  cases hsight : d.sight p.path with
  | missing => rfl
  | refused =>
    rw [hsight] at h
    cases h
  | found q =>
    rw [hsight] at h
    dsimp only at h ⊢
    split at h
    · next hfile => rw [hfile.2]
    · cases h

end CommonCpp.Files
