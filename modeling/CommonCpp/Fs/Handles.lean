import CommonCpp.Fs.FindFiles

/-!
# The directory handles of `common::find_files`

Every call of `find_files` closes the handle it opened behind its loop, and
nowhere else. So a call that ends in an exception leaves its own handle open and
those of the calls it is nested in (`Ends.threw`), and the exception comes up
exactly where a directory cannot be opened (`readLoop_ends`). `balanced_iff` puts
the two together.
-/

namespace CommonCpp.Fs

open CommonCpp.Lib

section

variable {π : Type}

theorem calls_push (filter n : Int) (s : Scan π) (p : π) :
    (if filter ≠ n then s.push p else s).calls = s.calls := by
  split <;> rfl

variable [DecidableEq π]

/-- The handles that are open behind some calls, starting from those open in front of them; none
if a handle is closed that is not open. -/
def handles : List (DirCall π) → List π → Option (List π)
  | [], opened => some opened
  | .opendir p :: calls, opened => handles calls (p :: opened)
  | .closedir p :: calls, opened => if p ∈ opened then handles calls (opened.erase p) else none

/-- The handle calls of a call of `find_files`, however it ends. -/
def callsOf : Except (π × Scan π) (Scan π) → List (DirCall π)
  | .ok s => s.calls
  | .error e => e.2.calls

/-- Every handle that was opened was closed, and no handle twice. -/
def Balanced (r : Except (π × Scan π) (Scan π)) : Prop := handles (callsOf r) [] = some []

theorem handles_append (calls calls' : List (DirCall π)) (opened : List π) :
    handles (calls ++ calls') opened = (handles calls opened).bind (handles calls') := by
  induction calls generalizing opened with
  | nil => rfl
  | cons c calls ih =>
    cases c with
    | opendir p => exact ih (p :: opened)
    | closedir p =>
      rw [List.cons_append, handles, handles]
      by_cases hp : p ∈ opened
      · rw [if_pos hp, if_pos hp]
        exact ih (opened.erase p)
      · rw [if_neg hp, if_neg hp]
        rfl

/-- A handle that is opened, left alone and closed again. -/
theorem handles_around {calls : List (DirCall π)} (h : ∀ opened, handles calls opened = some opened)
    (p : π) (opened : List π) :
    handles (.opendir p :: (calls ++ [.closedir p])) opened = some opened := by
  show handles (calls ++ [.closedir p]) (p :: opened) = some opened
  rw [handles_append, h, Option.bind_some, handles, if_pos (List.mem_cons_self ..),
    List.erase_cons_head]
  rfl

/-- How a loop or a call ends that starts with `s`: as many handles are open as before, or an
exception comes up with a path that could not be opened and more of them are. -/
inductive Ends (readable : π → Bool) (s : Scan π) : Except (π × Scan π) (Scan π) → Prop where
  | returned {s' : Scan π} {new : List (DirCall π)} (hcalls : s'.calls = s.calls ++ new)
      (hkept : ∀ opened, handles new opened = some opened) : Ends readable s (.ok s')
  | threw {p : π} {s' : Scan π} {new : List (DirCall π)} {more : List π}
      (hunreadable : readable p = false) (hcalls : s'.calls = s.calls ++ new)
      (hmore : ∀ opened, handles new opened = some (more ++ opened)) :
      Ends readable s (.error (p, s'))

variable {append : π → Name → π} {readable : π → Bool} {filter : Int}

/-- What was pushed in front of a loop makes no difference to the handles. -/
theorem Ends.of_calls {s t : Scan π} {r : Except (π × Scan π) (Scan π)} (h : Ends readable t r)
    (heq : t.calls = s.calls) : Ends readable s r := by
  cases h with
  | returned hcalls hkept => exact .returned (by rw [hcalls, heq]) hkept
  | threw hunreadable hcalls hmore => exact .threw hunreadable (by rw [hcalls, heq]) hmore

/-- Behind a part that has left the handles as they were. -/
theorem Ends.after {s t : Scan π} {r : Except (π × Scan π) (Scan π)} {new : List (DirCall π)}
    (h : Ends readable t r) (hcalls : t.calls = s.calls ++ new)
    (hkept : ∀ opened, handles new opened = some opened) : Ends readable s r := by
  cases h with
  | returned hcalls' hkept' =>
    refine .returned (by rw [hcalls', hcalls, List.append_assoc]) fun opened => ?_
    rw [handles_append, hkept, Option.bind_some, hkept']
  | threw hunreadable hcalls' hmore =>
    next p s' new' more =>
    have hall : ∀ opened, handles (new ++ new') opened = some (more ++ opened) := by
      intro opened
      rw [handles_append, hkept, Option.bind_some, hmore]
    exact .threw hunreadable (by rw [hcalls', hcalls, List.append_assoc]) hall

/-- The loop of a recursive call. -/
theorem readLoop_ends (d : Dir) :
    ∀ (path : π) (s : Scan π), Ends readable s (readLoop append readable true filter path d s) := by
  induction d with
  | nil =>
    intro path s
    exact .returned (List.append_nil _).symm fun _ => rfl
  | leaf n ino link rest ih =>
    intro path s
    rw [readLoop]
    split
    · exact ih path s
    · exact (ih path _).of_calls (calls_push filter 2 s _)
  | dir n ino sub rest ihsub ih =>
    intro path s
    rw [readLoop]
    split
    · exact ih path s
    · dsimp only
      rw [if_pos rfl]
      generalize hpushed : (if filter ≠ 1 then s.push (append path n) else s) = pushed
      have hcalls : pushed.calls = s.calls := by
        rw [← hpushed]
        exact calls_push filter 1 s _
      by_cases hr : readable (append path n) = true
      · rw [if_pos hr]
        -- the nested call, between its `opendir` and its `closedir`
        have hsub := ihsub (append path n) (pushed.call (.opendir (append path n)))
        generalize readLoop append readable true filter (append path n) sub
          (pushed.call (.opendir (append path n))) = inner at hsub
        cases hsub with
        | returned hinner hkept =>
          next s' new =>
          refine (ih path _).after ?_ (handles_around hkept (append path n))
          show s'.calls ++ [_] = _
          rw [hinner]
          show pushed.calls ++ [_] ++ new ++ [_] = _
          rw [hcalls]
          simp only [List.append_assoc, List.cons_append, List.nil_append]
        | threw hunreadable hinner hmore =>
          next p s' new more =>
          have hleft : ∀ opened, handles (.opendir (append path n) :: new) opened
              = some (more ++ [append path n] ++ opened) := by
            intro opened
            show handles new (append path n :: opened) = _
            rw [hmore, List.append_assoc, List.singleton_append]
          refine .threw hunreadable ?_ hleft
          rw [hinner]
          show pushed.calls ++ [_] ++ new = _
          rw [hcalls, List.append_assoc, List.singleton_append]
      · rw [if_neg hr]
        have hnone : ∀ opened : List π, handles [] opened = some ([] ++ opened) := fun _ => rfl
        exact .threw (by simpa using hr) (by rw [hcalls, List.append_nil]) hnone

/-! ## Which directories are in the way -/

/-- **When the handles are balanced.** For every directory tree and every set of
directories that cannot be opened: a recursive `find_files` closes every handle it opened exactly
once before it ends if and only if it cannot open the outermost directory, or can open all. -/
theorem balanced_iff (append : π → Name → π) (readable : π → Bool) (filter : Int) (path : π)
    (d : Dir) (files : List π) :
    Balanced (findFiles append readable true filter path d ⟨files, []⟩) ↔
      readable path = false ∨ Openable append readable path d := by
  by_cases hr : readable path = true
  · have hends := @readLoop_ends π _ append readable filter d path
      (Scan.call ⟨files, []⟩ (.opendir path))
    have hopenable := @openable_of_readLoop π append readable filter d path
      (Scan.call ⟨files, []⟩ (.opendir path))
    have hok := @readLoop_ok π append readable true filter d path
      (Scan.call ⟨files, []⟩ (.opendir path))
    unfold findFiles
    rw [if_pos hr]
    generalize readLoop append readable true filter path d
      (Scan.call ⟨files, []⟩ (.opendir path)) = result at hends hopenable hok
    cases hends with
    | returned hcalls hkept =>
      next s' new =>
      refine ⟨fun _ => .inr (hopenable s' rfl), fun _ => ?_⟩
      show handles (s'.calls ++ [.closedir path]) [] = some []
      rw [hcalls]
      exact handles_around hkept path []
    | threw hunreadable hcalls hmore =>
      next p s' new more =>
      constructor
      · -- the handle of the outermost call is open
        intro hbalanced
        have hopen : handles s'.calls [] = some (more ++ [path]) := by
          rw [hcalls]
          exact hmore [path]
        cases List.append_eq_nil_iff.mp (Option.some.inj (hopen.symm.trans hbalanced)) with
        | intro _ hpath => cases hpath
      · rintro (hunr | hall)
        · rw [hr] at hunr
          cases hunr
        · obtain ⟨calls, hreturned⟩ := hok hall
          cases hreturned
  · rw [findFiles, if_neg hr]
    exact ⟨fun _ => .inl (by simpa using hr), fun _ => rfl⟩

end

/-- A directory with a sub-directory that cannot be opened. -/
theorem handle_leaked :
    ¬ ∀ (readable : Path → Bool) (path : Path) (d : Dir),
      Balanced (findFiles Path.append readable true 0 path d ⟨[], []⟩) := by
  intro h
  have hbalanced := h (fun p => p == []) [] (.dir (ascii "d") 2 .nil .nil)
  revert hbalanced
  unfold Balanced
  decide

end CommonCpp.Fs
