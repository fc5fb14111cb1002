import CommonCpp.Fs.Tree

/-!
# Path resolution

`opendir`, `inotify_add_watch` and `std::filesystem::is_directory` all follow
symbolic links, also a link that is the last element of the path; `readdir`'s
`d_type` does not. That difference is where a link and the directory it points
to come apart, so the walk is modelled element by element: a link restarts it
at the link's target, at most 40 times (`ELOOP`).

A path made of real directories resolves to itself (`resolve_of_stat`), and a
missing last element is never found (`isDirectory_missing`).
-/

namespace CommonCpp.Fs

open CommonCpp.Lib

/-- How the walk along one path ends. -/
inductive Walk where
  | found (p : Path)
  /-- A symbolic link was met; the walk goes on from the root along this path. -/
  | link (p : Path)
  | fail

/-- Walk along `todo`, standing in the directory `done`. -/
def Entry.walk (e : Entry) : Path → Path → Walk
  | done, [] => .found done
  | done, n :: todo =>
    if n = ascii "." then e.walk done todo
    else if n = ascii ".." then e.walk done.dropLast todo
    else
      match e.stat (done ++ [n]) with
      | some (.dir _) => e.walk (done ++ [n]) todo
      | some (.leaf _ (some s)) => .link (s.under done ++ todo)
      | some (.leaf _ none) => if todo = [] then .found (done ++ [n]) else .fail
      | none => .fail

/-- Follow at most `k` restarts. -/
def Entry.resolveIn (e : Entry) : Nat → Path → Option Path
  | 0, _ => none
  | k + 1, p =>
    match e.walk [] p with
    | .found q => some q
    | .link q => e.resolveIn k q
    | .fail => none

/-- The path without links that a path stands for. -/
def Entry.resolve (e : Entry) (p : Path) : Option Path := e.resolveIn 41 p

/-- The directory a path leads to, following links. -/
def Entry.openDir (e : Entry) (p : Path) : Option (Ino × Dir) :=
  (e.resolve p).bind e.dirAt

/-- `std::filesystem::is_directory`. -/
def Entry.isDirectory (e : Entry) (p : Path) : Bool := (e.openDir p).isSome

theorem not_dot_ne {n : Name} (h : isDot n = false) : n ≠ ascii "." ∧ n ≠ ascii ".." := by
  simpa [isDot] using h

/-- One step of the walk over an element that is not `.` or `..`. -/
theorem walk_cons {e : Entry} {n : Name} (h : isDot n = false) (done todo : Path) :
    e.walk done (n :: todo) =
      match e.stat (done ++ [n]) with
      | some (.dir _) => e.walk (done ++ [n]) todo
      | some (.leaf _ (some s)) => .link (s.under done ++ todo)
      | some (.leaf _ none) => if todo = [] then .found (done ++ [n]) else .fail
      | none => .fail := by
  rw [Entry.walk, if_neg (not_dot_ne h).1, if_neg (not_dot_ne h).2]

theorem stat_eq_some {e : Entry} {p : Path} {node : Node} :
    e.stat p = some node ↔ ∃ e', e.find p = some e' ∧ e'.node = node := by
  simp [Entry.stat]

theorem find_ne_none_of_stat {e : Entry} {p : Path} {node : Node} (h : e.stat p = some node) :
    e.find p ≠ none := by
  obtain ⟨e', he', _⟩ := stat_eq_some.mp h
  rw [he']; simp

theorem dirAt_eq_some {e : Entry} {p : Path} {ino : Ino} {sub : Dir} :
    e.dirAt p = some (ino, sub) ↔ e.find p = some (.dir ino sub) := by
  unfold Entry.dirAt
  cases e.find p with
  | none => simp
  | some e' => cases e' <;> simp

theorem stat_dir_iff {e : Entry} {p : Path} {ino : Ino} :
    e.stat p = some (.dir ino) ↔ ∃ sub, e.find p = some (.dir ino sub) := by
  rw [stat_eq_some]
  constructor
  · rintro ⟨e', he', hn⟩
    cases e' with
    | leaf => cases hn
    | dir i sub => cases hn; exact ⟨sub, he'⟩
  · rintro ⟨sub, h⟩
    exact ⟨_, h, rfl⟩

theorem stat_none_iff {e : Entry} {p : Path} : e.stat p = none ↔ e.find p = none := by
  simp [Entry.stat]

/-- Every proper prefix of an existing path is a directory. -/
theorem stat_dir_of_below {e : Entry} {p : Path} {n : Name} {r : Path}
    (h : e.find (p ++ n :: r) ≠ none) : ∃ ino, e.stat p = some (.dir ino) := by
  have hp : e.find (p ++ [n]) ≠ none :=
    find_of_le ⟨r, by simp⟩ h
  obtain ⟨ino, sub, hd⟩ := find_parent_dir hp
  exact ⟨ino, stat_dir_iff.mpr ⟨sub, hd⟩⟩

/-- The walk along an existing path that does not end in a link arrives. -/
theorem walk_of_stat {e : Entry} {node : Node} (hnode : ∀ i s, node ≠ .leaf i (some s)) :
    ∀ (todo done : Path), e.stat (done ++ todo) = some node →
      e.walk done todo = .found (done ++ todo) := by
  intro todo
  induction todo with
  | nil => intro done _; simp [Entry.walk]
  | cons n todo ih =>
    intro done h
    have hfind := find_ne_none_of_stat h
    have hdot : isDot n = false := not_dot_of_find hfind n (by simp)
    have happ : done ++ n :: todo = (done ++ [n]) ++ todo := by simp
    rw [walk_cons hdot]
    cases todo with
    | nil =>
      -- the last element: here a link would restart the walk
      rw [h]
      cases node with
      | dir i => rw [Entry.walk]
      | leaf i link =>
        cases link with
        | none => simp
        | some s => exact absurd rfl (hnode i s)
    | cons m r =>
      rw [happ] at hfind h
      obtain ⟨i, hi⟩ := stat_dir_of_below hfind
      rw [hi, happ]
      exact ih (done ++ [n]) h

/-- A path of real directories, ending in a directory or a regular file,
resolves to itself. -/
theorem resolve_of_stat {e : Entry} {p : Path} {node : Node} (h : e.stat p = some node)
    (hnode : ∀ i s, node ≠ .leaf i (some s)) : e.resolve p = some p := by
  have hw : e.walk [] p = .found p := walk_of_stat hnode p [] h
  unfold Entry.resolve
  rw [Entry.resolveIn, hw]

theorem openDir_of_find {e : Entry} {p : Path} {ino : Ino} {sub : Dir}
    (h : e.find p = some (.dir ino sub)) : e.openDir p = some (ino, sub) := by
  have hr := resolve_of_stat (stat_dir_iff.mpr ⟨sub, h⟩) (by simp)
  rw [Entry.openDir, hr, Option.bind_some, dirAt_eq_some.mpr h]

theorem isDirectory_of_dir {e : Entry} {p : Path} {ino : Ino} (h : e.stat p = some (.dir ino)) :
    e.isDirectory p = true := by
  obtain ⟨sub, hs⟩ := stat_dir_iff.mp h
  rw [Entry.isDirectory, openDir_of_find hs]
  rfl

/-- A regular file is not a directory. -/
theorem isDirectory_of_file {e : Entry} {p : Path} {ino : Ino}
    (h : e.stat p = some (.leaf ino none)) : e.isDirectory p = false := by
  have hr := resolve_of_stat h (by simp)
  obtain ⟨e', he', hn⟩ := stat_eq_some.mp h
  rw [Entry.isDirectory, Entry.openDir, hr, Option.bind_some, Entry.dirAt, he']
  cases e' with
  | leaf => rfl
  | dir => cases hn

/-- The walk over a missing last element of an existing directory fails. -/
theorem walk_missing {e : Entry} {n : Name} (hdot : isDot n = false) :
    ∀ (todo done : Path) {ino : Ino}, e.stat (done ++ todo) = some (.dir ino) →
      e.stat (done ++ todo ++ [n]) = none → e.walk done (todo ++ [n]) = .fail := by
  intro todo
  induction todo with
  | nil =>
    intro done ino _ hn
    rw [List.append_nil] at hn
    rw [List.nil_append, walk_cons hdot, hn]
  | cons m todo ih =>
    intro done ino h hn
    have hfind := find_ne_none_of_stat h
    have hm : isDot m = false := not_dot_of_find hfind m (by simp)
    have happ : done ++ m :: todo = (done ++ [m]) ++ todo := by simp
    have hdm : ∃ i, e.stat (done ++ [m]) = some (.dir i) := by
      cases todo with
      | nil => exact ⟨ino, by simpa using h⟩
      | cons k r =>
        rw [happ] at hfind
        exact stat_dir_of_below hfind
    obtain ⟨i, hi⟩ := hdm
    rw [happ] at h hn
    rw [List.cons_append, walk_cons hm, hi]
    exact ih (done ++ [m]) h hn

/-- A name that is not in a real directory is not a directory. -/
theorem isDirectory_missing {e : Entry} {p : Path} {n : Name} {ino : Ino}
    (hp : e.stat p = some (.dir ino)) (hdot : isDot n = false)
    (hn : e.stat (p ++ [n]) = none) : e.isDirectory (p ++ [n]) = false := by
  have hw : e.walk [] (p ++ [n]) = .fail := walk_missing hdot p [] hp hn
  rw [Entry.isDirectory, Entry.openDir, Entry.resolve, Entry.resolveIn, hw]
  rfl

/-! ## Below a path that resolves -/

/-- The walk goes on from the directory its first part leads to, or from the link it
meets there. -/
theorem walk_append (e : Entry) (z todo done : Path) :
    (∀ q i, e.walk done todo = .found q → e.stat q = some (.dir i) →
        e.walk done (todo ++ z) = e.walk q z) ∧
      ∀ t, e.walk done todo = .link t → e.walk done (todo ++ z) = .link (t ++ z) := by
  induction todo generalizing done with
  | nil =>
    refine ⟨fun q i h _ => ?_, nofun⟩
    cases h
    rfl
  | cons n todo ih =>
    rw [List.cons_append, Entry.walk, Entry.walk]
    by_cases hdot : n = ascii "."
    · rw [if_pos hdot, if_pos hdot]
      exact ih done
    rw [if_neg hdot, if_neg hdot]
    by_cases hup : n = ascii ".."
    · rw [if_pos hup, if_pos hup]
      exact ih _
    rw [if_neg hup, if_neg hup]
    cases hstat : e.stat (done ++ [n]) with
    | none => exact ⟨nofun, nofun⟩
    | some node =>
      cases node with
      | dir i => exact ih _
      | leaf i link =>
        cases link with
        | some s =>
          refine ⟨nofun, fun t h => ?_⟩
          cases h
          dsimp only
          rw [List.append_assoc]
        | none =>
          dsimp only
          by_cases hlast : todo = []
          · -- a file has nothing below it
            rw [if_pos hlast]
            refine ⟨fun q j h hq => ?_, nofun⟩
            cases h
            rw [hstat] at hq
            cases hq
          · rw [if_neg hlast]
            exact ⟨nofun, nofun⟩

/-- What is below a directory is found under every path that leads there, through
links or not. -/
theorem resolve_below {e : Entry} {p q z : Path} {ino : Ino} (hp : e.resolve p = some q)
    (hz : e.stat (q ++ z) = some (.dir ino)) : e.resolve (p ++ z) = some (q ++ z) := by
  have hq : ∃ i, e.stat q = some (.dir i) := by
    cases z with
    | nil => exact ⟨ino, by rwa [List.append_nil] at hz⟩
    | cons n r => exact stat_dir_of_below (find_ne_none_of_stat hz)
  obtain ⟨i, hq⟩ := hq
  have hwalk : e.walk q z = .found (q ++ z) := walk_of_stat (fun _ _ => by nofun) z q hz
  unfold Entry.resolve at hp ⊢
  -- the same links are followed, with `z` behind them
  generalize 41 = k at hp ⊢
  induction k generalizing p with
  | zero => cases hp
  | succ k ih =>
    rw [Entry.resolveIn] at hp ⊢
    cases hw : e.walk [] p with
    | found r =>
      simp only [hw] at hp
      cases hp
      rw [(walk_append e z p []).1 _ i hw hq, hwalk]
    | link r =>
      simp only [hw] at hp
      rw [(walk_append e z p []).2 r hw]
      exact ih hp
    | fail =>
      simp only [hw] at hp
      cases hp

end CommonCpp.Fs
