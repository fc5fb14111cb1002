import CommonCpp.Fs.Resolve
import Mathlib.Data.List.Nodup

/-!
# `common::find_files`

The Linux overload: it opens `path`, reads the entries in `readdir` order,
pushes the wanted ones on the caller's vector and calls itself for every
sub-directory when `recursive` is set. `filter` is 1 for files only, 2 for
directories only, anything else for all. A directory that cannot be opened
ends the outermost call with an exception; what was pushed so far stays in the
vector, and the handles of the enclosing calls stay open (the throw passes
over their `closedir`).

The functions are parametric over how a path is extended by a name (`append`),
so the same text serves paths as strings and paths as lists of elements.

`findFiles_ok`: where every directory can be opened, the call appends exactly
`listing`, which is the descendants of the directory in pre-order, each once,
less what the flags leave out (`listing_eq`, `mem_descendants`, `nodup_elems`).
-/

namespace CommonCpp.Fs

open CommonCpp.Lib

/-- The directory-handle calls of `find_files`. -/
inductive DirCall (π : Type) where
  | opendir (path : π)
  | closedir (path : π)
deriving DecidableEq

/-- What a call has done so far: the caller's vector and the handle calls. -/
structure Scan (π : Type) where
  files : List π
  calls : List (DirCall π)
deriving DecidableEq

section

variable {π : Type}

def Scan.push (s : Scan π) (path : π) : Scan π := { s with files := s.files ++ [path] }

def Scan.call (s : Scan π) (c : DirCall π) : Scan π := { s with calls := s.calls ++ [c] }

variable (append : π → Name → π) (readable : π → Bool) (recursive : Bool) (filter : Int)

/-- The `while ((ent = readdir(dir)) != NULL)` loop of the call on `path`. An
error carries the path that could not be opened. -/
def readLoop (path : π) : Dir → Scan π → Except (π × Scan π) (Scan π)
  | .nil, s => .ok s
  | .leaf n _ _ rest, s =>
    if isDot n then readLoop path rest s
    else readLoop path rest (if filter ≠ 2 then s.push (append path n) else s)
  | .dir n _ sub rest, s =>
    if isDot n then readLoop path rest s
    else
      let fullPath := append path n
      let s := if filter ≠ 1 then s.push fullPath else s
      if recursive then
        -- find_files(full_path, files, recursive, filter)
        if readable fullPath then
          match readLoop fullPath sub (s.call (.opendir fullPath)) with
          | .ok s => readLoop path rest (s.call (.closedir fullPath))
          | .error e => .error e
        else .error (fullPath, s)
      else readLoop path rest s

/-- `find_files(path, files, recursive, filter)` on a directory with entries `d`. -/
def findFiles (path : π) (d : Dir) (s : Scan π) : Except (π × Scan π) (Scan π) :=
  if readable path then
    match readLoop append readable recursive filter path d (s.call (.opendir path)) with
    | .ok s => .ok (s.call (.closedir path))
    | .error e => .error e
  else .error (path, s)

/-- The pre-order of the tree below `path`, restricted by `filter`, and to
depth one when `recursive` is not set. -/
def listing (path : π) : Dir → List π
  | .nil => []
  | .leaf n _ _ rest =>
    (if isDot n = false ∧ filter ≠ 2 then [append path n] else []) ++ listing path rest
  | .dir n _ sub rest =>
    (if isDot n then [] else
      (if filter ≠ 1 then [append path n] else [])
        ++ if recursive then listing (append path n) sub else [])
      ++ listing path rest

end

/-! ## What is below a directory -/

/-- Something below a directory: the names that lead to it, and whether it is a
directory itself. -/
structure Descendant where
  elems : Path
  isDir : Bool
deriving DecidableEq

/-- The same, seen from the directory above. -/
def Descendant.under (n : Name) (x : Descendant) : Descendant := { x with elems := n :: x.elems }

/-- Everything below a directory but `.` and `..`, in `readdir` order, a
directory in front of what is below it. -/
def Dir.descendants : Dir → List Descendant
  | .nil => []
  | .leaf n _ _ rest => (if isDot n then [] else [⟨[n], false⟩]) ++ rest.descendants
  | .dir n _ sub rest =>
    (if isDot n then [] else ⟨[n], true⟩ :: sub.descendants.map (.under n)) ++ rest.descendants

/-- What the flags leave: depth one only unless `recursive`, no directories for
`filter` 1 and nothing else for 2. -/
def Descendant.wanted (recursive : Bool) (filter : Int) (x : Descendant) : Bool :=
  (recursive || x.elems.length == 1) && (if x.isDir then filter != 1 else filter != 2)

/-! ## Where every directory can be opened -/

section

variable {π : Type} (append : π → Name → π) (readable : π → Bool) (recursive : Bool) (filter : Int)

/-- Every directory below `path` can be opened, under the path it has there. -/
def Openable (path : π) (d : Dir) : Prop :=
  ∀ x ∈ d.descendants, x.isDir = true → readable (x.elems.foldl append path) = true

variable {append readable}

theorem Openable.rest {path : π} {n : Name} {ino : Ino} {sub rest : Dir}
    (h : Openable append readable path (.dir n ino sub rest)) :
    Openable append readable path rest :=
  fun x hx => h x (List.mem_append_right _ hx)

theorem Openable.inside {path : π} {n : Name} {ino : Ino} {sub rest : Dir}
    (h : Openable append readable path (.dir n ino sub rest)) (hdot : isDot n = false) :
    readable (append path n) = true ∧ Openable append readable (append path n) sub := by
  have hmem : ∀ x ∈ ⟨[n], true⟩ :: sub.descendants.map (Descendant.under n),
      x ∈ (Dir.dir n ino sub rest).descendants := by
    intro x hx
    rw [Dir.descendants, hdot]
    exact List.mem_append_left _ hx
  constructor
  · exact h _ (hmem _ (List.mem_cons_self ..)) rfl
  · intro x hx hdir
    exact h (x.under n) (hmem _ (List.mem_cons_of_mem _ (List.mem_map_of_mem hx))) hdir

theorem Openable.leaf {path : π} {n : Name} {ino : Ino} {link : Option Spelling} {rest : Dir}
    (h : Openable append readable path rest) :
    Openable append readable path (.leaf n ino link rest) := by
  intro x hx hdir
  rw [Dir.descendants, List.mem_append] at hx
  rcases hx with hx | hx
  · split at hx
    · cases hx
    · rw [List.mem_singleton.mp hx] at hdir
      cases hdir
  · exact h x hx hdir

theorem Openable.dir {path : π} {n : Name} {ino : Ino} {sub rest : Dir}
    (hsub : isDot n = false →
      readable (append path n) = true ∧ Openable append readable (append path n) sub)
    (h : Openable append readable path rest) :
    Openable append readable path (.dir n ino sub rest) := by
  intro x hx hdir
  rw [Dir.descendants, List.mem_append] at hx
  rcases hx with hx | hx
  · split at hx
    next => cases hx
    next hdot =>
      obtain ⟨hr, hbelow⟩ := hsub (by simpa using hdot)
      rcases List.mem_cons.mp hx with rfl | hx
      · exact hr
      · obtain ⟨y, hy, rfl⟩ := List.mem_map.mp hx
        exact hbelow y hy hdir
  · exact h x hx hdir

/-- The loop appends the listing when no `opendir` fails. -/
theorem readLoop_ok (d : Dir) :
    ∀ (path : π) (s : Scan π), Openable append readable path d → ∃ calls,
      readLoop append readable recursive filter path d s
        = .ok ⟨s.files ++ listing append recursive filter path d, calls⟩ := by
  induction d with
  | nil => intro path s _; exact ⟨s.calls, by simp [readLoop, listing]⟩
  | leaf n ino link rest ih =>
    intro path s ho
    have hrest : Openable append readable path rest := fun x hx => ho x (List.mem_append_right _ hx)
    cases hdot : isDot n with
    | true =>
      obtain ⟨calls, h⟩ := ih path s hrest
      exact ⟨calls, by simp [readLoop, listing, hdot, h]⟩
    | false =>
      obtain ⟨calls, h⟩ := ih path (if filter ≠ 2 then s.push (append path n) else s) hrest
      refine ⟨calls, ?_⟩
      rw [readLoop, if_neg (by simp [hdot]), h, listing]
      by_cases hf : filter = 2 <;> simp [hf, hdot, Scan.push]
  | dir n ino sub rest ihsub ih =>
    intro path s ho
    cases hdot : isDot n with
    | true =>
      obtain ⟨calls, h⟩ := ih path s ho.rest
      exact ⟨calls, by simp [readLoop, listing, hdot, h]⟩
    | false =>
      obtain ⟨hr, hsub⟩ := ho.inside hdot
      have hpush : (if filter ≠ 1 then s.push (append path n) else s).files
          = s.files ++ if filter ≠ 1 then [append path n] else [] := by
        by_cases hf : filter = 1 <;> simp [hf, Scan.push]
      cases recursive with
      | false =>
        obtain ⟨calls, h⟩ := ih path (if filter ≠ 1 then s.push (append path n) else s) ho.rest
        refine ⟨calls, ?_⟩
        rw [readLoop, if_neg (by simp [hdot])]
        simp only [Bool.false_eq_true, if_false, h, hpush, listing, hdot, List.append_nil,
          List.append_assoc]
      | true =>
        rw [readLoop, if_neg (by simp [hdot])]
        simp only [if_true, hr]
        -- `ihsub` is the recursive call, `ih` the rest of this directory
        generalize (if filter ≠ 1 then s.push (append path n) else s) = pushed at hpush ⊢
        obtain ⟨calls, h⟩ := ihsub (append path n) (pushed.call (.opendir (append path n))) hsub
        rw [h]
        obtain ⟨calls', h'⟩ := ih path
          (Scan.call ⟨(pushed.call (.opendir (append path n))).files
            ++ listing append true filter (append path n) sub, calls⟩ (.closedir (append path n)))
          ho.rest
        refine ⟨calls', h'.trans ?_⟩
        simp only [Scan.call, hpush, listing, hdot, Bool.false_eq_true, if_false, if_true,
          List.append_assoc]

/-- And a recursive one that returns has opened every directory. -/
theorem openable_of_readLoop (d : Dir) :
    ∀ (path : π) (s s' : Scan π), readLoop append readable true filter path d s = .ok s' →
      Openable append readable path d := by
  induction d with
  | nil =>
    intro path s s' _ x hx
    cases hx
  | leaf n ino link rest ih =>
    intro path s s' h
    rw [readLoop] at h
    split at h
    · exact (ih path s s' h).leaf
    · exact (ih path _ s' h).leaf
  | dir n ino sub rest ihsub ih =>
    intro path s s' h
    rw [readLoop] at h
    by_cases hdot : isDot n = true
    · rw [if_pos hdot] at h
      exact Openable.dir (fun hn => absurd hdot (by simp [hn])) (ih path s s' h)
    · rw [if_neg hdot] at h
      dsimp only at h
      rw [if_pos rfl] at h
      by_cases hr : readable (append path n) = true
      · rw [if_pos hr] at h
        split at h
        · next t ht =>
          exact Openable.dir (fun _ => ⟨hr, ihsub (append path n) _ t ht⟩) (ih path _ s' h)
        · cases h
      · rw [if_neg hr] at h
        cases h

/-- Where every directory can be opened, `find_files` appends the pre-order
listing of the tree to the caller's vector. -/
theorem findFiles_ok {path : π} {d : Dir} (hr : readable path = true)
    (ho : Openable append readable path d) (s : Scan π) :
    ∃ calls, findFiles append readable recursive filter path d s
      = .ok ⟨s.files ++ listing append recursive filter path d, calls⟩ := by
  obtain ⟨calls, h⟩ := readLoop_ok recursive filter d path (s.call (.opendir path)) ho
  refine ⟨calls ++ [.closedir path], ?_⟩
  rw [findFiles, if_pos hr, h]
  rfl

/-- No `opendir` fails at all. -/
theorem openable_true (path : π) (d : Dir) : Openable append (fun _ => true) path d :=
  fun _ _ _ => rfl

end

/-! ## The listing and the descendants -/

theorem elems_ne_nil {d : Dir} {x : Descendant} (h : x ∈ d.descendants) : x.elems ≠ [] := by
  induction d with
  | nil => cases h
  | leaf n ino link rest ih =>
    rw [Dir.descendants, List.mem_append] at h
    rcases h with h | h
    · split at h
      · cases h
      · rw [List.mem_singleton.mp h]
        exact List.cons_ne_nil _ _
    · exact ih h
  | dir n ino sub rest _ ih =>
    rw [Dir.descendants, List.mem_append] at h
    rcases h with h | h
    · split at h
      · cases h
      · rcases List.mem_cons.mp h with rfl | h
        · exact List.cons_ne_nil _ _
        · obtain ⟨y, -, rfl⟩ := List.mem_map.mp h
          exact List.cons_ne_nil _ _
    · exact ih h

theorem wanted_under (recursive : Bool) (filter : Int) (n : Name) {x : Descendant}
    (hx : x.elems ≠ []) :
    (x.under n).wanted recursive filter = (recursive && x.wanted recursive filter) := by
  cases recursive with
  | true => rfl
  | false =>
    -- deeper than one
    simp [Descendant.wanted, Descendant.under, hx]

/-- The listing in terms of the descendants: the wanted ones, in their order,
each under its path. -/
theorem listing_eq {π : Type} (append : π → Name → π) (recursive : Bool) (filter : Int) (d : Dir)
    (path : π) :
    listing append recursive filter path d
      = (d.descendants.filter (Descendant.wanted recursive filter)).map
          fun x => x.elems.foldl append path := by
  induction d generalizing path with
  | nil => rfl
  | leaf n ino link rest ih =>
    rw [listing, Dir.descendants, List.filter_append, List.map_append, ih]
    congr 1
    cases isDot n with
    | true => rfl
    | false =>
      by_cases hf : filter = 2
      · simp [hf, Descendant.wanted]
      · simp [hf, Descendant.wanted]
  | dir n ino sub rest ihsub ih =>
    rw [listing, Dir.descendants, List.filter_append, List.map_append, ih]
    congr 1
    cases isDot n with
    | true => rfl
    | false =>
      have hself : (⟨[n], true⟩ : Descendant).wanted recursive filter = (filter != 1) := by
        simp [Descendant.wanted]
      have hbelow : (sub.descendants.map (.under n)).filter (Descendant.wanted recursive filter)
          = if recursive then (sub.descendants.filter (Descendant.wanted recursive filter)).map
              (.under n) else [] := by
        rw [List.filter_map]
        have hcongr : sub.descendants.filter (Descendant.wanted recursive filter ∘ .under n)
            = sub.descendants.filter fun x => recursive && x.wanted recursive filter :=
          List.filter_congr fun x hx => wanted_under recursive filter n (elems_ne_nil hx)
        rw [hcongr]
        cases recursive <;> simp
      simp only [Bool.false_eq_true, if_false]
      rw [List.filter_cons, hself, hbelow, ihsub]
      cases recursive <;> by_cases hf : filter = 1 <;>
        simp [hf, List.map_map, Function.comp_def, Descendant.under]

/-! ## The descendants are what `stat` sees below the directory -/

def Node.isDir : Node → Bool
  | .leaf .. => false
  | .dir _ => true

/-- Under the first entry's name the path leads into that entry. -/
theorem stat_cons_self {i : Ino} {n : Name} {e : Entry} {rest : Dir} (z : Path)
    (hdot : isDot n = false) : (Entry.dir i (rest.cons n e)).stat (n :: z) = e.stat z := by
  rw [Entry.stat, find_dir_cons, hdot, get_cons, if_pos rfl]
  rfl

theorem stat_cons_rest {i : Ino} {n m : Name} {e : Entry} {rest : Dir} (z : Path) (hnm : n ≠ m) :
    (Entry.dir i (rest.cons n e)).stat (m :: z) = (Entry.dir i rest).stat (m :: z) := by
  rw [Entry.stat, Entry.stat, find_dir_cons, find_dir_cons, get_cons, if_neg hnm]

/-- The path leads to something of that kind below the directory. -/
def Dir.HasDescendant (d : Dir) (x : Descendant) : Prop :=
  x.elems ≠ [] ∧ ∃ node, (Entry.dir 0 d).stat x.elems = some node ∧ node.isDir = x.isDir

/-- What is below a directory with a first entry: the entry, what is below that,
or what is below the rest. -/
theorem hasDescendant_cons {n : Name} {e : Entry} {rest : Dir}
    (hn : isDot n = false → rest.get n = none) (x : Descendant) :
    (rest.cons n e).HasDescendant x ↔
      (isDot n = false ∧ ∃ z, x.elems = n :: z ∧ ∃ node, e.stat z = some node ∧ node.isDir = x.isDir)
        ∨ rest.HasDescendant x := by
  obtain ⟨elems, isDir⟩ := x
  unfold Dir.HasDescendant
  dsimp only
  constructor
  · intro ⟨hne, node, hstat, hdir⟩
    cases elems with
    | nil => exact absurd rfl hne
    | cons m z =>
      by_cases hnm : n = m
      · subst hnm
        have hdot : isDot n = false := (stat_cons_eq_some.mp hstat).1
        rw [stat_cons_self z hdot] at hstat
        exact Or.inl ⟨hdot, z, rfl, node, hstat, hdir⟩
      · rw [stat_cons_rest z hnm] at hstat
        exact Or.inr ⟨hne, node, hstat, hdir⟩
  · rintro (⟨hdot, z, rfl, node, hstat, hdir⟩ | ⟨hne, node, hstat, hdir⟩)
    · exact ⟨List.cons_ne_nil _ _, node, (stat_cons_self z hdot).trans hstat, hdir⟩
    · refine ⟨hne, node, ?_, hdir⟩
      cases elems with
      | nil => exact absurd rfl hne
      | cons m z =>
        -- the first entry's name does not come again
        have hnm : n ≠ m := by
          intro hnm
          subst hnm
          obtain ⟨hdot, x, hget, -⟩ := stat_cons_eq_some.mp hstat
          cases (hn hdot).symm.trans hget
        exact (stat_cons_rest z hnm).trans hstat

theorem mem_descendants {d : Dir} (hd : d.WF) (x : Descendant) :
    x ∈ d.descendants ↔ d.HasDescendant x := by
  induction d generalizing x with
  | nil =>
    constructor
    · intro h
      cases h
    · rintro ⟨hne, node, hstat, -⟩
      cases hx : x.elems with
      | nil => exact absurd hx hne
      | cons m z =>
        rw [hx] at hstat
        obtain ⟨-, e, hget, -⟩ := stat_cons_eq_some.mp hstat
        cases hget
  | leaf n ino link rest ih =>
    have hcons := hasDescendant_cons (e := .leaf ino link) hd.1 x
    refine Iff.trans ?_ hcons.symm
    rw [Dir.descendants, List.mem_append, ih hd.2]
    refine or_congr_left ?_
    cases isDot n with
    | true => simp
    | false =>
      -- nothing is below a leaf, so the entry itself
      simp only [Bool.false_eq_true, if_false, List.mem_singleton, true_and]
      constructor
      · rintro rfl
        exact ⟨[], rfl, _, rfl, rfl⟩
      · rintro ⟨z, hz, node, hstat, hdir⟩
        cases z with
        | nil =>
          cases hstat
          obtain ⟨elems, isDir⟩ := x
          cases hz
          cases hdir
          rfl
        | cons m z => cases hstat
  | dir n ino sub rest ihsub ih =>
    have hcons := hasDescendant_cons (e := .dir ino sub) hd.1 x
    refine Iff.trans ?_ hcons.symm
    rw [Dir.descendants, List.mem_append, ih hd.2.2]
    refine or_congr_left ?_
    cases isDot n with
    | true => simp
    | false =>
      -- the entry itself, or what is below it with its name in front
      simp only [Bool.false_eq_true, if_false, List.mem_cons, List.mem_map, true_and]
      constructor
      · rintro (rfl | ⟨y, hy, rfl⟩)
        · exact ⟨[], rfl, _, rfl, rfl⟩
        · obtain ⟨hne, node, hstat, hdir⟩ := (ihsub hd.2.1 y).mp hy
          refine ⟨y.elems, rfl, node, ?_, hdir⟩
          cases hy' : y.elems with
          | nil => exact absurd hy' hne
          | cons m z =>
            rw [hy'] at hstat
            exact hstat
      · rintro ⟨z, hz, node, hstat, hdir⟩
        obtain ⟨elems, isDir⟩ := x
        cases hz
        cases z with
        | nil =>
          cases hstat
          cases hdir
          exact Or.inl rfl
        | cons m z =>
          refine Or.inr ⟨⟨m :: z, isDir⟩, (ihsub hd.2.1 _).mpr ?_, rfl⟩
          exact ⟨List.cons_ne_nil _ _, node, hstat, hdir⟩

theorem elems_under (n : Name) (xs : List Descendant) :
    (xs.map (.under n)).map Descendant.elems = (xs.map Descendant.elems).map (n :: ·) := by
  rw [List.map_map, List.map_map]
  rfl

/-- Nothing is listed twice. -/
theorem nodup_elems {d : Dir} (hd : d.WF) : (d.descendants.map Descendant.elems).Nodup := by
  -- what stands behind an entry has another first name
  have hfresh : ∀ {n : Name} {rest : Dir}, rest.WF → (isDot n = false → rest.get n = none) →
      isDot n = false → ∀ z, n :: z ∉ rest.descendants.map Descendant.elems := by
    intro n rest hrest hn hdot z hmem
    obtain ⟨x, hx, hxz⟩ := List.mem_map.mp hmem
    obtain ⟨-, node, hstat, -⟩ := (mem_descendants hrest x).mp hx
    rw [hxz] at hstat
    obtain ⟨-, e, hget, -⟩ := stat_cons_eq_some.mp hstat
    cases (hn hdot).symm.trans hget
  induction d with
  | nil => exact List.nodup_nil
  | leaf n ino link rest ih =>
    rw [Dir.descendants, List.map_append, List.nodup_append]
    refine ⟨?_, ih hd.2, ?_⟩
    · cases isDot n <;> simp
    · intro z hz y hy heq
      have hmem := heq ▸ hy
      cases hdot : isDot n with
      | true => simp [hdot] at hz
      | false =>
        have hself : z = [n] := by simpa [hdot] using hz
        exact hfresh hd.2 hd.1 hdot [] (hself ▸ hmem)
  | dir n ino sub rest ihsub ih =>
    rw [Dir.descendants, List.map_append, List.nodup_append]
    refine ⟨?_, ih hd.2.2, ?_⟩
    · cases isDot n with
      | true => simp
      | false =>
        simp only [Bool.false_eq_true, if_false, List.map_cons, elems_under, List.nodup_cons]
        constructor
        · -- what is below the sub-directory has a longer path
          intro hmem
          obtain ⟨z, hz, hcons⟩ := List.mem_map.mp hmem
          obtain ⟨x, hx, rfl⟩ := List.mem_map.mp hz
          exact elems_ne_nil hx (List.cons.inj hcons).2
        · exact (ihsub hd.2.1).map (List.cons_injective)
    · intro z hz y hy heq
      have hmem := heq ▸ hy
      cases hdot : isDot n with
      | true => simp [hdot] at hz
      | false =>
        have hfirst : ∃ z', z = n :: z' := by
          simp only [hdot, Bool.false_eq_true, if_false, List.map_cons, elems_under,
            List.mem_cons, List.mem_map] at hz
          rcases hz with rfl | ⟨z', -, rfl⟩
          · exact ⟨[], rfl⟩
          · exact ⟨z', rfl⟩
        obtain ⟨z', rfl⟩ := hfirst
        exact hfresh hd.2.2 hd.1 hdot z' hmem

/-! ## The directories of a tree, as paths -/

/-- Extend a path by one element. -/
def Path.append (p : Path) (n : Name) : Path := p ++ [n]

theorem foldl_append (p z : Path) : z.foldl Path.append p = p ++ z := by
  induction z generalizing p with
  | nil => exact (List.append_nil _).symm
  | cons n z ih => rw [List.foldl_cons, ih, Path.append, List.append_assoc, List.singleton_append]

/-- What `find_files(p, paths, true, 2)` lists: the directories below `p`. -/
theorem mem_listing_dirs {d : Dir} (hd : d.WF) {p y : Path} :
    y ∈ listing Path.append true 2 p d ↔
      ∃ z i, y = p ++ z ∧ z ≠ [] ∧ (Entry.dir 0 d).stat z = some (.dir i) := by
  rw [listing_eq, List.mem_map]
  constructor
  · rintro ⟨x, hx, rfl⟩
    obtain ⟨hmem, hwant⟩ := List.mem_filter.mp hx
    obtain ⟨hne, node, hstat, hdir⟩ := (mem_descendants hd x).mp hmem
    have htrue : x.isDir = true := by
      cases hkind : x.isDir with
      | true => rfl
      | false => simp [Descendant.wanted, hkind] at hwant
    cases node with
    | leaf ino link =>
      rw [htrue] at hdir
      cases hdir
    | dir ino => exact ⟨x.elems, ino, foldl_append _ _, hne, hstat⟩
  · rintro ⟨z, i, rfl, hne, hstat⟩
    refine ⟨⟨z, true⟩, List.mem_filter.mpr ⟨?_, rfl⟩, foldl_append _ _⟩
    exact (mem_descendants hd _).mpr ⟨hne, _, hstat, rfl⟩

/-- What `find_files(p, paths, true, 0)` lists: everything below `p`. -/
theorem mem_listing_all {d : Dir} (hd : d.WF) {p y : Path} :
    y ∈ listing Path.append true 0 p d ↔
      ∃ z node, y = p ++ z ∧ z ≠ [] ∧ (Entry.dir 0 d).stat z = some node := by
  rw [listing_eq, List.mem_map]
  constructor
  · rintro ⟨x, hx, rfl⟩
    obtain ⟨hmem, -⟩ := List.mem_filter.mp hx
    obtain ⟨hne, node, hstat, -⟩ := (mem_descendants hd x).mp hmem
    exact ⟨x.elems, node, foldl_append _ _, hne, hstat⟩
  · rintro ⟨z, node, rfl, hne, hstat⟩
    refine ⟨⟨z, node.isDir⟩, List.mem_filter.mpr ⟨?_, ?_⟩, foldl_append _ _⟩
    · exact (mem_descendants hd _).mpr ⟨hne, node, hstat, rfl⟩
    · simp [Descendant.wanted]

end CommonCpp.Fs
