import CommonCpp.Lib.Bytes

/-!
# Directory trees

The part of a POSIX file system the library looks at: a directory is the list
of its entries in `readdir` order, an entry is a sub-directory or a leaf (a
regular file or a symbolic link), and every entry has an inode number. `Dir`
is the first-child/next-sibling form of that tree, so a walk over a directory
and the descent into its sub-directories are one structural recursion.

`stat` reads the tree at a path without following links. The changes
(`addAt`, `eraseAt`) are described by what they do to `stat` and to nothing
else: `stat_addAt` and `stat_eraseAt` are all that the monitor's proofs know
about them.
-/

namespace CommonCpp.Fs

open CommonCpp.Lib

/-- The name of a directory entry. -/
abbrev Name := Bytes

/-- A path as the list of its elements. -/
abbrev Path := List Name

/-- An inode number. -/
abbrev Ino := Nat

/-- `"."` and `".."`, which `readdir` lists among the entries. -/
def isDot (n : Name) : Bool := n == ascii "." || n == ascii ".."

/-- A spelled path that is resolved relative to some directory: what a
symbolic link contains. -/
structure Spelling where
  absolute : Bool
  elems : Path
deriving DecidableEq

/-- The path a spelling denotes when it is found in directory `dir`. -/
def Spelling.under (s : Spelling) (dir : Path) : Path :=
  if s.absolute then s.elems else dir ++ s.elems

/-- A directory's entries in `readdir` order. -/
inductive Dir where
  | nil
  | leaf (name : Name) (ino : Ino) (link : Option Spelling) (rest : Dir)
  | dir (name : Name) (ino : Ino) (sub rest : Dir)
deriving DecidableEq

/-- One entry: a regular file (`link = none`), a symbolic link, or a directory. -/
inductive Entry where
  | leaf (ino : Ino) (link : Option Spelling)
  | dir (ino : Ino) (sub : Dir)
deriving DecidableEq

/-- What `lstat` tells about an entry. -/
inductive Node where
  | leaf (ino : Ino) (link : Option Spelling)
  | dir (ino : Ino)
deriving DecidableEq

def Entry.node : Entry → Node
  | .leaf ino link => .leaf ino link
  | .dir ino _ => .dir ino

def Node.ino : Node → Ino
  | .leaf ino _ => ino
  | .dir ino => ino

/-! ## Reading one directory -/

/-- The entry called `n`. -/
def Dir.get (n : Name) : Dir → Option Entry
  | .nil => none
  | .leaf m ino link rest => if m = n then some (.leaf ino link) else rest.get n
  | .dir m ino sub rest => if m = n then some (.dir ino sub) else rest.get n

/-- Put an entry in front of the others. -/
def Dir.cons (n : Name) : Entry → Dir → Dir
  | .leaf ino link, rest => .leaf n ino link rest
  | .dir ino sub, rest => .dir n ino sub rest

/-- Add an entry as the `pos`-th of the directory (at its end when there are
fewer): the place `readdir` will list it at is the file system's choice. -/
def Dir.add (n : Name) (e : Entry) : Nat → Dir → Dir
  | 0, d => d.cons n e
  | _ + 1, .nil => Dir.nil.cons n e
  | pos + 1, .leaf m ino link rest => .leaf m ino link (rest.add n e pos)
  | pos + 1, .dir m ino sub rest => .dir m ino sub (rest.add n e pos)

/-- Take the entry called `n` out. -/
def Dir.remove (n : Name) : Dir → Dir
  | .nil => .nil
  | .leaf m ino link rest => if m = n then rest.remove n else .leaf m ino link (rest.remove n)
  | .dir m ino sub rest => if m = n then rest.remove n else .dir m ino sub (rest.remove n)

/-- Change what is inside the sub-directory called `n`. -/
def Dir.modify (n : Name) (f : Dir → Dir) : Dir → Dir
  | .nil => .nil
  | .leaf m ino link rest => .leaf m ino link (rest.modify n f)
  | .dir m ino sub rest => .dir m ino (if m = n then f sub else sub) (rest.modify n f)

/-- Change what is inside an entry, if it is a directory. -/
def Entry.inside (f : Dir → Dir) : Entry → Entry
  | .leaf ino link => .leaf ino link
  | .dir ino sub => .dir ino (f sub)

/-- A directory is empty or has a first entry. -/
@[elab_as_elim]
theorem Dir.cons_induction {motive : Dir → Prop} (nil : motive .nil)
    (cons : ∀ n e rest, motive rest → motive (rest.cons n e)) (d : Dir) : motive d := by
  induction d with
  | nil => exact nil
  | leaf n ino link rest ih => exact cons n (.leaf ino link) rest ih
  | dir n ino sub rest _ ih => exact cons n (.dir ino sub) rest ih

@[simp] theorem get_cons (n m : Name) (e : Entry) (d : Dir) :
    (d.cons n e).get m = if n = m then some e else d.get m := by
  cases e <;> rfl

theorem get_cons_eq_none {n m : Name} {e : Entry} {d : Dir} :
    (d.cons n e).get m = none ↔ n ≠ m ∧ d.get m = none := by
  rw [get_cons]
  by_cases h : n = m
  · rw [if_pos h]
    exact ⟨nofun, fun hm => absurd h hm.1⟩
  · rw [if_neg h]
    exact (and_iff_right h).symm

theorem add_cons (n m : Name) (e x : Entry) (pos : Nat) (rest : Dir) :
    (rest.cons m x).add n e (pos + 1) = (rest.add n e pos).cons m x := by
  cases x <;> rfl

theorem remove_cons (n m : Name) (x : Entry) (rest : Dir) :
    (rest.cons m x).remove n = if m = n then rest.remove n else (rest.remove n).cons m x := by
  cases x <;> rfl

theorem modify_cons (n m : Name) (f : Dir → Dir) (x : Entry) (rest : Dir) :
    (rest.cons m x).modify n f
      = (rest.modify n f).cons m (if m = n then x.inside f else x) := by
  cases x with
  | leaf ino link => rw [show (Entry.leaf ino link).inside f = .leaf ino link from rfl, ite_self]; rfl
  | dir ino sub =>
    rw [Dir.cons, Dir.modify]
    split <;> rfl

theorem get_add {n : Name} {e : Entry} {d : Dir} (hn : d.get n = none) (m : Name) (pos : Nat) :
    (d.add n e pos).get m = if n = m then some e else d.get m := by
  induction pos generalizing d with
  | zero => exact get_cons n m e d
  | succ pos ih =>
    induction d using Dir.cons_induction with
    | nil => exact get_cons n m e .nil
    | cons k x rest _ =>
      obtain ⟨hk, hrest⟩ := get_cons_eq_none.mp hn
      rw [add_cons, get_cons, get_cons, ih hrest]
      by_cases hkm : k = m
      · rw [if_pos hkm, if_pos hkm, if_neg fun h => hk (hkm.trans h.symm)]
      · rw [if_neg hkm, if_neg hkm]

theorem get_remove (n m : Name) (d : Dir) :
    (d.remove n).get m = if n = m then none else d.get m := by
  induction d using Dir.cons_induction with
  | nil => exact (ite_self none).symm
  | cons k x rest ih =>
    rw [remove_cons, get_cons]
    by_cases hkn : k = n
    · rw [if_pos hkn, ih, hkn]
      split <;> rfl
    · rw [if_neg hkn, get_cons, ih]
      by_cases hkm : k = m
      · rw [if_pos hkm, if_pos hkm, if_neg fun h => hkn (hkm.trans h.symm)]
      · rw [if_neg hkm, if_neg hkm]

theorem get_modify (n m : Name) (f : Dir → Dir) (d : Dir) :
    (d.modify n f).get m = if n = m then (d.get m).map (Entry.inside f) else d.get m := by
  induction d using Dir.cons_induction with
  | nil => exact (ite_self none).symm
  | cons k x rest ih =>
    rw [modify_cons, get_cons, get_cons, ih]
    by_cases hkm : k = m
    · subst hkm
      rw [if_pos rfl, if_pos rfl]
      by_cases hkn : k = n
      · rw [if_pos hkn, if_pos hkn.symm]
        rfl
      · rw [if_neg hkn, if_neg (Ne.symm hkn)]
    · rw [if_neg hkm, if_neg hkm]

/-! ## Reading the tree -/

/-- The entry at a path, without following links and without `.` and `..`. -/
def Entry.find : Entry → Path → Option Entry
  | e, [] => some e
  | .leaf .., _ :: _ => none
  | .dir _ sub, n :: p => if isDot n then none else (sub.get n).bind fun e => e.find p

/-- `lstat` at a path. -/
def Entry.stat (e : Entry) (p : Path) : Option Node := (e.find p).map Entry.node

/-- The directory at a path: its inode and its entries. -/
def Entry.dirAt (e : Entry) (p : Path) : Option (Ino × Dir) :=
  match e.find p with
  | some (.dir ino sub) => some (ino, sub)
  | _ => none

@[simp] theorem find_nil (e : Entry) : e.find [] = some e := by cases e <;> rfl

theorem find_dir_cons (ino : Ino) (sub : Dir) (n : Name) (p : Path) :
    (Entry.dir ino sub).find (n :: p)
      = if isDot n then none else (sub.get n).bind fun e => e.find p := rfl

/-- Something is found below a directory under the name of an entry. -/
theorem find_cons_eq_some {ino : Ino} {sub : Dir} {n : Name} {p : Path} {x : Entry} :
    (Entry.dir ino sub).find (n :: p) = some x ↔
      isDot n = false ∧ ∃ e, sub.get n = some e ∧ e.find p = some x := by
  rw [find_dir_cons]
  cases isDot n with
  | true => exact ⟨nofun, nofun⟩
  | false => exact Option.bind_eq_some_iff.trans (and_iff_right rfl).symm

theorem stat_cons_eq_some {ino : Ino} {sub : Dir} {n : Name} {p : Path} {node : Node} :
    (Entry.dir ino sub).stat (n :: p) = some node ↔
      isDot n = false ∧ ∃ e, sub.get n = some e ∧ e.stat p = some node := by
  unfold Entry.stat
  simp only [Option.map_eq_some_iff, find_cons_eq_some]
  constructor
  · rintro ⟨x, ⟨hdot, e, hget, hfind⟩, hnode⟩
    exact ⟨hdot, e, hget, x, hfind, hnode⟩
  · rintro ⟨hdot, e, hget, x, hfind, hnode⟩
    exact ⟨x, ⟨hdot, e, hget, hfind⟩, hnode⟩

theorem find_append (e : Entry) (p q : Path) :
    e.find (p ++ q) = (e.find p).bind fun e' => e'.find q := by
  induction p generalizing e with
  | nil => simp
  | cons n p ih =>
    cases e with
    | leaf => rfl
    | dir ino sub =>
      rw [List.cons_append, find_dir_cons, find_dir_cons]
      split
      · rfl
      · cases sub.get n with
        | none => rfl
        | some e' => exact ih e'

theorem stat_append {e e' : Entry} {p : Path} (h : e.find p = some e') (q : Path) :
    e.stat (p ++ q) = e'.stat q := by
  simp only [Entry.stat, find_append, h, Option.bind_some]

/-- What exists has an existing prefix. -/
theorem find_of_le {e : Entry} {p q : Path} (hpq : p <+: q) (hq : e.find q ≠ none) :
    e.find p ≠ none := by
  obtain ⟨t, rfl⟩ := hpq
  intro hp
  rw [find_append, hp] at hq
  exact hq rfl

/-- Only a directory has something below it. -/
theorem find_parent_dir {e : Entry} {p : Path} {n : Name} (h : e.find (p ++ [n]) ≠ none) :
    ∃ ino sub, e.find p = some (.dir ino sub) := by
  rw [find_append] at h
  cases hp : e.find p with
  | none => rw [hp] at h; exact absurd rfl h
  | some e' =>
    cases e' with
    | leaf ino link => rw [hp] at h; exact absurd rfl h
    | dir ino sub => exact ⟨ino, sub, rfl⟩

/-- A path that exists contains no `.` or `..`. -/
theorem not_dot_of_find {e : Entry} {p : Path} (h : e.find p ≠ none) :
    ∀ n ∈ p, isDot n = false := by
  induction p generalizing e with
  | nil => exact List.forall_mem_nil _
  | cons m p ih =>
    cases e with
    | leaf => exact absurd rfl h
    | dir ino sub =>
      obtain ⟨x, hx⟩ := Option.ne_none_iff_exists'.mp h
      obtain ⟨hm, e', -, hx⟩ := find_cons_eq_some.mp hx
      intro n hn
      rcases List.mem_cons.mp hn with rfl | hn
      · exact hm
      · exact ih (Option.ne_none_iff_exists'.mpr ⟨x, hx⟩) n hn

/-- A name that is not there is free in its directory. -/
theorem get_of_find_none {e : Entry} {p : Path} {n : Name} {ino : Ino} {sub : Dir}
    (hp : e.find p = some (.dir ino sub)) (hdot : isDot n = false)
    (hn : e.find (p ++ [n]) = none) : sub.get n = none := by
  cases hg : sub.get n with
  | none => rfl
  | some x =>
    have hfind : (Entry.dir ino sub).find [n] = some x :=
      find_cons_eq_some.mpr ⟨hdot, x, hg, find_nil x⟩
    rw [find_append, hp, Option.bind_some, hfind] at hn
    cases hn

/-! ## Changing the tree -/

/-- Change the entries of the directory reached by a path. -/
def Dir.modifyAt (f : Dir → Dir) : Path → Dir → Dir
  | [], d => f d
  | n :: p, d => d.modify n (Dir.modifyAt f p)

/-- Change the entries of the directory at a path. -/
def Entry.modifyAt (f : Dir → Dir) (p : Path) (e : Entry) : Entry :=
  e.inside (Dir.modifyAt f p)

/-- Below the changed directory the tree is read in its new entries. -/
theorem find_modifyAt_below {f : Dir → Dir} {p : Path} {e : Entry} {ino : Ino} {sub : Dir}
    (h : e.find p = some (.dir ino sub)) (q : Path) :
    (e.modifyAt f p).find (p ++ q) = (Entry.dir ino (f sub)).find q := by
  induction p generalizing e with
  | nil =>
    rw [find_nil, Option.some.injEq] at h
    subst h
    rfl
  | cons n p ih =>
    cases e with
    | leaf => cases h
    | dir i d =>
      obtain ⟨hdot, e', he', h'⟩ := find_cons_eq_some.mp h
      rw [List.cons_append]
      show (Entry.dir i (d.modify n (Dir.modifyAt f p))).find (n :: (p ++ q)) = _
      rw [find_dir_cons, if_neg (Bool.eq_false_iff.mp hdot), get_modify, if_pos rfl, he']
      exact ih h'

/-- Everywhere else `stat` is unchanged. -/
theorem stat_modifyAt_elsewhere (f : Dir → Dir) {p q : Path} (h : ¬ p <+: q ∨ p = q) (e : Entry) :
    (e.modifyAt f p).stat q = e.stat q := by
  induction p generalizing e q with
  | nil =>
    have hq : q = [] := by
      rcases h with h | h
      · exact absurd List.nil_prefix h
      · exact h.symm
    subst hq
    cases e <;> rfl
  | cons n p ih =>
    cases e with
    | leaf => rfl
    | dir i d =>
      cases q with
      | nil => rfl
      | cons m q =>
        show ((Entry.dir i (d.modify n (Dir.modifyAt f p))).find (m :: q)).map _
          = ((Entry.dir i d).find (m :: q)).map _
        rw [find_dir_cons, find_dir_cons]
        split
        · rfl
        · rw [get_modify]
          by_cases hnm : n = m
          · subst hnm
            rw [if_pos rfl]
            cases d.get n with
            | none => rfl
            | some e' =>
              refine ih ?_ e'
              rcases h with h | h
              · exact Or.inl fun hp => h ((List.cons_prefix_cons).mpr ⟨rfl, hp⟩)
              · exact Or.inr (List.cons.inj h).2
          · rw [if_neg hnm]

/-- Create entry `e` under the name `n` in directory `p`. -/
def Entry.addAt (e : Entry) (p : Path) (pos : Nat) (n : Name) (new : Entry) : Entry :=
  e.modifyAt (Dir.add n new pos) p

/-- Take the entry `n` of directory `p` out of the tree. -/
def Entry.eraseAt (e : Entry) (p : Path) (n : Name) : Entry :=
  e.modifyAt (Dir.remove n) p

/-- A path strictly below `p` continues with one of `p`'s entries. -/
private theorem below_cases (p q : Path) :
    (¬ p <+: q ∨ p = q) ∨ ∃ m r, q = p ++ m :: r := by
  by_cases h : p <+: q
  · obtain ⟨t, rfl⟩ := h
    cases t with
    | nil => exact Or.inl (Or.inr (by simp))
    | cons m r => exact Or.inr ⟨m, r, rfl⟩
  · exact Or.inl (Or.inl h)

private theorem snoc_prefix_cons {p : Path} {n m : Name} {r : Path} :
    p ++ [n] <+: p ++ m :: r ↔ n = m := by
  rw [List.prefix_append_right_inj, List.cons_prefix_cons]
  simp [List.nil_prefix]

private theorem snoc_not_below {p q : Path} {n : Name} (h : ¬ p <+: q ∨ p = q) :
    ¬ p ++ [n] <+: q := by
  intro hp
  rcases h with h | h
  · exact h ((List.prefix_append p [n]).trans hp)
  · subst h
    have hlen := hp.length_le
    rw [List.length_append, List.length_singleton] at hlen
    omega

/-- What `stat` sees after an entry was added: below the new name the new
entry, everything else as before. -/
theorem stat_addAt {e new : Entry} {p : Path} {n : Name} {pos : Nat} {ino : Ino} {sub : Dir}
    (hp : e.find p = some (.dir ino sub)) (hdot : isDot n = false)
    (hn : e.find (p ++ [n]) = none) (q : Path) :
    (e.addAt p pos n new).stat q
      = if p ++ [n] <+: q then new.stat (q.drop (p.length + 1)) else e.stat q := by
  have hget := get_of_find_none hp hdot hn
  -- either the change cannot be seen from `q`, or `q` goes through an entry of `p`
  rcases below_cases p q with h | ⟨m, r, rfl⟩
  · rw [if_neg (snoc_not_below h)]
    exact stat_modifyAt_elsewhere _ h e
  · have hdrop : (p ++ m :: r).drop (p.length + 1) = r := by
      rw [← List.drop_drop, List.drop_left]; rfl
    show ((e.modifyAt (Dir.add n new pos) p).find (p ++ m :: r)).map _ = _
    rw [find_modifyAt_below hp, hdrop, find_dir_cons, get_add hget]
    by_cases hnm : n = m
    · subst hnm
      rw [if_pos rfl, if_pos (snoc_prefix_cons.mpr rfl), hdot]
      rfl
    · rw [if_neg hnm, if_neg (fun h => hnm (snoc_prefix_cons.mp h)), stat_append hp]
      rfl

/-- `stat_addAt` for an entry with nothing in it. -/
theorem stat_addAt_bare {e new : Entry} {p : Path} {n : Name} {pos : Nat} {ino : Ino} {sub : Dir}
    (hnew : ∀ m r, new.stat (m :: r) = none) (hp : e.find p = some (.dir ino sub))
    (hdot : isDot n = false) (hn : e.find (p ++ [n]) = none) (q : Path) :
    (e.addAt p pos n new).stat q = if q = p ++ [n] then some new.node else e.stat q := by
  rw [stat_addAt hp hdot hn]
  by_cases hq : p ++ [n] <+: q
  · obtain ⟨r, rfl⟩ := hq
    have hdrop : (p ++ [n] ++ r).drop (p.length + 1) = r := by
      rw [show p.length + 1 = (p ++ [n]).length by simp, List.drop_left]
    rw [if_pos (List.prefix_append _ _), hdrop]
    cases r with
    | nil =>
      rw [if_pos (by simp)]
      simp [Entry.stat]
    | cons m r =>
      -- nothing is in the new entry, and nothing was there before
      rw [if_neg (by simp), hnew m r]
      symm
      rw [Entry.stat, Option.map_eq_none_iff]
      by_contra h
      exact find_of_le (List.prefix_append _ _) h hn
  · rw [if_neg hq, if_neg]
    intro h
    exact hq (h ▸ List.prefix_refl _)

/-- What `stat` sees after an entry was taken out. -/
theorem stat_eraseAt {e : Entry} {p : Path} {n : Name} {ino : Ino} {sub : Dir}
    (hp : e.find p = some (.dir ino sub)) (q : Path) :
    (e.eraseAt p n).stat q = if p ++ [n] <+: q then none else e.stat q := by
  rcases below_cases p q with h | ⟨m, r, rfl⟩
  · rw [if_neg (snoc_not_below h)]
    exact stat_modifyAt_elsewhere _ h e
  · show ((e.modifyAt (Dir.remove n) p).find (p ++ m :: r)).map _ = _
    rw [find_modifyAt_below hp, find_dir_cons, get_remove]
    by_cases hnm : n = m
    · subst hnm
      rw [if_pos rfl, if_pos (snoc_prefix_cons.mpr rfl)]
      split <;> rfl
    · rw [if_neg hnm, if_neg (fun h => hnm (snoc_prefix_cons.mp h)), stat_append hp]
      rfl

/-! ## Inode numbers -/

/-- The inode numbers in use below a directory. -/
def Dir.inos : Dir → List Ino
  | .nil => []
  | .leaf _ ino _ rest => ino :: rest.inos
  | .dir _ ino sub rest => ino :: (sub.inos ++ rest.inos)

def Entry.inos : Entry → List Ino
  | .leaf ino _ => [ino]
  | .dir ino sub => ino :: sub.inos

/-- The inode numbers of the directories below a directory. -/
def Dir.dirInos : Dir → List Ino
  | .nil => []
  | .leaf _ _ _ rest => rest.dirInos
  | .dir _ ino sub rest => ino :: (sub.dirInos ++ rest.dirInos)

def Entry.dirInos : Entry → List Ino
  | .leaf .. => []
  | .dir ino sub => ino :: sub.dirInos

theorem inos_of_get {n : Name} {e : Entry} {d : Dir} (h : d.get n = some e) :
    e.inos ⊆ d.inos := by
  induction d with
  | nil => cases h
  | leaf m ino link rest ih =>
    unfold Dir.get at h
    split at h
    · cases h
      exact fun i hi => List.mem_cons.mpr (Or.inl (List.mem_singleton.mp hi))
    · exact fun i hi => List.mem_cons_of_mem _ (ih h hi)
  | dir m ino sub rest _ ih =>
    unfold Dir.get at h
    split at h
    · cases h
      intro i hi
      rcases List.mem_cons.mp hi with rfl | hi
      · exact List.mem_cons_self ..
      · exact List.mem_cons_of_mem _ (List.mem_append_left _ hi)
    · exact fun i hi => List.mem_cons_of_mem _ (List.mem_append_right _ (ih h hi))

/-- Whatever `stat` finds has an inode number in use. -/
theorem ino_mem_inos {e : Entry} {p : Path} {node : Node} (h : e.stat p = some node) :
    node.ino ∈ e.inos := by
  induction p generalizing e with
  | nil =>
    simp only [Entry.stat, find_nil, Option.map_some, Option.some.injEq] at h
    subst h
    cases e <;> exact List.mem_cons_self ..
  | cons n p ih =>
    cases e with
    | leaf => cases h
    | dir i d =>
      obtain ⟨-, e', hg, h⟩ := stat_cons_eq_some.mp h
      exact List.mem_cons_of_mem _ (inos_of_get hg (ih h))

theorem dirInos_of_get {n : Name} {e : Entry} {d : Dir} (h : d.get n = some e) :
    e.dirInos.Sublist d.dirInos := by
  induction d with
  | nil => cases h
  | leaf m ino link rest ih =>
    unfold Dir.get at h
    split at h
    · cases h; exact List.nil_sublist _
    · exact ih h
  | dir m ino sub rest _ ih =>
    unfold Dir.get at h
    split at h
    · cases h; exact (List.sublist_append_left _ _).cons_cons _
    · exact ((ih h).trans (List.sublist_append_right _ _)).cons _

theorem dir_mem_dirInos {e : Entry} {p : Path} {i : Ino} (h : e.stat p = some (.dir i)) :
    i ∈ e.dirInos := by
  induction p generalizing e with
  | nil =>
    cases e with
    | leaf => cases h
    | dir j d => cases h; exact List.mem_cons_self ..
  | cons n p ih =>
    cases e with
    | leaf => cases h
    | dir j d =>
      obtain ⟨-, e', hg, h⟩ := stat_cons_eq_some.mp h
      exact List.mem_cons_of_mem _ ((dirInos_of_get hg).mem (ih h))

/-- Two entries of a directory share no directory inode. -/
theorem dirInos_disjoint {n m : Name} (hnm : n ≠ m) {e e' : Entry} {d : Dir}
    (hd : d.dirInos.Nodup) (h : d.get n = some e) (h' : d.get m = some e') :
    ∀ i ∈ e.dirInos, i ∉ e'.dirInos := by
  induction d with
  | nil => cases h
  | leaf k ino link rest ih =>
    unfold Dir.get at h h'
    split at h
    · cases h; intro i hi; cases hi
    · split at h'
      · cases h'; intro i _ hi; cases hi
      · exact ih hd h h'
  | dir k ino sub rest _ ih =>
    unfold Dir.get at h h'
    obtain ⟨hino, hnd⟩ := List.nodup_cons.mp hd
    obtain ⟨_, hrest, hdisj⟩ := List.nodup_append.mp hnd
    -- what is in a later entry is in the rest of the directory
    have hlater : ∀ {l : Name} {x : Entry}, rest.get l = some x →
        ∀ i ∈ x.dirInos, i ≠ ino ∧ i ∉ sub.dirInos := by
      intro l x hx i hi
      have hr : i ∈ rest.dirInos := (dirInos_of_get hx).mem hi
      refine ⟨fun he => hino (he ▸ List.mem_append_right _ hr), fun hs => ?_⟩
      exact hdisj i hs i hr rfl
    split at h
    · cases h
      rw [if_neg (fun he => hnm (by rw [← he]; symm; assumption))] at h'
      intro i hi hi'
      have hl := hlater h' i hi'
      rcases List.mem_cons.mp hi with rfl | hi
      · exact hl.1 rfl
      · exact hl.2 hi
    · split at h'
      · cases h'
        intro i hi hi'
        have hl := hlater h i hi
        rcases List.mem_cons.mp hi' with rfl | hi'
        · exact hl.1 rfl
        · exact hl.2 hi'
      · exact ih hrest h h'

/-- No two directories have the same inode. -/
def Entry.Unique (e : Entry) : Prop :=
  ∀ {p q : Path} {i : Ino}, e.stat p = some (.dir i) → e.stat q = some (.dir i) → p = q

/-- Distinct inode numbers: a directory is at one path only. -/
theorem unique_of_nodup {e : Entry} (he : e.dirInos.Nodup) : e.Unique := by
  intro p q i hp hq
  induction p generalizing e q with
  | nil =>
    cases e with
    | leaf => cases hp
    | dir j d =>
      cases hp
      cases q with
      | nil => rfl
      | cons m q =>
        obtain ⟨-, e', hg, h⟩ := stat_cons_eq_some.mp hq
        exact absurd ((dirInos_of_get hg).mem (dir_mem_dirInos h)) (List.nodup_cons.mp he).1
  | cons n p ih =>
    cases e with
    | leaf => cases hp
    | dir j d =>
      obtain ⟨hj, hd⟩ := List.nodup_cons.mp he
      obtain ⟨-, e₁, hg₁, h₁⟩ := stat_cons_eq_some.mp hp
      cases q with
      | nil =>
        -- the directory itself would have the inode of one inside it
        cases hq
        exact absurd ((dirInos_of_get hg₁).mem (dir_mem_dirInos h₁)) hj
      | cons m q =>
        obtain ⟨-, e₂, hg₂, h₂⟩ := stat_cons_eq_some.mp hq
        by_cases hnm : n = m
        · subst hnm
          rw [hg₁, Option.some.injEq] at hg₂
          subst hg₂
          rw [ih ((dirInos_of_get hg₁).nodup hd) h₁ h₂]
        · exact absurd (dir_mem_dirInos h₂)
            (dirInos_disjoint hnm hd hg₁ hg₂ i (dir_mem_dirInos h₁))

/-! ## Names are unique -/

/-- No two entries of a directory have the same name, at any depth. The `.`
and `..` that `readdir` lists may stand anywhere. -/
def Dir.WF : Dir → Prop
  | .nil => True
  | .leaf n _ _ rest => (isDot n = false → rest.get n = none) ∧ rest.WF
  | .dir n _ sub rest => (isDot n = false → rest.get n = none) ∧ sub.WF ∧ rest.WF

def Entry.WF : Entry → Prop
  | .leaf .. => True
  | .dir _ sub => sub.WF

theorem wf_cons_iff {n : Name} {e : Entry} {d : Dir} :
    (d.cons n e).WF ↔ (isDot n = false → d.get n = none) ∧ e.WF ∧ d.WF := by
  cases e with
  | leaf => exact and_congr_right fun _ => (and_iff_right trivial).symm
  | dir => exact Iff.rfl

theorem wf_cons {n : Name} {e : Entry} {d : Dir} (hn : d.get n = none) (he : e.WF) (hd : d.WF) :
    (d.cons n e).WF := wf_cons_iff.mpr ⟨fun _ => hn, he, hd⟩

theorem wf_add {n : Name} {e : Entry} (he : e.WF) (pos : Nat) {d : Dir} (hn : d.get n = none)
    (hd : d.WF) : (d.add n e pos).WF := by
  induction pos generalizing d with
  | zero => exact wf_cons hn he hd
  | succ pos ih =>
    induction d using Dir.cons_induction with
    | nil => exact wf_cons hn he hd
    | cons m x rest _ =>
      obtain ⟨hm, hrest⟩ := get_cons_eq_none.mp hn
      obtain ⟨hfree, hx, hd⟩ := wf_cons_iff.mp hd
      rw [add_cons, wf_cons_iff]
      refine ⟨fun hdot => ?_, hx, ih hrest hd⟩
      rw [get_add hrest, if_neg (Ne.symm hm)]
      exact hfree hdot

theorem wf_remove (n : Name) {d : Dir} (hd : d.WF) : (d.remove n).WF := by
  induction d using Dir.cons_induction with
  | nil => trivial
  | cons m x rest ih =>
    obtain ⟨hfree, hx, hd⟩ := wf_cons_iff.mp hd
    rw [remove_cons]
    split
    · exact ih hd
    · refine wf_cons_iff.mpr ⟨fun hdot => ?_, hx, ih hd⟩
      rw [get_remove, hfree hdot]
      exact ite_self none

theorem wf_modify (n : Name) {f : Dir → Dir} {d : Dir} (hd : d.WF)
    (hf : ∀ ino sub, d.get n = some (.dir ino sub) → isDot n = false → sub.WF → (f sub).WF)
    (hdot : isDot n = false) : (d.modify n f).WF := by
  induction d using Dir.cons_induction with
  | nil => trivial
  | cons m x rest ih =>
    obtain ⟨hfree, hx, hd⟩ := wf_cons_iff.mp hd
    rw [modify_cons, wf_cons_iff]
    refine ⟨fun h => ?_, ?_, ih hd fun i s hs => ?_⟩
    · rw [get_modify, hfree h]
      exact ite_self none
    · by_cases hmn : m = n
      · rw [if_pos hmn]
        cases x with
        | leaf => trivial
        | dir ino sub => exact hf ino sub (by rw [get_cons, if_pos hmn]) hdot hx
      · rw [if_neg hmn]
        exact hx
    · -- the changed entry is in the rest only if its name is not this one
      by_cases hmn : m = n
      · rw [← hmn, hfree (hmn ▸ hdot)] at hs
        cases hs
      · exact hf i s (by rw [get_cons, if_neg hmn]; exact hs)

/-- A change of one directory keeps names unique if it does so there. -/
theorem wf_modifyAt {f : Dir → Dir} {p : Path} {e : Entry} {ino : Ino} {sub : Dir} (he : e.WF)
    (hp : e.find p = some (.dir ino sub)) (hf : sub.WF → (f sub).WF) : (e.modifyAt f p).WF := by
  induction p generalizing e with
  | nil =>
    rw [find_nil, Option.some.injEq] at hp
    subst hp
    exact hf he
  | cons n p ih =>
    cases e with
    | leaf => trivial
    | dir i d =>
      obtain ⟨hdot, e', he', h'⟩ := find_cons_eq_some.mp hp
      refine wf_modify n he (fun i' s' hs' _ hwf => ?_) hdot
      rw [he', Option.some.injEq] at hs'
      subst hs'
      exact ih (e := .dir i' s') hwf h'

theorem wf_addAt {e new : Entry} {p : Path} {n : Name} {pos : Nat} {ino : Ino} {sub : Dir}
    (he : e.WF) (hnew : new.WF) (hp : e.find p = some (.dir ino sub)) (hdot : isDot n = false)
    (hn : e.find (p ++ [n]) = none) : (e.addAt p pos n new).WF := by
  exact wf_modifyAt he hp fun hsub => wf_add hnew pos (get_of_find_none hp hdot hn) hsub

theorem wf_eraseAt {e : Entry} {p : Path} {n : Name} {ino : Ino} {sub : Dir} (he : e.WF)
    (hp : e.find p = some (.dir ino sub)) : (e.eraseAt p n).WF :=
  wf_modifyAt he hp fun hsub => wf_remove n hsub

/-- A file system: a tree with unique names in which every directory has an
inode number of its own. -/
structure FileSystem where
  tree : Entry
  wf : tree.WF
  nodup : tree.dirInos.Nodup

/-- `/r`, with nothing in it. -/
def emptyRoot : FileSystem where
  tree := .dir 1 (.dir (ascii "r") 2 .nil .nil)
  wf := by simp [Entry.WF, Dir.WF, Dir.get, isDot, ascii]
  nodup := by decide

end CommonCpp.Fs
