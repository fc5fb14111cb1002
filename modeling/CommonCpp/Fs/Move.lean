import CommonCpp.Fs.Resolve

/-!
# Making, moving and removing entries

What the changes of a tree do to its directories: an entry that is made gets an
inode number not in use, a rename takes an entry out and puts it in elsewhere,
over whatever was there (`stat_moveAt`), and all of them leave names and
directory inodes unique.
-/

namespace CommonCpp.Fs

open CommonCpp.Lib

theorem wf_of_get {d : Dir} {n : Name} {x : Entry} (hd : d.WF) (h : d.get n = some x) : x.WF := by
  induction d using Dir.cons_induction with
  | nil => cases h
  | cons m y rest ih =>
    obtain ⟨-, hy, hd⟩ := wf_cons_iff.mp hd
    rw [get_cons] at h
    split at h
    · cases h
      exact hy
    · exact ih hd h

/-- An entry of a sound tree is sound. -/
theorem wf_find {e e' : Entry} {p : Path} (he : e.WF) (h : e.find p = some e') : e'.WF := by
  induction p generalizing e with
  | nil => rw [find_nil, Option.some.injEq] at h; rwa [← h]
  | cons n p ih =>
    cases e with
    | leaf => cases h
    | dir i d =>
      obtain ⟨-, x, hx, h⟩ := find_cons_eq_some.mp h
      exact ih (wf_of_get he hx) h

/-! ## Making an entry -/

theorem unique_addAt_bare {e new : Entry} {p : Path} {n : Name} {pos : Nat} {ino : Ino} {sub : Dir}
    (he : e.Unique) (hnew : ∀ m r, new.stat (m :: r) = none) (hfresh : new.node.ino ∉ e.inos)
    (hp : e.find p = some (.dir ino sub)) (hdot : isDot n = false)
    (hn : e.find (p ++ [n]) = none) : (e.addAt p pos n new).Unique := by
  intro x y i hx hy
  -- the inode of the new entry was not in use
  have hold : ∀ {z : Path}, (e.addAt p pos n new).stat z = some (.dir i) →
      z = p ++ [n] ∧ new.node.ino = i ∨ e.stat z = some (.dir i) := by
    intro z hz
    rw [stat_addAt_bare hnew hp hdot hn] at hz
    split at hz
    · next he => left; exact ⟨he, by rw [Option.some.inj hz]; rfl⟩
    · right; exact hz
  rcases hold hx with ⟨hx, hxi⟩ | hx
  · rcases hold hy with ⟨hy, -⟩ | hy
    · rw [hx, hy]
    · exact absurd (hxi ▸ ino_mem_inos hy) hfresh
  · rcases hold hy with ⟨-, hyi⟩ | hy
    · exact absurd (hyi ▸ ino_mem_inos hx) hfresh
    · exact he hx hy

/-! ## Removing an entry -/

/-- Nothing but `.` and `..` is in a directory. -/
def Dir.isEmpty : Dir → Bool
  | .nil => true
  | .leaf n _ _ rest => isDot n && rest.isEmpty
  | .dir n _ _ rest => isDot n && rest.isEmpty

/-- The entry can be removed: a leaf or an empty directory. -/
def Entry.removable : Entry → Bool
  | .leaf .. => true
  | .dir _ sub => sub.isEmpty

theorem isEmpty_cons (n : Name) (x : Entry) (rest : Dir) :
    (rest.cons n x).isEmpty = (isDot n && rest.isEmpty) := by
  cases x <;> rfl

theorem get_of_isEmpty {d : Dir} (h : d.isEmpty = true) {n : Name} (hn : isDot n = false) :
    d.get n = none := by
  induction d using Dir.cons_induction with
  | nil => rfl
  | cons m x rest ih =>
    rw [isEmpty_cons] at h
    obtain ⟨hm, hrest⟩ := Bool.and_eq_true_iff.mp h
    have hmn : m ≠ n := fun he => by rw [he, hn] at hm; cases hm
    exact get_cons_eq_none.mpr ⟨hmn, ih hrest⟩

/-- Nothing is below what can be removed. -/
theorem stat_of_removable {e : Entry} (h : e.removable = true) (n : Name) (r : Path) :
    e.stat (n :: r) = none := by
  cases e with
  | leaf => rfl
  | dir ino sub =>
    rw [Entry.stat, find_dir_cons]
    split
    · rfl
    · next hn =>
      have hget := get_of_isEmpty (d := sub) h (by simpa using hn)
      rw [hget]
      rfl

theorem unique_eraseAt {e : Entry} {p : Path} {n : Name} {ino : Ino} {sub : Dir} (he : e.Unique)
    (hp : e.find p = some (.dir ino sub)) : (e.eraseAt p n).Unique := by
  have hold : ∀ {z : Path} {i : Ino}, (e.eraseAt p n).stat z = some (.dir i) →
      e.stat z = some (.dir i) := by
    intro z i hz
    rw [stat_eraseAt hp] at hz
    split at hz
    · cases hz
    · exact hz
  intro x y i hx hy
  exact he (hold hx) (hold hy)

/-! ## Moving an entry -/

/-- The entry `n` of directory `src`, which is `moved`, becomes the entry `m` of
directory `dst`, instead of what has that name there. -/
def Entry.moveAt (e : Entry) (src : Path) (n : Name) (dst : Path) (pos : Nat) (m : Name)
    (moved : Entry) : Entry :=
  ((e.eraseAt src n).eraseAt dst m).addAt dst pos m moved

/-- A rename that can take place: from one entry to another place of the tree,
not below the entry itself. -/
structure Moves (e : Entry) (src : Path) (n : Name) (dst : Path) (m : Name) (moved : Entry) :
    Prop where
  source : ∃ i sub, e.find src = some (.dir i sub)
  entry : e.find (src ++ [n]) = some moved
  target : ∃ i sub, e.find dst = some (.dir i sub)
  legit : isDot m = false
  apart : ¬ src ++ [n] <+: dst ++ [m]

section

variable {e moved : Entry} {src dst : Path} {n m : Name}

theorem snoc_not_above (p : Path) (n : Name) : ¬ p ++ [n] <+: p := by
  intro h
  have hlen := h.length_le
  rw [List.length_append, List.length_singleton] at hlen
  omega

/-- The target directory stays where it is while the entry is out. -/
theorem Moves.target_erased (h : Moves e src n dst m moved) :
    ∃ i sub, (e.eraseAt src n).find dst = some (.dir i sub) := by
  obtain ⟨i, sub, hsrc⟩ := h.source
  obtain ⟨j, sub', hdst⟩ := h.target
  have hapart : ¬ src ++ [n] <+: dst := fun hp => h.apart (hp.trans (List.prefix_append _ _))
  have hstat : (e.eraseAt src n).stat dst = some (.dir j) := by
    rw [stat_eraseAt hsrc, if_neg hapart]
    exact stat_dir_iff.mpr ⟨sub', hdst⟩
  obtain ⟨sub'', hfind⟩ := stat_dir_iff.mp hstat
  exact ⟨j, sub'', hfind⟩

/-- The place at the target is free in the end. -/
theorem Moves.free (h : Moves e src n dst m moved) :
    (∃ i sub, ((e.eraseAt src n).eraseAt dst m).find dst = some (.dir i sub)) ∧
      ((e.eraseAt src n).eraseAt dst m).find (dst ++ [m]) = none := by
  obtain ⟨j, sub, hdst⟩ := h.target_erased
  constructor
  · have hstat : ((e.eraseAt src n).eraseAt dst m).stat dst = some (.dir j) := by
      rw [stat_eraseAt hdst, if_neg (snoc_not_above dst m)]
      exact stat_dir_iff.mpr ⟨sub, hdst⟩
    obtain ⟨sub', hfind⟩ := stat_dir_iff.mp hstat
    exact ⟨j, sub', hfind⟩
  · have hstat : ((e.eraseAt src n).eraseAt dst m).stat (dst ++ [m]) = none := by
      rw [stat_eraseAt hdst, if_pos (List.prefix_refl _)]
    exact stat_none_iff.mp hstat

/-- What `stat` sees after a rename: the entry below its new path, nothing below
the old one, everything else as before. -/
theorem stat_moveAt (h : Moves e src n dst m moved) (pos : Nat) (q : Path) :
    (e.moveAt src n dst pos m moved).stat q
      = if dst ++ [m] <+: q then moved.stat (q.drop (dst.length + 1))
        else if src ++ [n] <+: q then none else e.stat q := by
  obtain ⟨⟨i, sub, hdst⟩, hfree⟩ := h.free
  obtain ⟨j, sub', hdst'⟩ := h.target_erased
  obtain ⟨k, sub'', hsrc⟩ := h.source
  rw [Entry.moveAt, stat_addAt hdst h.legit hfree, stat_eraseAt hdst', stat_eraseAt hsrc]
  split <;> rfl

theorem wf_moveAt (he : e.WF) (h : Moves e src n dst m moved) (pos : Nat) :
    (e.moveAt src n dst pos m moved).WF := by
  obtain ⟨⟨i, sub, hdst⟩, hfree⟩ := h.free
  obtain ⟨j, sub', hdst'⟩ := h.target_erased
  obtain ⟨k, sub'', hsrc⟩ := h.source
  exact wf_addAt (wf_eraseAt (wf_eraseAt he hsrc) hdst') (wf_find he h.entry) hdst h.legit hfree

/-- Where a directory was before a rename. -/
theorem dir_of_moveAt (h : Moves e src n dst m moved) {pos : Nat} {q : Path} {i : Ino}
    (hq : (e.moveAt src n dst pos m moved).stat q = some (.dir i)) :
    (∃ r, q = dst ++ [m] ++ r ∧ e.stat (src ++ [n] ++ r) = some (.dir i)) ∨
      ¬ dst ++ [m] <+: q ∧ ¬ src ++ [n] <+: q ∧ e.stat q = some (.dir i) := by
  rw [stat_moveAt h] at hq
  split at hq
  · next hbelow =>
    obtain ⟨r, rfl⟩ := hbelow
    have hdrop : (dst ++ [m] ++ r).drop (dst.length + 1) = r := by
      have hlen : dst.length + 1 = (dst ++ [m]).length := by simp
      rw [hlen, List.drop_left]
    rw [hdrop] at hq
    exact Or.inl ⟨r, rfl, by rw [stat_append h.entry]; exact hq⟩
  · next hdst =>
    split at hq
    · cases hq
    · next hsrc => exact Or.inr ⟨hdst, hsrc, hq⟩

theorem unique_moveAt (he : e.Unique) (h : Moves e src n dst m moved) (pos : Nat) :
    (e.moveAt src n dst pos m moved).Unique := by
  intro x y i hx hy
  rcases dir_of_moveAt h hx with ⟨r, hxr, hxs⟩ | ⟨-, hxn, hxs⟩
  · rcases dir_of_moveAt h hy with ⟨r', hyr, hys⟩ | ⟨-, hyn, hys⟩
    · rw [hxr, hyr, List.append_cancel_left (he hxs hys)]
    · exact absurd (he hxs hys ▸ List.prefix_append _ _) hyn
  · rcases dir_of_moveAt h hy with ⟨r', hyr, hys⟩ | ⟨-, -, hys⟩
    · exact absurd (he hys hxs ▸ List.prefix_append _ _) hxn
    · exact he hxs hys

/-- Apart from its old and its new path, a rename changes nothing. -/
theorem Moves.stat_apart (h : Moves e src n dst m moved) (pos : Nat) {q : Path}
    (hto : ¬ dst ++ [m] <+: q) (hfrom : ¬ src ++ [n] <+: q) :
    (e.moveAt src n dst pos m moved).stat q = e.stat q := by
  rw [stat_moveAt h, if_neg hto, if_neg hfrom]

/-- A directory that a rename replaces is nowhere any more. -/
theorem Moves.replaced_gone (h : Moves e src n dst m moved) (he : e.Unique) {pos : Nat} {i : Ino}
    (hold : e.stat (dst ++ [m]) = some (.dir i)) (p : Path) :
    (e.moveAt src n dst pos m moved).stat p ≠ some (.dir i) := by
  intro hp
  rcases dir_of_moveAt h hp with ⟨r, -, hp⟩ | ⟨hnot, -, hp⟩
  · exact h.apart (he hp hold ▸ List.prefix_append _ _)
  · exact hnot (he hp hold ▸ List.prefix_refl _)

/-- Nothing is left at the old path. -/
theorem Moves.source_gone (h : Moves e src n dst m moved) (pos : Nat) (hsrc : ¬ dst ++ [m] <+: src) :
    (e.moveAt src n dst pos m moved).stat (src ++ [n]) = none := by
  have hnot : ¬ dst ++ [m] <+: src ++ [n] := by
    intro hp
    rcases List.prefix_concat_iff.mp hp with heq | hp
    · exact h.apart (heq ▸ List.prefix_refl _)
    · exact hsrc hp
  rw [stat_moveAt h, if_neg hnot, if_pos (List.prefix_refl _)]

end

end CommonCpp.Fs
