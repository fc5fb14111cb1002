import CommonCpp.Monitor.Refinement

/-!
# What `common::find_files` lists

The function on strings: a path is extended by `std::filesystem`'s `append`. The
names along a path come back when the string is parsed, so two entries never get
one string (`spell_injective`), and the call leaves the vector extended by every
descendant once, in pre-order, less what its flags leave out (`enumerated`).
-/

namespace CommonCpp.Files

open CommonCpp.Fs CommonCpp.Lib CommonCpp.Monitor

/-- Every name below a directory is one the kernel takes. -/
def Named : Dir → Prop
  | .nil => True
  | .leaf n _ _ rest => (IsName n ∧ NulFree n) ∧ Named rest
  | .dir n _ sub rest => (IsName n ∧ NulFree n) ∧ Named sub ∧ Named rest

/-- A finite directory tree. A link is a leaf, wherever it leads. -/
structure Tree where
  entries : Dir
  wf : entries.WF
  named : Named entries

/-- The path of a descendant of `root`, as a string. -/
def spell (root : Bytes) (z : Path) : Bytes := z.foldl appendName root

/-- The wanted descendants under the paths they have from `root`. -/
def Tree.listed (t : Tree) (root : Bytes) (recursive : Bool) (filter : Int) : List Bytes :=
  (t.entries.descendants.filter (Descendant.wanted recursive filter)).map fun x =>
    spell root x.elems

/-- `find_files(root, files, recursive, filter)`, and what it leaves in `files`. -/
def Lists (readable : Bytes → Bool) (t : Tree) (root : Bytes) (recursive : Bool) (filter : Int)
    (files files' : List Bytes) : Prop :=
  ∀ calls, ∃ calls',
    findFiles appendName readable recursive filter root t.entries ⟨files, calls⟩
      = .ok ⟨files', calls'⟩

/-! ## Names and strings -/

theorem named_of_mem {d : Dir} (hd : Named d) {x : Descendant} (hx : x ∈ d.descendants) :
    ∀ n ∈ x.elems, IsName n ∧ NulFree n := by
  induction d generalizing x with
  | nil => cases hx
  | leaf m ino link rest ih =>
    rw [Dir.descendants, List.mem_append] at hx
    rcases hx with hx | hx
    · split at hx
      · cases hx
      · intro n hn
        rw [List.mem_singleton.mp hx] at hn
        rw [List.mem_singleton.mp hn]
        exact hd.1
    · exact ih hd.2 hx
  | dir m ino sub rest ihsub ih =>
    rw [Dir.descendants, List.mem_append] at hx
    rcases hx with hx | hx
    · split at hx
      · cases hx
      · intro n hn
        rcases List.mem_cons.mp hx with rfl | hx
        · rw [List.mem_singleton.mp hn]
          exact hd.1
        · obtain ⟨y, hy, rfl⟩ := List.mem_map.mp hx
          rcases List.mem_cons.mp hn with rfl | hn
          · exact hd.1
          · exact ihsub hd.2.1 hy n hn
    · exact ih hd.2.2 hx

theorem parse_spell {z : Path} (hz : ∀ n ∈ z, IsName n) (root : Bytes) :
    parse (spell root z) = parse root ++ z := by
  induction z generalizing root with
  | nil => exact (List.append_nil _).symm
  | cons n z ih =>
    have hn := hz n (List.mem_cons_self ..)
    have hrest : ∀ m ∈ z, IsName m := fun m hm => hz m (List.mem_cons_of_mem _ hm)
    show parse (spell (appendName root n) z) = _
    rw [ih hrest, parse_appendName_of_name hn, List.append_assoc, List.singleton_append]

/-- Different names give different strings. -/
theorem spell_injective {root : Bytes} {y z : Path} (hy : ∀ n ∈ y, IsName n)
    (hz : ∀ n ∈ z, IsName n) (h : spell root y = spell root z) : y = z := by
  have hparse := congrArg parse h
  rw [parse_spell hy, parse_spell hz] at hparse
  exact List.append_cancel_left hparse

/-! ## The listing -/

variable (t : Tree) (root : Bytes)

theorem mem_listed {recursive : Bool} {filter : Int} {f : Bytes} :
    f ∈ t.listed root recursive filter ↔
      ∃ x, t.entries.HasDescendant x ∧ x.wanted recursive filter = true ∧
        f = spell root x.elems := by
  unfold Tree.listed
  rw [List.mem_map]
  constructor
  · rintro ⟨x, hx, rfl⟩
    obtain ⟨hmem, hwant⟩ := List.mem_filter.mp hx
    exact ⟨x, (mem_descendants t.wf x).mp hmem, hwant, rfl⟩
  · rintro ⟨x, hx, hwant, rfl⟩
    exact ⟨x, List.mem_filter.mpr ⟨(mem_descendants t.wf x).mpr hx, hwant⟩, rfl⟩

theorem nodup_listed (recursive : Bool) (filter : Int) : (t.listed root recursive filter).Nodup := by
  have helems := nodup_elems t.wf
  refine (List.Nodup.of_map _ helems).filter _ |>.map_on ?_
  intro x hx y hy hspell
  have hx' := (List.mem_filter.mp hx).1
  have hy' := (List.mem_filter.mp hy).1
  have heq := spell_injective (fun n hn => (named_of_mem t.named hx' n hn).1)
    (fun n hn => (named_of_mem t.named hy' n hn).1) hspell
  exact List.inj_on_of_nodup_map helems hx' hy' heq

/-- Without filter: everything, or everything at depth one. -/
theorem wanted_split (recursive : Bool) (x : Descendant) :
    x.wanted recursive 1 = (x.wanted recursive 0 && !x.isDir) ∧
      x.wanted recursive 2 = (x.wanted recursive 0 && x.isDir) := by
  unfold Descendant.wanted
  cases x.isDir <;> simp

/-- The files and the directories are what is listed without filter, taken apart. -/
theorem listed_split (recursive : Bool) :
    (t.listed root recursive 1).Sublist (t.listed root recursive 0) ∧
      (t.listed root recursive 2).Sublist (t.listed root recursive 0) ∧
      (t.listed root recursive 1 ++ t.listed root recursive 2).Perm (t.listed root recursive 0) := by
  have hone : t.entries.descendants.filter (Descendant.wanted recursive 1)
      = (t.entries.descendants.filter (Descendant.wanted recursive 0)).filter fun x => !x.isDir := by
    rw [List.filter_filter]
    refine List.filter_congr fun x _ => ?_
    rw [(wanted_split recursive x).1, Bool.and_comm]
  have htwo : t.entries.descendants.filter (Descendant.wanted recursive 2)
      = (t.entries.descendants.filter (Descendant.wanted recursive 0)).filter fun x => x.isDir := by
    rw [List.filter_filter]
    refine List.filter_congr fun x _ => ?_
    rw [(wanted_split recursive x).2, Bool.and_comm]
  unfold Tree.listed
  rw [hone, htwo]
  refine ⟨List.filter_sublist.map _, List.filter_sublist.map _, ?_⟩
  rw [← List.map_append]
  refine List.Perm.map _ (List.perm_append_comm.trans ?_)
  exact List.filter_append_perm (fun x : Descendant => x.isDir) _

theorem lists_listed {readable : Bytes → Bool} (hroot : readable root = true)
    (ho : Openable appendName readable root t.entries) (recursive : Bool) (filter : Int)
    (files : List Bytes) :
    Lists readable t root recursive filter files (files ++ t.listed root recursive filter) := by
  intro calls
  obtain ⟨calls', h⟩ := findFiles_ok recursive filter hroot ho ⟨files, calls⟩
  rw [listing_eq] at h
  exact ⟨calls', h⟩

/-- **Complete enumeration.** For every tree whose directories can be opened, every
root, filter and content of the vector: the call returns with the pre-order
listing behind what was there, at every depth or at depth one; the listing has
every descendant of the wanted kind and nothing else, and nothing twice; and the
files and the directories are complementary parts of the whole. -/
theorem enumerated (readable : Bytes → Bool) (hroot : readable root = true)
    (ho : Openable appendName readable root t.entries) (recursive : Bool) (filter : Int)
    (files : List Bytes) :
    Lists readable t root recursive filter files (files ++ t.listed root recursive filter) ∧
      (t.listed root recursive filter).Nodup ∧
      (∀ f, f ∈ t.listed root recursive filter ↔
        ∃ x, t.entries.HasDescendant x ∧ x.wanted recursive filter = true ∧
          f = spell root x.elems) ∧
      (t.listed root recursive 1).Sublist (t.listed root recursive 0) ∧
      (t.listed root recursive 2).Sublist (t.listed root recursive 0) ∧
      (t.listed root recursive 1 ++ t.listed root recursive 2).Perm (t.listed root recursive 0) :=
  ⟨lists_listed t root hroot ho recursive filter files, nodup_listed t root recursive filter,
    fun _ => mem_listed t root, listed_split t root recursive⟩

/-- `.`, a directory `d` with a file in it and a link, and `..`. -/
def sampleTree : Tree where
  entries := .leaf (ascii ".") 0 none (.dir (ascii "d") 1 (.leaf (ascii "f") 2 none .nil)
    (.leaf (ascii "l") 3 (some ⟨false, [ascii "d"]⟩) (.dir (ascii "..") 4 .nil .nil)))
  wf := by simp [Dir.WF, Dir.get, isDot, ascii]
  named := by simp [Named, IsName, NulFree, ascii]

/-- All of it, and the files at every depth. -/
example : sampleTree.listed (ascii "r/") true 0 = [ascii "r/d", ascii "r/d/f", ascii "r/l"] ∧
    sampleTree.listed (ascii "r/") true 1 = [ascii "r/d/f", ascii "r/l"] := by decide

theorem enumerated_sample :
    Lists (fun _ => true) sampleTree (ascii "r/") false 2 [ascii "x"]
      ([ascii "x"] ++ sampleTree.listed (ascii "r/") false 2) :=
  (enumerated sampleTree (ascii "r/") (fun _ => true) rfl (openable_true _ _) false 2
    [ascii "x"]).1

end CommonCpp.Files
