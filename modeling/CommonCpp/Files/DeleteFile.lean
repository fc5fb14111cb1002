import CommonCpp.Files.Namei
import CommonCpp.Files.Relativise
import CommonCpp.Fs.Removal
import CommonCpp.Lib.Buffer

/-!
# `common::delete_file`

It takes away one file, link or empty directory. What `find_files` lists has every
directory in front of what is in it, so a caller who wants a directory emptied has to
go through the list from its end: then everything goes that the kernel lets go
(`listing_deleted`), whatever is refused on the way.
-/

namespace CommonCpp.Files

open CommonCpp.Fs CommonCpp.Lib CommonCpp.Monitor

/-- `file_exist` -/
def fileExist (cwd : Path) (d : Disk) (filename : CString) : Bool :=
  match (namei cwd filename.bytes).map fun p : PathName => p.sight d with
  | some (.found _) => true
  | some .missing | some .refused | none => false

/-- `delete_file`. -/
def deleteFile (refuses : Path → Bool) (cwd : Path) (d : Disk) (path : Bytes) : Bool × Disk :=
  match namei cwd (cStr path) with
  | none => (false, d)
  | some p => d.delete refuses p.slash p.path

/-- Several calls, one after the other. -/
def deleteFiles (refuses : Path → Bool) (cwd : Path) : List Bytes → Disk → List Bool × Disk
  | [], d => ([], d)
  | f :: files, d =>
    let (ok, d) := deleteFile refuses cwd d f
    let (oks, d) := deleteFiles refuses cwd files d
    (ok :: oks, d)

/-! ## The strings of a listing -/

theorem isAbsolute_append {root : Bytes} (h : root ≠ []) (s : Bytes) :
    isAbsolute (root ++ s) = isAbsolute root := by
  cases root with
  | nil => exact absurd rfl h
  | cons c root => rfl

theorem nulFree_gap (base : Bytes) : NulFree (gap base) := by
  unfold gap
  split <;> decide

theorem nulFree_spell {root : Bytes} (hne : root ≠ []) (hroot : NulFree root) {z : Path}
    (hz : ∀ n ∈ z, IsName n ∧ NulFree n) : NulFree (spell root z) := by
  cases z with
  | nil => exact hroot
  | cons n z =>
    rw [spell_cons hne fun k hk => (hz k hk).1]
    exact nulFree_append.mpr ⟨hroot, nulFree_append.mpr ⟨nulFree_gap root, nulFree_append.mpr
      ⟨(hz n (List.mem_cons_self ..)).2,
        nulFree_tailOf fun k hk => (hz k (List.mem_cons_of_mem _ hk)).2⟩⟩⟩

/-- What is listed ends in a name. -/
theorem endsInSlash_spell {root : Bytes} {z : Path} (hne : z ≠ []) (hz : ∀ n ∈ z, IsName n) :
    endsInSlash (spell root z) = false := by
  obtain ⟨y, n, rfl⟩ := List.eq_nil_or_concat z |>.resolve_left hne
  rw [List.concat_eq_append] at hz ⊢
  have hn := hz n (by simp)
  have hlast : (spell root (y ++ [n])).getLast? = n.getLast? := by
    have hstep : spell root (y ++ [n]) = appendName (spell root y) n := by
      rw [spell, List.foldl_append]
      rfl
    rw [hstep, appendName]
    split
    · rfl
    · split
      · exact List.getLast?_append_of_ne_nil _ hn.1
      · have hcons : spell root y ++ 0x2F :: n = spell root y ++ [0x2F] ++ n := by simp
        rw [hcons, List.getLast?_append_of_ne_nil _ hn.1]
  unfold endsInSlash
  rw [hlast]
  refine beq_eq_false_iff_ne.mpr fun hslash => hn.2 ?_
  exact List.mem_of_getLast? hslash

/-- What is below a root is looked up below it. -/
theorem namei_spell {cwd z : Path} {root : Bytes} {p : PathName} (hroot : namei cwd root = some p)
    (hnil : z ≠ []) (hz : ∀ n ∈ z, IsName n) :
    namei cwd (spell root z) = some ⟨p.path ++ z, false⟩ := by
  obtain ⟨hne, hp⟩ := Option.ite_none_left_eq_some.mp hroot
  cases hp
  obtain ⟨n, z', rfl⟩ := List.exists_cons_of_ne_nil hnil
  have habs : isAbsolute (spell root (n :: z')) = isAbsolute root := by
    rw [spell_cons hne hz, isAbsolute_append hne]
  have hne' : spell root (n :: z') ≠ [] := by
    rw [spell_cons hne hz]
    exact fun he => hne (List.append_eq_nil_iff.mp he).1
  unfold namei
  rw [if_neg hne', endsInSlash_spell hnil hz]
  unfold spelling Spelling.under
  rw [habs, parse_spell hz]
  dsimp only
  split
  · rfl
  · rw [List.append_assoc]

/-! ## The calls -/

theorem deleteFiles_spell {refuses : Path → Bool} {cwd : Path} {root : Bytes} {p : PathName}
    (hroot : namei cwd root = some p) (hfree : NulFree root) {zs : List Path}
    (hzs : ∀ z ∈ zs, z ≠ [] ∧ ∀ n ∈ z, IsName n ∧ NulFree n) (d : Disk) :
    deleteFiles refuses cwd (zs.map (spell root)) d
      = d.removeEach refuses (zs.map fun z => p.path ++ z) := by
  have hne := (Option.ite_none_left_eq_some.mp hroot).1
  induction zs generalizing d with
  | nil => rfl
  | cons z zs ih =>
    obtain ⟨hz, hnames⟩ := hzs z (List.mem_cons_self ..)
    have hone : deleteFile refuses cwd d (spell root z)
        = d.delete refuses false (p.path ++ z) := by
      unfold deleteFile
      rw [cStr_of_nulFree (nulFree_spell hne hfree hnames),
        namei_spell hroot hz fun n hn => (hnames n hn).1]
    rw [List.map_cons, List.map_cons, deleteFiles, Disk.removeEach, hone]
    dsimp only
    rw [ih fun y hy => hzs y (List.mem_cons_of_mem _ hy)]

/-- A listing that came back is all of the tree. -/
theorem listed_of_findFiles {readable : Bytes → Bool} {root : Bytes} {t : Tree} {scan : Scan Bytes}
    (h : findFiles appendName readable true 0 root t.entries ⟨[], []⟩ = .ok scan) :
    scan.files = t.entries.descendants.map fun x => spell root x.elems := by
  have hall : t.entries.descendants.filter (Descendant.wanted true 0) = t.entries.descendants := by
    refine List.filter_eq_self.mpr fun x _ => ?_
    simp [Descendant.wanted]
  have hread : readable root = true := by
    by_contra hnot
    rw [findFiles, if_neg hnot] at h
    cases h
  have hopen : Openable appendName readable root t.entries := by
    rw [findFiles, if_pos hread] at h
    split at h
    · next s hs => exact openable_of_readLoop 0 t.entries root _ s hs
    · cases h
  obtain ⟨calls, hcalls⟩ := findFiles_ok true 0 hread hopen ⟨[], []⟩
  cases h.symm.trans hcalls
  rw [List.nil_append, listing_eq, hall]
  rfl

/-- What resolves to nothing is not there. -/
theorem fileExist_of_resolve {cwd : Path} {p : PathName} {d : Disk} (h : d.Open) {f : Bytes}
    (hp : namei cwd (cStr f) = some p) (hnone : d.tree.resolve p.path = none) :
    fileExist cwd d (.ofBytes f) = false := by
  have hfound := sight_of_open h p.path
  unfold fileExist
  rw [CString.ofBytes, hp, Option.map_some]
  cases hsight : p.sight d with
  | found q => cases hnone.symm.trans ((hfound q).mp (PathName.sight_found.mp hsight).1)
  | missing | refused => rfl

/-- **Emptying a directory.** Where every path can be walked, and for a directory that its
path names without dots or links on the way: of what `find_files` listed below it, deleted
from the end of the list, an entry is gone afterwards exactly if neither it nor anything
below it is refused, everything else is as it was, and each call tells which it was. -/
theorem listing_deleted {d : Disk} (hopen : d.Open) (hwf : d.tree.WF) {t : Tree} {cwd : Path}
    {root : Bytes} {p : PathName} {ino : Ino} (hfree : NulFree root)
    (hroot : namei cwd root = some p)
    (hdir : d.tree.find p.path = some (.dir ino t.entries)) {readable : Bytes → Bool}
    {scan : Scan Bytes}
    (hfind : findFiles appendName readable true 0 root t.entries ⟨[], []⟩ = .ok scan)
    (refuses : Path → Bool) :
    Cleared refuses p.path d (deleteFiles refuses cwd scan.files.reverse d).2 ∧
      List.Forall₂ (fun f ok =>
          (∃ q, namei cwd (cStr f) = some q ∧ (ok = true ↔
            (deleteFiles refuses cwd scan.files.reverse d).2.tree.stat q.path = none)) ∧
          (ok = true → fileExist cwd (deleteFiles refuses cwd scan.files.reverse d).2
            (.ofBytes f) = false))
        scan.files.reverse (deleteFiles refuses cwd scan.files.reverse d).1 := by
  have hne := (Option.ite_none_left_eq_some.mp hroot).1
  have hnames : ∀ z ∈ (t.entries.descendants.map Descendant.elems).reverse,
      z ≠ [] ∧ ∀ n ∈ z, IsName n ∧ NulFree n := by
    intro z hz
    obtain ⟨x, hx, rfl⟩ := List.mem_map.mp (List.mem_reverse.mp hz)
    exact ⟨elems_ne_nil hx, named_of_mem t.named hx⟩
  have hfiles : scan.files.reverse
      = (t.entries.descendants.map Descendant.elems).reverse.map (spell root) := by
    rw [listed_of_findFiles hfind, List.map_reverse, List.map_map]
    rfl
  have hcall : deleteFiles refuses cwd scan.files.reverse d
      = d.removeEach refuses (below p.path t.entries) := by
    rw [hfiles]
    exact deleteFiles_spell hroot hfree hnames d
  obtain ⟨hpermits, hcleared, htold⟩ := @below_cleared refuses d hopen hwf p.path ino _ hdir
  rw [hcall]
  refine ⟨hcleared, ?_⟩
  -- each spelling of the list leads below the root, to the entry it was listed for
  rw [hfiles, List.forall₂_map_left_iff]
  have htold := List.forall₂_map_left_iff.mp htold
  have hlisted := (List.forall₂_and_left
    (p := (· ∈ (t.entries.descendants.map Descendant.elems).reverse)) _ _).mpr
      ⟨fun _ hz => hz, htold⟩
  refine hlisted.imp fun z ok ⟨hmem, hok⟩ => ?_
  have hnamei : namei cwd (cStr (spell root z)) = some ⟨p.path ++ z, false⟩ := by
    obtain ⟨hnil, hz⟩ := hnames z hmem
    rw [cStr_of_nulFree (nulFree_spell hne hfree hz),
      namei_spell hroot hnil fun n hn => (hz n hn).1]
  refine ⟨⟨⟨p.path ++ z, false⟩, hnamei, hok⟩, fun htrue => fileExist_of_resolve hpermits hnamei ?_⟩
  have hthere := ((mem_elems_iff hwf hdir).mp (List.mem_reverse.mp hmem)).2
  exact resolve_gone hcleared.same_or_gone hthere (hok.mp htrue)

/-- A directory with a file in it, and a link to it. -/
def fileAndLink : Tree where
  entries := .dir (ascii "s") 3 (.leaf (ascii "f") 4 none .nil)
    (.leaf (ascii "l") 5 (some ⟨false, [ascii "s"]⟩) .nil)
  wf := by simp [Dir.WF, Dir.get, ascii]
  named := by simp [Named, IsName, NulFree, ascii]

/-- `/d`, with those in it. -/
def smallDisk : Disk where
  tree := .dir 1 (.dir (ascii "d") 2 fileAndLink.entries .nil)
  readable := fun _ => true
  searchable := fun _ => true
  tooLong := fun _ => false

/-- The file is refused, and keeps its directory. -/
theorem listing_deleted_refused :
    Cleared (· == [ascii "d", ascii "s", ascii "f"]) [ascii "d"] smallDisk
        (deleteFiles (· == [ascii "d", ascii "s", ascii "f"]) []
          [ascii "d/l", ascii "d/s/f", ascii "d/s"] smallDisk).2 ∧
      (deleteFiles (· == [ascii "d", ascii "s", ascii "f"]) []
        [ascii "d/l", ascii "d/s/f", ascii "d/s"] smallDisk).1 = [true, false, false] := by
  have hopen : smallDisk.Open := ⟨⟨1, _, rfl⟩, fun _ => rfl, fun _ => rfl, fun _ => rfl⟩
  have hwf : smallDisk.tree.WF := by
    simp [smallDisk, fileAndLink, Entry.WF, Dir.WF, Dir.get, ascii]
  have hfind : findFiles appendName (fun _ => true) true 0 (ascii "d") fileAndLink.entries ⟨[], []⟩
      = .ok ⟨[ascii "d/s", ascii "d/s/f", ascii "d/l"],
          [.opendir (ascii "d"), .opendir (ascii "d/s"), .closedir (ascii "d/s"),
            .closedir (ascii "d")]⟩ := by rfl
  have hnamei : namei [] (ascii "d") = some ⟨[ascii "d"], false⟩ := by decide +kernel
  have hall := listing_deleted hopen hwf (by decide) hnamei (by rfl) hfind
    (· == [ascii "d", ascii "s", ascii "f"])
  exact ⟨hall.1, by decide +kernel⟩

end CommonCpp.Files
