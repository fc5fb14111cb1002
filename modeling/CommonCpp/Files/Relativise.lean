import CommonCpp.Files.Enumeration
import CommonCpp.Files.RelativePath

/-!
# Listing a directory and relativising what was listed

`find_files` puts a separator between the root and a name unless the root ends
in one, and `get_relative_path` takes one off again; but `append` only knows
`/`, and `get_relative_path` takes a backslash for a separator as well. So the
two are inverse to each other but for a name that begins with a backslash behind
a root that ends in `/` (`relativised_iff`).
-/

namespace CommonCpp.Files

open CommonCpp.Fs CommonCpp.Lib CommonCpp.Monitor

/-- `path(root).append(get_relative_path(root, f))` is `f` again. -/
def RoundTrips (root f : Bytes) : Prop :=
  ∃ relative, getRelativePath root f = .ok relative ∧ appendName root relative = f

/-- What `append` puts between a path and a relative name. -/
def gap (base : Bytes) : Bytes := if base.getLast? = some 0x2F then [] else [0x2F]

/-- The names behind the first, each with its separator. -/
def tailOf (z : Path) : Bytes := z.flatMap fun n => 0x2F :: n

/-! ## The strings that are listed -/

theorem isAbsolute_of_name {n : Name} (h : IsName n) (rest : Bytes) :
    isAbsolute (n ++ rest) = false := by
  cases n with
  | nil => exact absurd rfl h.1
  | cons c n =>
    have hc : c ≠ 0x2F := fun he => h.2 (he ▸ List.mem_cons_self ..)
    simpa [isAbsolute] using hc

theorem appendName_of_relative {base name : Bytes} (hbase : base ≠ [])
    (hname : isAbsolute name = false) : appendName base name = base ++ (gap base ++ name) := by
  have hempty : base.isEmpty = false := by simpa using hbase
  unfold appendName gap
  rw [hname, hempty, Bool.or_false, if_neg Bool.false_ne_true]
  split <;> rfl

/-- A path that ends in a name needs a separator. -/
theorem gap_of_name {n : Name} (h : IsName n) (base : Bytes) : gap (base ++ n) = [0x2F] := by
  refine if_neg fun hlast => h.2 ?_
  rw [List.getLast?_append_of_ne_nil _ h.1] at hlast
  exact List.mem_of_getLast? hlast

theorem spell_behind {z : Path} (hz : ∀ n ∈ z, IsName n) {base : Bytes} {m : Name} (hm : IsName m) :
    spell (base ++ m) z = base ++ m ++ tailOf z := by
  induction z generalizing base m with
  | nil => exact (List.append_nil _).symm
  | cons n z ih =>
    have hn := hz n (List.mem_cons_self ..)
    have hrest : ∀ k ∈ z, IsName k := fun k hk => hz k (List.mem_cons_of_mem _ hk)
    have hbase : base ++ m ≠ [] := fun he => hm.1 (List.append_eq_nil_iff.mp he).2
    have habs : isAbsolute n = false := by simpa using isAbsolute_of_name hn []
    have hstep : appendName (base ++ m) n = base ++ m ++ [0x2F] ++ n := by
      rw [appendName_of_relative hbase habs, gap_of_name hm, List.append_assoc _ [0x2F]]
    show spell (appendName (base ++ m) n) z = _
    rw [hstep, ih hrest hn]
    simp [tailOf]

theorem spell_cons {root : Bytes} (hroot : root ≠ []) {n : Name} {z : Path}
    (hz : ∀ k ∈ n :: z, IsName k) : spell root (n :: z) = root ++ (gap root ++ (n ++ tailOf z)) := by
  have hn := hz n (List.mem_cons_self ..)
  have hrest : ∀ k ∈ z, IsName k := fun k hk => hz k (List.mem_cons_of_mem _ hk)
  have habs : isAbsolute n = false := by simpa using isAbsolute_of_name hn []
  show spell (appendName root n) z = _
  rw [appendName_of_relative hroot habs, ← List.append_assoc, spell_behind hrest hn]
  simp

theorem nulFree_tailOf {z : Path} (hz : ∀ n ∈ z, NulFree n) : NulFree (tailOf z) := by
  intro b hb
  obtain ⟨n, hn, hb⟩ := List.mem_flatMap.mp hb
  rcases List.mem_cons.mp hb with rfl | hb
  · decide
  · exact hz n hn b hb

/-! ## One listed path -/

/-- What is left of a name that begins with a backslash is shorter than it was. -/
theorem not_roundTrips_backslash {root rest : Bytes} (hslash : root.getLast? = some 0x2F)
    (hfree : NulFree (root ++ 0x5C :: rest)) : ¬ RoundTrips root (root ++ 0x5C :: rest) := by
  rintro ⟨relative, hrel, happend⟩
  rw [getRelativePath_append hfree] at hrel
  cases hrel
  have hskip : skipSeparator (0x5C :: rest) = rest := rfl
  have hlong : (root ++ 0x5C :: rest).length = root.length + (rest.length + 1) := by simp
  have hlen := congrArg List.length happend
  rw [hskip, hlong, appendName] at hlen
  by_cases habs : (isAbsolute rest || root.isEmpty) = true
  · rw [if_pos habs] at hlen
    omega
  · rw [if_neg habs, if_pos hslash, List.length_append] at hlen
    omega

/-- A listed path comes back unless its first name begins with a backslash right
behind the root's own separator. -/
theorem roundTrips_iff {root : CString} (hroot : root.bytes ≠ []) {n : Name} {z : Path}
    (hz : ∀ k ∈ n :: z, IsName k ∧ NulFree k) :
    RoundTrips root.bytes (spell root.bytes (n :: z)) ↔
      (root.bytes.getLast? = some 0x2F → n.head? ≠ some 0x5C) := by
  obtain ⟨hn, hnfree⟩ := hz n (List.mem_cons_self ..)
  have hnames : ∀ k ∈ n :: z, IsName k := fun k hk => (hz k hk).1
  have htail : NulFree (n ++ tailOf z) := by
    intro b hb
    rcases List.mem_append.mp hb with hb | hb
    · exact hnfree b hb
    · exact nulFree_tailOf (fun k hk => (hz k (List.mem_cons_of_mem _ hk)).2) b hb
  have hfree : NulFree (root.bytes ++ (gap root.bytes ++ (n ++ tailOf z))) := by
    intro b hb
    rcases List.mem_append.mp hb with hb | hb
    · exact root.nulFree b hb
    · rcases List.mem_append.mp hb with hb | hb
      · unfold gap at hb
        split at hb
        · cases hb
        · rw [List.mem_singleton.mp hb]
          decide
      · exact htail b hb
  rw [spell_cons hroot hnames]
  -- what `append` adds again, once the separator is off
  have hback : appendName root.bytes (n ++ tailOf z)
      = root.bytes ++ (gap root.bytes ++ (n ++ tailOf z)) :=
    appendName_of_relative hroot (isAbsolute_of_name hn _)
  by_cases hslash : root.bytes.getLast? = some 0x2F
  · have hgap : gap root.bytes = [] := if_pos hslash
    rw [hgap, List.nil_append] at hfree hback ⊢
    cases n with
    | nil => exact absurd rfl hn.1
    | cons c n =>
      by_cases hc : c = 0x5C
      · subst hc
        have hnot := not_roundTrips_backslash hslash hfree
        exact ⟨fun h => absurd h hnot, fun h => absurd rfl (h hslash)⟩
      · have hsep : isSeparator c = false := by
          have hc' : c ≠ 0x2F := fun he => hn.2 (he ▸ List.mem_cons_self ..)
          simp [isSeparator, hc, hc']
        refine ⟨fun _ _ hhead => hc (Option.some.inj hhead), fun _ => ⟨_, ?_, hback⟩⟩
        rw [getRelativePath_append hfree, List.cons_append, skipSeparator, hsep]
        rfl
  · have hgap : gap root.bytes = [0x2F] := if_neg hslash
    rw [hgap] at hfree hback ⊢
    refine ⟨fun _ hs => absurd hs hslash, fun _ => ⟨_, ?_, hback⟩⟩
    rw [getRelativePath_append hfree]
    rfl

/-- **When listing and relativising agree.** For every tree, every non-empty root and
every flags: each path that the call appends is given back by `append` and
`get_relative_path` if and only if the root does not end in `/`, or no listed
entry is called, or lies below one of the root's that is called, something that
begins with a backslash. -/
theorem relativised_iff (t : Tree) (root : CString) (hroot : root.bytes ≠ [])
    (readable : Bytes → Bool) (hopen : readable root.bytes = true)
    (ho : Openable appendName readable root.bytes t.entries) (recursive : Bool) (filter : Int)
    (files : List Bytes) :
    ∃ appended, Lists readable t root.bytes recursive filter files (files ++ appended) ∧
      ((∀ f ∈ appended, RoundTrips root.bytes f) ↔
        (root.bytes.getLast? = some 0x2F → ∀ x, t.entries.HasDescendant x →
          x.wanted recursive filter = true → ∀ n z, x.elems = n :: z → n.head? ≠ some 0x5C)) := by
  refine ⟨t.listed root.bytes recursive filter, lists_listed t root.bytes hopen ho recursive filter
    files, ?_⟩
  have hone : ∀ x, t.entries.HasDescendant x → ∀ n z, x.elems = n :: z →
      (RoundTrips root.bytes (spell root.bytes x.elems) ↔
        (root.bytes.getLast? = some 0x2F → n.head? ≠ some 0x5C)) := by
    intro x hx n z hnz
    have hnames := named_of_mem t.named ((mem_descendants t.wf x).mpr hx)
    rw [hnz] at hnames ⊢
    exact roundTrips_iff hroot hnames
  constructor
  · intro h hslash x hx hwant n z hnz
    exact (hone x hx n z hnz).mp (h _ ((mem_listed t _).mpr ⟨x, hx, hwant, rfl⟩)) hslash
  · intro h f hf
    obtain ⟨x, hx, hwant, rfl⟩ := (mem_listed t _).mp hf
    cases hnz : x.elems with
    | nil => exact absurd hnz hx.1
    | cons n z =>
      rw [← hnz]
      exact (hone x hx n z hnz).mpr fun hslash => h hslash x hx hwant n z hnz

/-- A directory with a file called `\x`. -/
def backslashTree : Tree where
  entries := .leaf (ascii "\\x") 1 none .nil
  wf := by simp [Dir.WF, Dir.get]
  named := by simp [Named, IsName, NulFree, ascii]

/-- Listed under `r/`, the file comes back as `r/x`. -/
theorem backslash_not_relativised :
    ¬ ∀ (t : Tree) (root : CString) (recursive : Bool) (filter : Int) (appended : List Bytes),
      root.bytes ≠ [] → Lists (fun _ => true) t root.bytes recursive filter [] appended →
        ∀ f ∈ appended, RoundTrips root.bytes f := by
  intro h
  have hmem : ascii "r/\\x" ∈ backslashTree.listed (ascii "r/") false 0 := by decide
  have hround := h backslashTree ⟨ascii "r/", by decide⟩ false 0 _ (by decide)
    (lists_listed backslashTree (ascii "r/") rfl (openable_true _ _) false 0 []) _ hmem
  exact @not_roundTrips_backslash (ascii "r/") (ascii "x") rfl (by decide) hround

theorem relativised_iff_sample :
    ∃ appended, Lists (fun _ => true) backslashTree (ascii "r") true 0 [] ([] ++ appended) ∧
      ((∀ f ∈ appended, RoundTrips (ascii "r") f) ↔
        ((ascii "r").getLast? = some 0x2F → ∀ x, backslashTree.entries.HasDescendant x →
          x.wanted true 0 = true → ∀ n z, x.elems = n :: z → n.head? ≠ some 0x5C)) :=
  relativised_iff backslashTree ⟨ascii "r", by decide⟩ (by decide) (fun _ => true) rfl
    (openable_true _ _) true 0 []

end CommonCpp.Files
