import CommonCpp.Fs.Access

/-!
# `find_files` while the tree grows

A call of `find_files` takes a while, and others make entries meanwhile. Here it
goes step by step: one `opendir`, or one entry that `readdir` gives. An entry
made after `opendir` may be given or not, that is left to the file system; what
was in the directory when it was opened is given in any case.

`crawl_alone` connects it with the function at one go. With others at work,
`step_has` is what counts: an entry that is there is on the list or still to
come from the moment on at which the call begins. `step_left` bounds the steps.
-/

namespace CommonCpp.Fs

open CommonCpp.Lib

/-- A call `find_files(path, files, true, filter)` in progress: the caller's vector, and
what is still to be done, innermost first. -/
structure Crawl where
  files : List Path
  stack : List Item

/-- `paths{p}; find_files(p, paths, true, filter)` -/
def Crawl.start (p : Path) : Crawl := ⟨[p], [.directory p]⟩

/-- What can happen to it next. -/
inductive Pull where
  /-- The call goes on. -/
  | next
  /-- `readdir` is going to give an entry of that name that was made since `opendir`. -/
  | late (n : Name)
deriving DecidableEq

/-- Only files for 1, only directories for 2. -/
def wants (filter : Int) : Node → Bool
  | .leaf .. => filter != 2
  | .dir _ => filter != 1

/-- `files.push_back(full_path)`, if the filter is for it. -/
def Crawl.push (filter : Int) (c : Crawl) (node : Node) (q : Path) : List Path :=
  if wants filter node then c.files ++ [q] else c.files

/-- `opendir`, or one round of the `readdir` loop; `none` is its exception, and when there
is nothing to do. -/
def Crawl.next (filter : Int) (fs : Entry) (c : Crawl) : Option Crawl :=
  match c.stack with
  | [] => none
  | .directory p :: stack => (fs.openDir p).map fun (_, sub) => ⟨c.files, .entries p sub :: stack⟩
  | .entries _ .nil :: stack => some ⟨c.files, stack⟩
  | .entries p (.leaf n ino link rest) :: stack =>
    if isDot n then some ⟨c.files, .entries p rest :: stack⟩
    else some ⟨c.push filter (.leaf ino link) (p ++ [n]), .entries p rest :: stack⟩
  | .entries p (.dir n ino _ rest) :: stack =>
    if isDot n then some ⟨c.files, .entries p rest :: stack⟩
    else
      -- find_files(full_path, files, recursive, filter)
      some ⟨c.push filter (.dir ino) (p ++ [n]),
        .directory (p ++ [n]) :: .entries p rest :: stack⟩

/-- The directory being read gets to show an entry it has by now. -/
def Crawl.late (fs : Entry) (c : Crawl) (n : Name) : Option Crawl :=
  match c.stack with
  | .entries p d :: stack =>
    if d.get n = none then
      (fs.find (p ++ [n])).map fun e => ⟨c.files, .entries p (d.cons n e) :: stack⟩
    else none
  | _ => none

def Crawl.step (filter : Int) (fs : Entry) (c : Crawl) : Pull → Option Crawl
  | .next => c.next filter fs
  | .late n => c.late fs n

/-! ## What a step does -/

/-- What can happen to a call in progress. -/
inductive Crawls (filter : Int) (fs : Entry) (c : Crawl) : Pull → Crawl → Prop where
  | enter {p : Path} {ino : Ino} {sub : Dir} {stack : List Item}
      (hs : c.stack = .directory p :: stack) (ho : fs.openDir p = some (ino, sub)) :
      Crawls filter fs c .next ⟨c.files, .entries p sub :: stack⟩
  | close {p : Path} {stack : List Item} (hs : c.stack = .entries p .nil :: stack) :
      Crawls filter fs c .next ⟨c.files, stack⟩
  | skip {p : Path} {n : Name} {e : Entry} {rest : Dir} {stack : List Item}
      (hs : c.stack = .entries p (rest.cons n e) :: stack) (hn : isDot n = true) :
      Crawls filter fs c .next ⟨c.files, .entries p rest :: stack⟩
  | leaf {p : Path} {n : Name} {ino : Ino} {link : Option Spelling} {rest : Dir}
      {stack : List Item} (hs : c.stack = .entries p (rest.cons n (.leaf ino link)) :: stack)
      (hn : isDot n = false) :
      Crawls filter fs c .next
        ⟨c.push filter (.leaf ino link) (p ++ [n]), .entries p rest :: stack⟩
  | dir {p : Path} {n : Name} {ino : Ino} {s rest : Dir} {stack : List Item}
      (hs : c.stack = .entries p (rest.cons n (.dir ino s)) :: stack) (hn : isDot n = false) :
      Crawls filter fs c .next
        ⟨c.push filter (.dir ino) (p ++ [n]), .directory (p ++ [n]) :: .entries p rest :: stack⟩
  | late {p : Path} {n : Name} {e : Entry} {d : Dir} {stack : List Item}
      (hs : c.stack = .entries p d :: stack) (hd : d.get n = none)
      (he : fs.find (p ++ [n]) = some e) :
      Crawls filter fs c (.late n) ⟨c.files, .entries p (d.cons n e) :: stack⟩

theorem crawls_of_step {filter : Int} {fs : Entry} {c c' : Crawl} {l : Pull}
    (h : c.step filter fs l = some c') : Crawls filter fs c l c' := by
  obtain ⟨files, stack⟩ := c
  cases l with
  | next =>
    rw [Crawl.step, Crawl.next] at h
    cases stack with
    | nil => cases h
    | cons item stack =>
      cases item with
      | directory p =>
        obtain ⟨⟨ino, sub⟩, ho, rfl⟩ := Option.map_eq_some_iff.mp h
        exact .enter rfl ho
      | entries p d =>
        cases d with
        | nil =>
          cases h
          exact .close rfl
        | leaf n ino link rest =>
          dsimp only at h
          split at h
          · next hn =>
            cases h
            exact .skip (e := .leaf ino link) rfl hn
          · next hn =>
            cases h
            exact .leaf rfl (Bool.eq_false_iff.mpr hn)
        | dir n ino sub rest =>
          dsimp only at h
          split at h
          · next hn =>
            cases h
            exact .skip (e := .dir ino sub) rfl hn
          · next hn =>
            cases h
            exact .dir (s := sub) rfl (Bool.eq_false_iff.mpr hn)
  | late n =>
    rw [Crawl.step, Crawl.late] at h
    cases stack with
    | nil => cases h
    | cons item stack =>
      cases item with
      | directory p => cases h
      | entries p d =>
        dsimp only at h
        split at h
        · next hd =>
          obtain ⟨e, he, rfl⟩ := Option.map_eq_some_iff.mp h
          exact .late rfl hd he
        · cases h

/-! ## What is on the list or still to come -/

/-- What is to be done fits the tree: the directories are there, and so is every entry
that `readdir` is going to give. -/
def Item.Fits (root : Path) (fs : Entry) : Item → Prop
  | .directory p => root <+: p ∧ ∃ i, fs.stat p = some (.dir i)
  | .entries p d => (root <+: p ∧ ∃ i, fs.stat p = some (.dir i)) ∧ d.WF ∧
      ∀ n e, isDot n = false → d.get n = some e → fs.stat (p ++ [n]) = some e.node

/-- A call in progress has listed, and will go through, what is there at or below `root`. -/
structure Crawl.Fits (root : Path) (fs : Entry) (c : Crawl) : Prop where
  files : ∀ q ∈ c.files, root <+: q ∧ (fs.stat q).isSome
  stack : ∀ x ∈ c.stack, x.Fits root fs

/-- The item leads to the path. -/
def Item.Reaches (q : Path) : Item → Prop
  | .directory p => ∃ n r, q = p ++ n :: r
  | .entries p d => ∃ n r, q = p ++ n :: r ∧ isDot n = false ∧ (d.get n).isSome

/-- The path is on the list, or the call will come to it. -/
def Crawl.Has (c : Crawl) (q : Path) : Prop := q ∈ c.files ∨ ∃ x ∈ c.stack, x.Reaches q

variable {root : Path} {filter : Int} {fs fs' : Entry} {c c' : Crawl} {l : Pull}

theorem mem_push {node : Node} {p q : Path} :
    q ∈ c.push filter node p ↔ q ∈ c.files ∨ wants filter node = true ∧ q = p := by
  unfold Crawl.push
  cases wants filter node <;> simp

/-- Where nothing goes away, nothing has to be taken back. -/
theorem Crawl.Fits.mono (h : c.Fits root fs)
    (hstat : ∀ {p node}, fs.stat p = some node → fs'.stat p = some node) : c.Fits root fs' := by
  have hdir : ∀ {p : Path}, (root <+: p ∧ ∃ i, fs.stat p = some (.dir i)) →
      root <+: p ∧ ∃ i, fs'.stat p = some (.dir i) := by
    intro p hp
    obtain ⟨hroot, ino, hino⟩ := hp
    exact ⟨hroot, ino, hstat hino⟩
  constructor
  · intro q hq
    obtain ⟨hroot, hsome⟩ := h.files q hq
    obtain ⟨node, hnode⟩ := Option.isSome_iff_exists.mp hsome
    exact ⟨hroot, Option.isSome_of_eq_some (hstat hnode)⟩
  · intro x hx
    have hfits := h.stack x hx
    cases x with
    | directory p => exact hdir hfits
    | entries p d =>
      exact ⟨hdir hfits.1, hfits.2.1, fun n e hn he => hstat (hfits.2.2 n e hn he)⟩

/-- The first entry is there, and the others fit as they did. -/
theorem Item.Fits.uncons {p : Path} {n : Name} {e : Entry} {rest : Dir}
    (h : (Item.entries p (rest.cons n e)).Fits root fs) :
    (Item.entries p rest).Fits root fs ∧ (isDot n = false → fs.stat (p ++ [n]) = some e.node) := by
  obtain ⟨hp, hwf, hget⟩ := h
  obtain ⟨hn, -, hrest⟩ := wf_cons_iff.mp hwf
  refine ⟨⟨hp, hrest, fun m x hm hx => hget m x hm ?_⟩, fun hdot => hget n e hdot ?_⟩
  · have hnm : n ≠ m := by
      rintro rfl
      cases (hn hm).symm.trans hx
    rw [get_cons, if_neg hnm, hx]
  · rw [get_cons, if_pos rfl]

/-- What `opendir` opens is what is there, links aside. -/
theorem find_of_openDir {p : Path} {ino : Ino} {sub : Dir} (h : (Item.directory p).Fits root fs)
    (ho : fs.openDir p = some (ino, sub)) : fs.find p = some (.dir ino sub) := by
  obtain ⟨-, i, hi⟩ := h
  obtain ⟨sub', hfind⟩ := stat_dir_iff.mp hi
  cases Option.some.inj ((openDir_of_find hfind).symm.trans ho)
  exact hfind

theorem fits_opened (hwf : fs.WF) {p : Path} {ino : Ino} {sub : Dir}
    (h : (Item.directory p).Fits root fs) (ho : fs.openDir p = some (ino, sub)) :
    (Item.entries p sub).Fits root fs := by
  have hfind := find_of_openDir h ho
  refine ⟨h, wf_find hwf hfind, fun n e hn he => ?_⟩
  rw [stat_append hfind]
  exact stat_cons_eq_some.mpr ⟨hn, e, he, by rw [Entry.stat, find_nil]; rfl⟩

theorem step_fits (hwf : fs.WF) (h : c.Fits root fs) (hs : c.step filter fs l = some c') :
    c'.Fits root fs := by
  have hpush : ∀ {p n node}, root <+: p → fs.stat (p ++ [n]) = some node →
      ∀ q ∈ c.push filter node (p ++ [n]), root <+: q ∧ (fs.stat q).isSome := by
    intro p n node hp hnode q hq
    rcases mem_push.mp hq with hq | ⟨-, rfl⟩
    · exact h.files q hq
    · exact ⟨hp.trans (List.prefix_append _ _), Option.isSome_of_eq_some hnode⟩
  have hstack := h.stack
  cases crawls_of_step hs with
  | enter hst ho =>
    rw [hst] at hstack
    obtain ⟨hfirst, hothers⟩ := List.forall_mem_cons.mp hstack
    exact ⟨h.files, List.forall_mem_cons.mpr ⟨fits_opened hwf hfirst ho, hothers⟩⟩
  | close hst =>
    rw [hst] at hstack
    exact ⟨h.files, (List.forall_mem_cons.mp hstack).2⟩
  | skip hst hn =>
    rw [hst] at hstack
    obtain ⟨hfirst, hothers⟩ := List.forall_mem_cons.mp hstack
    exact ⟨h.files, List.forall_mem_cons.mpr ⟨hfirst.uncons.1, hothers⟩⟩
  | leaf hst hn =>
    rw [hst] at hstack
    obtain ⟨hfirst, hothers⟩ := List.forall_mem_cons.mp hstack
    exact ⟨hpush hfirst.1.1 (hfirst.uncons.2 hn),
      List.forall_mem_cons.mpr ⟨hfirst.uncons.1, hothers⟩⟩
  | @dir p n ino sub rest stack hst hn =>
    rw [hst] at hstack
    obtain ⟨hfirst, hothers⟩ := List.forall_mem_cons.mp hstack
    have hnode := hfirst.uncons.2 hn
    have hsub : (Item.directory (p ++ [n])).Fits root fs :=
      ⟨hfirst.1.1.trans (List.prefix_append _ _), ino, hnode⟩
    exact ⟨hpush hfirst.1.1 hnode,
      List.forall_mem_cons.mpr ⟨hsub, List.forall_mem_cons.mpr ⟨hfirst.uncons.1, hothers⟩⟩⟩
  | @late p n e d stack hst hd he =>
    rw [hst] at hstack
    -- an entry that was not there comes to be listed as it is now
    obtain ⟨⟨hp, hwd, hget⟩, hothers⟩ := List.forall_mem_cons.mp hstack
    refine ⟨h.files, List.forall_mem_cons.mpr ⟨⟨hp, ?_, fun m x hm hx => ?_⟩, hothers⟩⟩
    · exact wf_cons hd (wf_find hwf he) hwd
    · rw [get_cons] at hx
      split at hx
      · next hnm =>
        cases hx
        rw [← hnm, Entry.stat, he]
        rfl
      · exact hget m x hm hx

/-- What is reached through a directory's entries is the first of them, or below it, or
reached through the others. -/
theorem reaches_cons {p q : Path} {n : Name} {e : Entry} {rest : Dir}
    (h : (Item.entries p (rest.cons n e)).Reaches q) :
    (isDot n = false ∧ (q = p ++ [n] ∨ (Item.directory (p ++ [n])).Reaches q)) ∨
      (Item.entries p rest).Reaches q := by
  obtain ⟨m, r, rfl, hm, hsome⟩ := h
  rw [get_cons] at hsome
  split at hsome
  · next hnm =>
    subst hnm
    refine Or.inl ⟨hm, ?_⟩
    cases r with
    | nil => exact Or.inl rfl
    | cons k r => exact Or.inr ⟨k, r, by rw [List.append_assoc]; rfl⟩
  · exact Or.inr ⟨m, r, rfl, hm, hsome⟩

/-- **Nothing gets lost.** What is there and wanted, and is on the list or still to come,
stays so: whatever is made meanwhile, and whatever of it `readdir` gives. -/
theorem step_has {q : Path} {node : Node} (h : c.Fits root fs) (hs : c.step filter fs l = some c')
    (hq : fs.stat q = some node) (hw : wants filter node = true) (hhas : c.Has q) : c'.Has q := by
  have hstack := h.stack
  -- through a file there is no way further
  have hleaf : ∀ {p n ino link}, fs.stat (p ++ [n]) = some (.leaf ino link) →
      ¬ (Item.directory (p ++ [n])).Reaches q := by
    rintro p n ino link hnode ⟨m, r, rfl⟩
    obtain ⟨x, hx, hnode⟩ := Option.map_eq_some_iff.mp hnode
    cases x with
    | dir => cases hnode
    | leaf =>
      rw [stat_append hx] at hq
      cases hq
  rcases hhas with hfile | ⟨x, hx, hreach⟩
  · left
    cases crawls_of_step hs with
    | leaf | dir => exact mem_push.mpr (Or.inl hfile)
    | _ => exact hfile
  · cases crawls_of_step hs with
    | @enter p ino sub stack hst ho =>
      rw [hst] at hstack hx
      rcases List.mem_cons.mp hx with rfl | hx
      · obtain ⟨n, r, rfl⟩ := hreach
        rw [stat_append (find_of_openDir (List.forall_mem_cons.mp hstack).1 ho)] at hq
        obtain ⟨hn, e, he, -⟩ := stat_cons_eq_some.mp hq
        exact Or.inr ⟨_, List.mem_cons_self .., n, r, rfl, hn, Option.isSome_of_eq_some he⟩
      · exact Or.inr ⟨x, List.mem_cons_of_mem _ hx, hreach⟩
    | close hst =>
      rw [hst] at hx
      rcases List.mem_cons.mp hx with rfl | hx
      · obtain ⟨n, r, -, -, hsome⟩ := hreach
        cases hsome
      · exact Or.inr ⟨x, hx, hreach⟩
    | skip hst hn =>
      rw [hst] at hx
      rcases List.mem_cons.mp hx with rfl | hx
      · rcases reaches_cons hreach with ⟨hdot, -⟩ | hreach
        · cases hn.symm.trans hdot
        · exact Or.inr ⟨_, List.mem_cons_self .., hreach⟩
      · exact Or.inr ⟨x, List.mem_cons_of_mem _ hx, hreach⟩
    | leaf hst hn =>
      rw [hst] at hstack hx
      have hnode := (List.forall_mem_cons.mp hstack).1.uncons.2 hn
      rcases List.mem_cons.mp hx with rfl | hx
      · rcases reaches_cons hreach with ⟨-, rfl | hreach⟩ | hreach
        · cases Option.some.inj (hq.symm.trans hnode)
          exact Or.inl (mem_push.mpr (Or.inr ⟨hw, rfl⟩))
        · exact absurd hreach (hleaf hnode)
        · exact Or.inr ⟨_, List.mem_cons_self .., hreach⟩
      · exact Or.inr ⟨x, List.mem_cons_of_mem _ hx, hreach⟩
    | @dir p n ino sub rest stack hst hn =>
      rw [hst] at hstack hx
      have hnode := (List.forall_mem_cons.mp hstack).1.uncons.2 hn
      rcases List.mem_cons.mp hx with rfl | hx
      · rcases reaches_cons hreach with ⟨-, rfl | hreach⟩ | hreach
        · cases Option.some.inj (hq.symm.trans hnode)
          exact Or.inl (mem_push.mpr (Or.inr ⟨hw, rfl⟩))
        · exact Or.inr ⟨_, List.mem_cons_self .., hreach⟩
        · exact Or.inr ⟨_, List.mem_cons_of_mem _ (List.mem_cons_self ..), hreach⟩
      · exact Or.inr ⟨x, List.mem_cons_of_mem _ (List.mem_cons_of_mem _ hx), hreach⟩
    | @late p n e d stack hst hd he =>
      rw [hst] at hx
      rcases List.mem_cons.mp hx with rfl | hx
      · obtain ⟨m, r, rfl, hm, hsome⟩ := hreach
        refine Or.inr ⟨_, List.mem_cons_self .., m, r, rfl, hm, ?_⟩
        rw [get_cons]
        split
        · rfl
        · exact hsome
      · exact Or.inr ⟨x, List.mem_cons_of_mem _ hx, hreach⟩

/-- At its start a call is going to come to everything below. -/
theorem start_has {i : Ino} (h : fs.stat root = some (.dir i)) :
    (Crawl.start root).Fits root fs ∧
      ∀ q, root <+: q → (Crawl.start root).Has q := by
  refine ⟨⟨fun q hq => ?_, fun x hx => ?_⟩, fun q hq => ?_⟩
  · rw [List.mem_singleton.mp hq, h]
    exact ⟨List.prefix_refl _, rfl⟩
  · rw [List.mem_singleton.mp hx]
    exact ⟨List.prefix_refl _, i, h⟩
  · obtain ⟨r, rfl⟩ := hq
    cases r with
    | nil => exact Or.inl (by rw [List.append_nil]; exact List.mem_singleton.mpr rfl)
    | cons n r => exact Or.inr ⟨_, List.mem_singleton.mpr rfl, n, r, rfl⟩

/-! ## In a tree that stays as it is -/

/-- The sub-directories among the entries are in the tree as they are here. -/
def Current (fs : Entry) (p : Path) (d : Dir) : Prop :=
  ∀ n i s, isDot n = false → d.get n = some (.dir i s) → fs.find (p ++ [n]) = some (.dir i s)

theorem current_of_find {p : Path} {ino : Ino} {sub : Dir} (h : fs.find p = some (.dir ino sub)) :
    Current fs p sub := by
  intro n i s hn he
  rw [find_append, h, Option.bind_some]
  exact find_cons_eq_some.mpr ⟨hn, _, he, find_nil _⟩

theorem Current.rest {p : Path} {n : Name} {e : Entry} {rest : Dir}
    (h : Current fs p (rest.cons n e)) (hn : isDot n = false → rest.get n = none) :
    Current fs p rest := by
  intro m i s hm hx
  refine h m i s hm ?_
  have hnm : n ≠ m := by
    rintro rfl
    cases (hn hm).symm.trans hx
  rw [get_cons, if_neg hnm, hx]

/-- Rounds of a call during which nothing else happens. -/
def Alone (filter : Int) (fs : Entry) : Crawl → Crawl → Prop :=
  Relation.ReflTransGen fun c c' => c.next filter fs = some c'

theorem alone_entries {p : Path} {d : Dir} (hwf : d.WF) (h : Current fs p d) (files : List Path)
    (stack : List Item) :
    Alone filter fs ⟨files, .entries p d :: stack⟩
      ⟨files ++ listing Path.append true filter p d, stack⟩ := by
  induction d generalizing p files stack with
  | nil =>
    rw [listing, List.append_nil]
    exact .single rfl
  | leaf n ino link rest ih =>
    have hlater := fun files => ih hwf.2 (Current.rest (e := .leaf ino link) h hwf.1) files stack
    refine .head (b := ⟨files ++ if isDot n = false ∧ filter ≠ 2 then [p ++ [n]] else [],
      .entries p rest :: stack⟩) ?_ (by rw [listing, ← List.append_assoc]; exact hlater _)
    rw [Crawl.next]
    dsimp only
    cases isDot n with
    | true => simp
    | false => by_cases hf : filter = 2 <;> simp [Crawl.push, wants, hf]
  | dir n ino sub rest ihsub ih =>
    have hlater := fun files => ih hwf.2.2 (Current.rest (e := .dir ino sub) h hwf.1) files stack
    cases hn : isDot n with
    | true =>
      rw [listing, if_pos hn, List.nil_append]
      refine .head ?_ (hlater files)
      simp [Crawl.next, hn]
    | false =>
      have hfind := h n ino sub hn (if_pos rfl)
      have hpush : (⟨files, .entries p (.dir n ino sub rest) :: stack⟩ : Crawl).next filter fs
          = some ⟨files ++ if filter ≠ 1 then [p ++ [n]] else [],
              .directory (p ++ [n]) :: .entries p rest :: stack⟩ := by
        by_cases hf : filter = 1 <;> simp [Crawl.next, Crawl.push, wants, hn, hf]
      have hopen : ∀ files, (⟨files, .directory (p ++ [n]) :: .entries p rest :: stack⟩ :
          Crawl).next filter fs
          = some ⟨files, .entries (p ++ [n]) sub :: .entries p rest :: stack⟩ := by
        intro files
        simp only [Crawl.next, openDir_of_find hfind, Option.map_some]
      rw [listing, if_neg (Bool.eq_false_iff.mp hn), if_pos rfl, ← List.append_assoc,
        ← List.append_assoc]
      exact .head hpush (.head (hopen _)
        ((ihsub hwf.2.1 (current_of_find hfind) _ _).trans (hlater _)))

/-- Where nothing else happens the rounds come to what `find_files` does at one go. -/
theorem crawl_alone (hwf : fs.WF) {p : Path} {ino : Ino} {sub : Dir}
    (h : fs.find p = some (.dir ino sub)) :
    ∃ scan, findFiles Path.append (fun _ => true) true filter p sub ⟨[p], []⟩ = .ok scan ∧
      Alone filter fs (.start p) ⟨scan.files, []⟩ := by
  obtain ⟨calls, hfind⟩ := findFiles_ok true filter rfl (openable_true p sub) ⟨[p], []⟩
  refine ⟨_, hfind, .head (b := ⟨[p], [.entries p sub]⟩) ?_ ?_⟩
  · simp only [Crawl.next, Crawl.start, openDir_of_find h, Option.map_some]
  · exact alone_entries (wf_find hwf h) (current_of_find h) [p] []

/-! ## How long it takes -/

/-- The steps from the first entry of a directory to its end, with all that is below. -/
def Dir.rounds : Dir → Nat
  | .nil => 1
  | .leaf _ _ _ rest => 1 + rest.rounds
  | .dir _ _ sub rest => 2 + sub.rounds + rest.rounds

/-- The steps from `opendir` of a directory on. -/
def Entry.rounds (fs : Entry) (p : Path) : Nat :=
  1 + (fs.openDir p).elim 0 fun x => x.2.rounds

/-- The steps that are left in a directory being read; its sub-directories are gone
through as they are now. -/
def Dir.left (fs : Entry) (p : Path) : Dir → Nat
  | .nil => 1
  | .leaf _ _ _ rest => 1 + rest.left fs p
  | .dir n _ _ rest => 1 + (if isDot n then 0 else fs.rounds (p ++ [n])) + rest.left fs p

def Item.left (fs : Entry) : Item → Nat
  | .directory p => fs.rounds p
  | .entries p d => d.left fs p

/-- The steps left to a call, if nothing is made any more. -/
def Crawl.left (fs : Entry) (c : Crawl) : Nat := c.stack.foldr (fun x m => x.left fs + m) 0

/-- What is read as it is there takes as long as there is. -/
theorem left_le_rounds {p : Path} {d : Dir} (hwf : d.WF) (h : Current fs p d) :
    d.left fs p ≤ d.rounds := by
  induction d with
  | nil => exact Nat.le_refl _
  | leaf n ino link rest ih =>
    have hrest := ih hwf.2 (Current.rest (e := .leaf ino link) h hwf.1)
    rw [Dir.left, Dir.rounds]
    omega
  | dir n ino sub rest _ ih =>
    have hrest := ih hwf.2.2 (Current.rest (e := .dir ino sub) h hwf.1)
    rw [Dir.left, Dir.rounds]
    split
    · omega
    · next hn =>
      have hfind := h n ino sub (Bool.eq_false_iff.mpr hn) (if_pos rfl)
      have hsub : fs.rounds (p ++ [n]) = 1 + sub.rounds := by
        rw [Entry.rounds, openDir_of_find hfind, Option.elim_some]
      omega

/-- With nothing made any more, every step leaves less to do. -/
theorem step_left (hwf : fs.WF) (h : c.Fits root fs) (hs : c.step filter fs .next = some c') :
    c'.left fs < c.left fs := by
  unfold Crawl.left
  cases crawls_of_step hs with
  | @enter p ino sub stack hst ho =>
    have hfirst := h.stack (.directory p) (by rw [hst]; exact List.mem_cons_self ..)
    have hfind := find_of_openDir hfirst ho
    have hle : sub.left fs p ≤ sub.rounds :=
      left_le_rounds (wf_find hwf hfind) (current_of_find hfind)
    rw [hst]
    simp only [List.foldr_cons, Item.left, Entry.rounds, ho, Option.elim_some]
    omega
  | close hst =>
    rw [hst]
    simp only [List.foldr_cons, Item.left, Dir.left]
    omega
  | @skip p n e rest stack hst hn =>
    rw [hst]
    cases e <;> simp only [List.foldr_cons, Item.left, Dir.cons, Dir.left] <;> omega
  | leaf hst hn =>
    rw [hst]
    simp only [List.foldr_cons, Item.left, Dir.cons, Dir.left]
    omega
  | dir hst hn =>
    rw [hst]
    simp only [List.foldr_cons, Item.left, Dir.cons, Dir.left,
      if_neg (Bool.eq_false_iff.mp hn)]
    omega

/-- `find_files` does not throw: the directories it still has to open are there. -/
theorem next_isSome (h : c.Fits root fs) (hst : c.stack ≠ []) :
    (c.step filter fs .next).isSome = true := by
  obtain ⟨files, stack⟩ := c
  rw [Crawl.step, Crawl.next]
  cases stack with
  | nil => exact absurd rfl hst
  | cons x stack =>
    cases x with
    | directory p =>
      obtain ⟨-, i, hi⟩ := h.stack _ (List.mem_cons_self ..)
      obtain ⟨sub, hfind⟩ := stat_dir_iff.mp hi
      simp only [openDir_of_find hfind, Option.map_some, Option.isSome_some]
    | entries p d =>
      cases d with
      | nil => rfl
      | leaf n ino link rest =>
        dsimp only
        split <;> rfl
      | dir n ino sub rest =>
        dsimp only
        split <;> rfl

end CommonCpp.Fs
