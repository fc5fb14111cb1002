import CommonCpp.Fs.Mv

/-!
# Taking entries out

`remove` takes out a leaf or a directory with nothing in it, if the kernel lets it.
Taken out one after the other, the deepest first, entries stay exactly if they are
refused or something below them is (`removeEach_emptied`): a directory can go once
everything in it has gone. The other way round every directory with something in it
would stay.
-/

namespace CommonCpp.Fs

open CommonCpp.Lib

/-- `remove`: `unlink`, or `rmdir` for a directory. A separator behind the path asks for a
directory. -/
def Disk.remove (refuses : Path → Bool) (slash : Bool) (d : Disk) (p : Path) : Option Disk :=
  (d.place p).bind fun x =>
    (d.tree.find x.path).bind fun e =>
      if e.removable = true ∧ (slash = true → e.isDir = true) ∧ refuses x.path = false then
        some (d.unlink x)
      else none

/-- The same, as a call that tells whether it worked. -/
def Disk.delete (refuses : Path → Bool) (slash : Bool) (d : Disk) (p : Path) : Bool × Disk :=
  match d.remove refuses slash p with
  | some d' => (true, d')
  | none => (false, d)

/-- One after the other, and which of them worked. -/
def Disk.removeEach (refuses : Path → Bool) : List Path → Disk → List Bool × Disk
  | [], d => ([], d)
  | p :: paths, d =>
    let (ok, d) := d.delete refuses false p
    let (oks, d) := d.removeEach refuses paths
    (ok :: oks, d)

/-- The entry at the path, or something below it, is refused. -/
def Disk.Kept (d : Disk) (refuses : Path → Bool) (p : Path) : Prop :=
  ∃ r, d.tree.stat (p ++ r) ≠ none ∧ refuses (p ++ r) = true

/-- Paths of entries, each behind all that is below it. -/
def Disk.DeepestFirst (d : Disk) (paths : List Path) : Prop :=
  ∀ front p back, paths = front ++ p :: back →
    p ≠ [] ∧ d.tree.stat p ≠ none ∧ p ∉ front ∧
      ∀ n r, d.tree.stat (p ++ n :: r) ≠ none → p ++ n :: r ∈ front

/-- What is left after some entries have been tried. -/
structure Emptied (refuses : Path → Bool) (d : Disk) (paths : List Path) (oks : List Bool)
    (d' : Disk) : Prop where
  permits : d'.Open
  gone : ∀ p ∈ paths, ¬ d.Kept refuses p → d'.tree.stat p = none
  kept : ∀ p, (p ∈ paths → d.Kept refuses p) → d'.tree.stat p = d.tree.stat p
  told : List.Forall₂ (fun p ok => ok = true ↔ ¬ d.Kept refuses p) paths oks

/-! ## One entry -/

/-- An entry can be removed exactly if nothing is below it. -/
theorem removable_iff {e : Entry} : e.removable = true ↔ ∀ n r, e.stat (n :: r) = none := by
  refine ⟨fun h => stat_of_removable h, fun h => ?_⟩
  cases e with
  | leaf => rfl
  | dir ino sub =>
    show sub.isEmpty = true
    induction sub using Dir.cons_induction with
    | nil => rfl
    | cons m x rest ih =>
      have hm : isDot m = true := by
        cases hdot : isDot m with
        | true => rfl
        | false =>
          have hself := @stat_cons_self ino m x rest [] hdot
          rw [h m [], Entry.stat, find_nil] at hself
          cases hself
      rw [isEmpty_cons, hm, Bool.true_and]
      refine ih fun n r => ?_
      by_cases hmn : m = n
      · subst hmn
        rw [Entry.stat, find_dir_cons, if_pos hm]
        rfl
      · rw [← stat_cons_rest r hmn]
        exact h n r

/-- Where nothing is refused, the path of an entry names its place. -/
theorem place_of_stat {d : Disk} (h : d.Open) {q : Path} {n : Name} {node : Node}
    (hstat : d.tree.stat (q ++ [n]) = some node) : d.place (q ++ [n]) = some ⟨q, n⟩ := by
  have hfind := find_ne_none_of_stat hstat
  obtain ⟨i, hi⟩ := stat_dir_of_below hfind
  have hsight := (sight_of_open h q q).mpr (resolve_of_stat hi (by simp))
  rw [Disk.sight, if_neg (by rw [h.short]; exact Bool.false_ne_true)] at hsight
  refine place_eq_some.mpr ⟨h.short _, not_dot_of_find hfind n (by simp), q, rfl, hsight, i, hi⟩

theorem open_unlink {d : Disk} (h : d.Open) (x : Place) : (d.unlink x).Open := by
  obtain ⟨ino, sub, hroot⟩ := h.root
  refine ⟨⟨ino, Dir.modifyAt (Dir.remove x.name) x.dir sub, ?_⟩, h.readable, h.searchable, h.short⟩
  show d.tree.eraseAt x.dir x.name = _
  rw [hroot]
  rfl

/-- What `remove` does at the path of an entry. -/
theorem delete_of_stat {d : Disk} (h : d.Open) (refuses : Path → Bool) {q : Path} {n : Name}
    {node : Node} (hstat : d.tree.stat (q ++ [n]) = some node) :
    (d.delete refuses false (q ++ [n]) = (true, d.unlink ⟨q, n⟩) ∧
        (∀ m r, d.tree.stat (q ++ [n] ++ m :: r) = none) ∧ refuses (q ++ [n]) = false) ∨
      d.delete refuses false (q ++ [n]) = (false, d) ∧
        ((∃ m r, d.tree.stat (q ++ [n] ++ m :: r) ≠ none) ∨ refuses (q ++ [n]) = true) := by
  obtain ⟨e, he, -⟩ := stat_eq_some.mp hstat
  have hbelow : ∀ r, d.tree.stat (q ++ [n] ++ r) = e.stat r := fun r => stat_append he r
  have hpath : Place.path ⟨q, n⟩ = q ++ [n] := rfl
  unfold Disk.delete Disk.remove
  rw [place_of_stat h hstat, Option.bind_some, hpath, he, Option.bind_some]
  by_cases hok : e.removable = true ∧ refuses (q ++ [n]) = false
  · rw [if_pos ⟨hok.1, by rintro ⟨⟩, hok.2⟩]
    exact .inl ⟨rfl, fun m r => (hbelow _).trans (removable_iff.mp hok.1 m r), hok.2⟩
  · rw [if_neg fun hall => hok ⟨hall.1, hall.2.2⟩]
    refine .inr ⟨rfl, ?_⟩
    by_cases hrefused : refuses (q ++ [n]) = true
    · exact .inr hrefused
    · refine .inl ?_
      by_contra hnone
      push Not at hnone
      exact hok ⟨removable_iff.mpr fun m r => (hbelow _).symm.trans (hnone m r),
        by simpa using hrefused⟩

/-! ## One after the other -/

/-- A refusal further down keeps what is above. -/
theorem kept_of_below {d : Disk} {refuses : Path → Bool} {p r : Path}
    (h : d.Kept refuses (p ++ r)) : d.Kept refuses p := by
  obtain ⟨r', hstat, hrefused⟩ := h
  rw [List.append_assoc] at hstat hrefused
  exact ⟨r ++ r', hstat, hrefused⟩

/-- The next entry, when all that is below it has been tried. -/
theorem Emptied.next {refuses : Path → Bool} {d d' : Disk} {done : List Path} {oks : List Bool}
    (h : Emptied refuses d done oks d') {q : Path} {n : Name} {node : Node}
    (hnew : q ++ [n] ∉ done) (hstat : d.tree.stat (q ++ [n]) = some node)
    (hbelow : ∀ m r, d.tree.stat (q ++ [n] ++ m :: r) ≠ none → q ++ [n] ++ m :: r ∈ done) :
    Emptied refuses d (done ++ [q ++ [n]]) (oks ++ [(d'.delete refuses false (q ++ [n])).1])
      (d'.delete refuses false (q ++ [n])).2 := by
  have hstill : d'.tree.stat (q ++ [n]) = some node :=
    (h.kept _ fun hm => absurd hm hnew).trans hstat
  -- what is below goes with it, or is kept by its own refusal
  have hlater : ∀ m r, d'.tree.stat (q ++ [n] ++ m :: r) ≠ none →
      d.Kept refuses (q ++ [n] ++ m :: r) := by
    intro m r hthere
    by_contra hnot
    by_cases horig : d.tree.stat (q ++ [n] ++ m :: r) = none
    · by_cases hm : q ++ [n] ++ m :: r ∈ done
      · exact hthere (h.gone _ hm hnot)
      · exact hthere ((h.kept _ fun hm' => absurd hm' hm).trans horig)
    · exact hthere (h.gone _ (hbelow m r horig) hnot)
  -- it goes, or it stays because it or something below it is refused
  rcases delete_of_stat h.permits refuses hstill with ⟨hdelete, hnone, hlets⟩ | ⟨hdelete, hwhy⟩
  · have hnot : ¬ d.Kept refuses (q ++ [n]) := by
      rintro ⟨r, hthere, hrefused⟩
      cases r with
      | nil =>
        rw [List.append_nil, hlets] at hrefused
        cases hrefused
      | cons m r =>
        have hkept : d.Kept refuses (q ++ [n] ++ m :: r) :=
          ⟨[], by rwa [List.append_nil], by rwa [List.append_nil]⟩
        have hsame := h.kept (q ++ [n] ++ m :: r) fun _ => hkept
        rw [hnone m r] at hsame
        exact hthere hsame.symm
    obtain ⟨i, hi⟩ := stat_dir_of_below (find_ne_none_of_stat hstill)
    have hunlink := stat_unlink (d := d') (x := ⟨q, n⟩) hi
    rw [hdelete]
    refine ⟨open_unlink h.permits _, fun p hp hkept => ?_, fun p hp => ?_, ?_⟩
    · rw [hunlink]
      split
      · rfl
      · next hapart =>
        rcases List.mem_append.mp hp with hp | hp
        · exact h.gone p hp hkept
        · exact absurd (List.mem_singleton.mp hp ▸ List.prefix_refl _) hapart
    · rw [hunlink]
      split
      · next hpre =>
        obtain ⟨r, rfl⟩ := hpre
        cases r with
        | nil =>
          rw [List.append_nil] at hp
          exact absurd (hp (List.mem_append_right _ (List.mem_singleton_self _))) hnot
        | cons m r =>
          by_contra hthere
          have hthere := Ne.symm hthere
          have hmem := hbelow m r hthere
          exact hnot (kept_of_below (hp (List.mem_append_left _ hmem)))
      · exact h.kept p fun hm => hp (List.mem_append_left _ hm)
    · exact List.rel_append h.told (.cons (iff_of_true rfl hnot) .nil)
  · have hkept : d.Kept refuses (q ++ [n]) := by
      rcases hwhy with ⟨m, r, hthere⟩ | hrefused
      · exact kept_of_below (hlater m r hthere)
      · exact ⟨[], by rw [List.append_nil, hstat]; exact Option.some_ne_none _,
          by rwa [List.append_nil]⟩
    rw [hdelete]
    refine ⟨h.permits, fun p hp hnot => ?_, fun p hp => ?_, ?_⟩
    · rcases List.mem_append.mp hp with hp | hp
      · exact h.gone p hp hnot
      · exact absurd (List.mem_singleton.mp hp ▸ hkept) hnot
    · exact h.kept p fun hm => hp (List.mem_append_left _ hm)
    · exact List.rel_append h.told
        (.cons (iff_of_false Bool.false_ne_true (not_not.mpr hkept)) .nil)

theorem removeEach_next {refuses : Path → Bool} {d : Disk} (todo : List Path) :
    ∀ {done : List Path} {oks : List Bool} {d' : Disk}, Emptied refuses d done oks d' →
      d.DeepestFirst (done ++ todo) →
      Emptied refuses d (done ++ todo) (oks ++ (d'.removeEach refuses todo).1)
        (d'.removeEach refuses todo).2 := by
  induction todo with
  | nil =>
    intro done oks d' h _
    rw [List.append_nil, Disk.removeEach, List.append_nil]
    exact h
  | cons p todo ih =>
    intro done oks d' h hdeep
    obtain ⟨hne, hthere, hnew, hbelow⟩ := hdeep done p todo rfl
    obtain ⟨node, hstat⟩ := Option.ne_none_iff_exists'.mp hthere
    rcases List.eq_nil_or_concat p with rfl | ⟨q, n, rfl⟩
    · exact absurd rfl hne
    · rw [List.concat_eq_append] at *
      have hrest := ih (h.next hnew hstat hbelow) (by rw [List.append_assoc]; exact hdeep)
      rw [List.append_assoc, List.append_assoc] at hrest
      exact hrest

/-- **Deepest first.** Of entries that are taken out each behind what is below it, those
stay that are refused or have something refused below them; nothing else changes, and
each call tells which it was. -/
theorem removeEach_emptied {refuses : Path → Bool} {d : Disk} (h : d.Open) {paths : List Path}
    (hdeep : d.DeepestFirst paths) :
    Emptied refuses d paths (d.removeEach refuses paths).1 (d.removeEach refuses paths).2 :=
  removeEach_next paths ⟨h, by simp, fun _ _ => rfl, .nil⟩ hdeep

/-! ## The listing backwards -/

/-- What stands behind an entry begins with another name. -/
theorem head_ne_of_rest {n : Name} {rest : Dir} (hrest : rest.WF)
    (hn : isDot n = false → rest.get n = none) (hdot : isDot n = false) {x : Descendant}
    (hx : x ∈ rest.descendants) : ∃ m z, x.elems = m :: z ∧ m ≠ n := by
  obtain ⟨hne, node, hstat, -⟩ := (mem_descendants hrest x).mp hx
  cases hz : x.elems with
  | nil => exact absurd hz hne
  | cons m z =>
    refine ⟨m, z, rfl, ?_⟩
    rintro rfl
    rw [hz] at hstat
    obtain ⟨-, e, hget, -⟩ := stat_cons_eq_some.mp hstat
    cases (hn hdot).symm.trans hget

/-- Nothing is listed in front of what it is below. -/
theorem pairwise_descendants {d : Dir} (hd : d.WF) :
    d.descendants.Pairwise fun x y => ¬ y.elems <+: x.elems := by
  have happ : ∀ {n : Name} {rest : Dir} {xs : List Descendant}, rest.WF →
      (isDot n = false → rest.get n = none) → isDot n = false →
      (∀ x ∈ xs, ∃ z, x.elems = n :: z) → (xs.Pairwise fun x y => ¬ y.elems <+: x.elems) →
      (rest.descendants.Pairwise fun x y => ¬ y.elems <+: x.elems) →
      (xs ++ rest.descendants).Pairwise fun x y => ¬ y.elems <+: x.elems := by
    intro n rest xs hrest hn hdot hfirst hxs hbehind
    refine List.pairwise_append.mpr ⟨hxs, hbehind, fun x hx y hy hpre => ?_⟩
    obtain ⟨z, hz⟩ := hfirst x hx
    obtain ⟨m, z', hz', hmn⟩ := head_ne_of_rest hrest hn hdot hy
    rw [hz, hz', List.cons_prefix_cons] at hpre
    exact hmn hpre.1
  induction d with
  | nil => exact .nil
  | leaf n ino link rest ih =>
    rw [Dir.descendants]
    cases hdot : isDot n with
    | true => exact ih hd.2
    | false =>
      rw [if_neg Bool.false_ne_true]
      exact happ hd.2 hd.1 hdot (by simp) (List.pairwise_singleton _ _) (ih hd.2)
  | dir n ino sub rest ihsub ih =>
    rw [Dir.descendants]
    cases hdot : isDot n with
    | true => exact ih hd.2.2
    | false =>
      rw [if_neg Bool.false_ne_true]
      refine happ hd.2.2 hd.1 hdot ?_ (List.pairwise_cons.mpr ⟨?_, ?_⟩) (ih hd.2.2)
      · intro x hx
        rcases List.mem_cons.mp hx with rfl | hx
        · exact ⟨[], rfl⟩
        · obtain ⟨y, -, rfl⟩ := List.mem_map.mp hx
          exact ⟨y.elems, rfl⟩
      · intro x hx hpre
        obtain ⟨y, hy, rfl⟩ := List.mem_map.mp hx
        exact elems_ne_nil hy (List.prefix_nil.mp (List.cons_prefix_cons.mp hpre).2)
      · refine List.pairwise_map.mpr ((ihsub hd.2.1).imp fun hxy hpre => ?_)
        exact hxy (List.cons_prefix_cons.mp hpre).2

/-- The names that lead to what is below a directory. -/
theorem mem_elems_iff {d : Disk} (hwf : d.tree.WF) {p : Path} {ino : Ino} {sub : Dir}
    (hp : d.tree.find p = some (.dir ino sub)) {z : Path} :
    z ∈ sub.descendants.map Descendant.elems ↔ z ≠ [] ∧ d.tree.stat (p ++ z) ≠ none := by
  have hsub : sub.WF := wf_find hwf hp
  have hstat : ∀ z, z ≠ [] → d.tree.stat (p ++ z) = (Entry.dir 0 sub).stat z := by
    intro z hz
    rw [stat_append hp]
    cases z with
    | nil => exact absurd rfl hz
    | cons n z => rfl
  constructor
  · intro hz
    obtain ⟨x, hx, rfl⟩ := List.mem_map.mp hz
    obtain ⟨hne, node, hnode, -⟩ := (mem_descendants hsub x).mp hx
    refine ⟨hne, ?_⟩
    rw [hstat _ hne, hnode]
    exact Option.some_ne_none _
  · rintro ⟨hne, hthere⟩
    rw [hstat z hne] at hthere
    obtain ⟨node, hnode⟩ := Option.ne_none_iff_exists'.mp hthere
    have hx : (⟨z, node.isDir⟩ : Descendant) ∈ sub.descendants :=
      (mem_descendants hsub _).mpr ⟨hne, node, hnode, rfl⟩
    exact List.mem_map.mpr ⟨_, hx, rfl⟩

/-- Everything below a directory, the listing read from its end. -/
def below (p : Path) (sub : Dir) : List Path :=
  (sub.descendants.map Descendant.elems).reverse.map fun z => p ++ z

theorem mem_below_iff {d : Disk} (hwf : d.tree.WF) {p : Path} {ino : Ino} {sub : Dir}
    (hp : d.tree.find p = some (.dir ino sub)) {q : Path} :
    q ∈ below p sub ↔ ∃ z, q = p ++ z ∧ z ≠ [] ∧ d.tree.stat (p ++ z) ≠ none := by
  unfold below
  rw [List.mem_map]
  constructor
  · rintro ⟨z, hz, rfl⟩
    exact ⟨z, rfl, (mem_elems_iff hwf hp).mp (List.mem_reverse.mp hz)⟩
  · rintro ⟨z, rfl, hz⟩
    exact ⟨z, List.mem_reverse.mpr ((mem_elems_iff hwf hp).mpr hz), rfl⟩

theorem deepestFirst_below {d : Disk} (hwf : d.tree.WF) {p : Path} {ino : Ino} {sub : Dir}
    (hp : d.tree.find p = some (.dir ino sub)) : d.DeepestFirst (below p sub) := by
  have hsub : sub.WF := wf_find hwf hp
  have hnodup : (below p sub).Nodup :=
    (List.nodup_reverse.mpr (nodup_elems hsub)).map (List.append_right_injective p)
  have hpairs : (below p sub).Pairwise fun a b => ¬ a <+: b := by
    unfold below
    rw [List.pairwise_map, List.pairwise_reverse, List.pairwise_map]
    exact (pairwise_descendants hsub).imp fun hxy hpre =>
      hxy ((List.prefix_append_right_inj p).mp hpre)
  intro front q back hsplit
  have hq : q ∈ below p sub := hsplit ▸ List.mem_append_right _ (List.mem_cons_self ..)
  obtain ⟨z, rfl, hne, hthere⟩ := (mem_below_iff hwf hp).mp hq
  rw [hsplit] at hnodup hpairs
  refine ⟨fun he => hne (List.append_eq_nil_iff.mp he).2, hthere, fun hfront => ?_,
    fun n r hlower => ?_⟩
  · exact (List.nodup_append.mp hnodup).2.2 _ hfront _ (List.mem_cons_self ..) rfl
  · have hmem : p ++ z ++ n :: r ∈ front ++ (p ++ z) :: back := by
      rw [← hsplit, mem_below_iff hwf hp]
      exact ⟨z ++ n :: r, List.append_assoc .., by simp, by rwa [← List.append_assoc]⟩
    rcases List.mem_append.mp hmem with hfront | hrest
    · exact hfront
    · exfalso
      rcases List.mem_cons.mp hrest with heq | hback
      · have hlen := congrArg List.length heq
        rw [List.length_append, List.length_cons] at hlen
        omega
      · have hapart := (List.pairwise_append.mp hpairs).2.1
        exact (List.pairwise_cons.mp hapart).1 _ hback (List.prefix_append _ _)

/-- What is left of a tree when everything below a directory has been tried. -/
structure Cleared (refuses : Path → Bool) (p : Path) (d d' : Disk) : Prop where
  kept : ∀ z, d.Kept refuses (p ++ z) → d'.tree.stat (p ++ z) = d.tree.stat (p ++ z)
  gone : ∀ z, z ≠ [] → ¬ d.Kept refuses (p ++ z) → d'.tree.stat (p ++ z) = none
  elsewhere : ∀ q, (∀ z, z ≠ [] → q ≠ p ++ z) → d'.tree.stat q = d.tree.stat q

theorem below_cleared {refuses : Path → Bool} {d : Disk} (h : d.Open) (hwf : d.tree.WF) {p : Path}
    {ino : Ino} {sub : Dir} (hp : d.tree.find p = some (.dir ino sub)) :
    (d.removeEach refuses (below p sub)).2.Open ∧
      Cleared refuses p d (d.removeEach refuses (below p sub)).2 ∧
      List.Forall₂
        (fun q ok => ok = true ↔ (d.removeEach refuses (below p sub)).2.tree.stat q = none)
        (below p sub) (d.removeEach refuses (below p sub)).1 := by
  have hdone := @removeEach_emptied refuses d h _ (deepestFirst_below hwf hp)
  refine ⟨hdone.permits,
    ⟨fun z hkept => hdone.kept _ fun _ => hkept, fun z hz hnot => ?_, fun q hq => ?_⟩, ?_⟩
  · by_cases hmem : p ++ z ∈ below p sub
    · exact hdone.gone _ hmem hnot
    · rw [hdone.kept _ fun hm => absurd hm hmem]
      by_contra hthere
      exact hmem ((mem_below_iff hwf hp).mpr ⟨z, rfl, hz, hthere⟩)
  · refine hdone.kept _ fun hm => ?_
    obtain ⟨z, rfl, hz, -⟩ := (mem_below_iff hwf hp).mp hm
    exact absurd rfl (hq z hz)
  · refine ((List.forall₂_and_left _ _).mpr ⟨fun q hq => hq, hdone.told⟩).imp ?_
    rintro q ok ⟨hq, hok⟩
    rw [hok]
    refine ⟨hdone.gone q hq, fun hgone hkept => ?_⟩
    obtain ⟨z, rfl, -, hthere⟩ := (mem_below_iff hwf hp).mp hq
    exact hthere ((hdone.kept _ fun _ => hkept).symm.trans hgone)

/-! ## What is gone cannot be found -/

/-- The walk along the path of an entry that is gone, in a tree where nothing else has come. -/
theorem walk_gone {e e' : Entry} (h : ∀ q, e'.stat q = e.stat q ∨ e'.stat q = none) (todo : Path) :
    ∀ done, todo ≠ [] → e.stat (done ++ todo) ≠ none → e'.stat (done ++ todo) = none →
      e'.walk done todo = .fail := by
  induction todo with
  | nil => exact fun _ hne => absurd rfl hne
  | cons n todo ih =>
    intro done _ hthere hgone
    obtain ⟨node, hstat⟩ := Option.ne_none_iff_exists'.mp hthere
    have hfind := find_ne_none_of_stat hstat
    rw [walk_cons (not_dot_of_find hfind n (by simp))]
    cases hnext : e'.stat (done ++ [n]) with
    | none => rfl
    | some node' =>
      have happ : done ++ n :: todo = (done ++ [n]) ++ todo := by simp
      cases todo with
      | nil => cases hnext.symm.trans hgone
      | cons m r =>
        rw [happ] at hfind hthere hgone
        obtain ⟨i, hi⟩ := stat_dir_of_below hfind
        rcases h (done ++ [n]) with hsame | hnone
        · cases hnext.symm.trans (hsame.trans hi)
          exact ih (done ++ [n]) (List.cons_ne_nil _ _) hthere hgone
        · cases hnext.symm.trans hnone

theorem resolve_gone {e e' : Entry} (h : ∀ q, e'.stat q = e.stat q ∨ e'.stat q = none) {p : Path}
    (hthere : e.stat p ≠ none) (hgone : e'.stat p = none) : e'.resolve p = none := by
  have hne : p ≠ [] := by
    rintro rfl
    rw [Entry.stat, find_nil] at hgone
    cases hgone
  unfold Entry.resolve
  rw [Entry.resolveIn, walk_gone h p [] hne hthere hgone]

theorem Cleared.same_or_gone {refuses : Path → Bool} {p : Path} {d d' : Disk}
    (h : Cleared refuses p d d') (q : Path) :
    d'.tree.stat q = d.tree.stat q ∨ d'.tree.stat q = none := by
  by_cases hbelow : ∃ z, z ≠ [] ∧ q = p ++ z
  · obtain ⟨z, hz, rfl⟩ := hbelow
    by_cases hkept : d.Kept refuses (p ++ z)
    · exact .inl (h.kept z hkept)
    · exact .inr (h.gone z hz hkept)
  · exact .inl (h.elsewhere q fun z hz he => hbelow ⟨z, hz, he⟩)

end CommonCpp.Fs
