import Mathlib.Data.List.Perm.Basic

/-!
# A heap, and who owns its blocks

Blocks with their contents, made by `alloc` and given back by `free`; to free or
to read what is not allocated has no result. An address is not used twice, so a
pointer that outlives its block shows.

`Owned h as` says that the blocks of `h` are exactly the addresses `as`, each once.
It is what a program keeps that frees everything it must and nothing twice: `as`
is the list of its pointers. `Owned.alloc`, `Owned.free` and `Owned.read` are the
rules; the order of the list does not matter (`Owned.of_perm`). `Gained` is for code
that owns one block more than it was called with. Objects that each hold at most one
pointer are kept in slots: `pointers` is what they own together.
-/

namespace CommonCpp.Lib

abbrev Addr := Nat

/-- The allocated blocks, and the next address. -/
structure Heap (β : Type) where
  blocks : List (Addr × β)
  next : Addr

namespace Heap

variable {β : Type}

def empty : Heap β := ⟨[], 0⟩

def alloc (h : Heap β) (b : β) : Addr × Heap β :=
  (h.next, ⟨(h.next, b) :: h.blocks, h.next + 1⟩)

def read (h : Heap β) (a : Addr) : Option β := h.blocks.lookup a

def free (h : Heap β) (a : Addr) : Option (Heap β) :=
  if (h.read a).isSome then some { h with blocks := h.blocks.filter fun x => x.1 != a } else none

/-- The allocated addresses. -/
def addrs (h : Heap β) : List Addr := h.blocks.map Prod.fst

/-- The allocated blocks are those at `as`, each once. -/
structure Owned (h : Heap β) (as : List Addr) : Prop where
  perm : h.addrs.Perm as
  nodup : h.addrs.Nodup
  lt : ∀ a ∈ h.addrs, a < h.next

variable {h : Heap β} {as : List Addr} {a : Addr}

theorem owned_empty : Owned (empty : Heap β) [] :=
  ⟨.nil, List.nodup_nil, List.forall_mem_nil _⟩

theorem Owned.of_perm (ho : Owned h as) {bs : List Addr} (hp : as.Perm bs) : Owned h bs :=
  ⟨ho.perm.trans hp, ho.nodup, ho.lt⟩

theorem Owned.length (ho : Owned h as) : h.blocks.length = as.length := by
  rw [← ho.perm.length_eq, addrs, List.length_map]

theorem lookup_cons (a k : Addr) (b : β) (xs : List (Addr × β)) :
    List.lookup a ((k, b) :: xs) = if a = k then some b else xs.lookup a := by
  rw [List.lookup_cons]
  by_cases hk : a = k
  · rw [if_pos hk, beq_iff_eq.mpr hk]
  · rw [if_neg hk, beq_eq_false_iff_ne.mpr hk]

theorem mem_addrs_iff : a ∈ h.addrs ↔ ∃ b, h.read a = some b := by
  unfold addrs read
  induction h.blocks with
  | nil => simp
  | cons x xs ih =>
    obtain ⟨k, b⟩ := x
    rw [List.map_cons, List.mem_cons, lookup_cons]
    by_cases hk : a = k
    · simp [hk]
    · simp [hk, ih]

/-- What is owned can be read. -/
theorem Owned.read (ho : Owned h as) (ha : a ∈ as) : ∃ b, h.read a = some b :=
  mem_addrs_iff.mp (ho.perm.mem_iff.mpr ha)

theorem read_alloc_self (b : β) : (h.alloc b).2.read (h.alloc b).1 = some b := by
  simp [alloc, Heap.read]

/-- A new block is another one. -/
theorem Owned.read_alloc (ho : Owned h as) (ha : a ∈ as) (b : β) :
    (h.alloc b).2.read a = h.read a := by
  have hne : a ≠ h.next := Nat.ne_of_lt (ho.lt a (ho.perm.mem_iff.mpr ha))
  exact (lookup_cons a h.next b h.blocks).trans (if_neg hne)

theorem Owned.alloc (ho : Owned h as) (b : β) : Owned (h.alloc b).2 ((h.alloc b).1 :: as) := by
  refine ⟨ho.perm.cons _, List.nodup_cons.mpr ⟨fun hmem => ?_, ho.nodup⟩, fun a ha => ?_⟩
  · exact absurd (ho.lt _ hmem) (Nat.lt_irrefl _)
  · rcases List.mem_cons.mp ha with rfl | ha
    · exact Nat.lt_succ_self _
    · exact Nat.lt_succ_of_lt (ho.lt a ha)

/-- The block of an owner can be freed, once, and nothing else is touched. -/
theorem Owned.free (ho : Owned h (a :: as)) :
    ∃ h', h.free a = some h' ∧ Owned h' as ∧ ∀ b ∈ as, h'.read b = h.read b := by
  have hmem : a ∈ h.addrs := ho.perm.mem_iff.mpr (List.mem_cons_self ..)
  obtain ⟨b, hb⟩ := mem_addrs_iff.mp hmem
  have haddrs : (h.blocks.filter fun x => x.1 != a).map Prod.fst = h.addrs.filter (· != a) := by
    rw [addrs, List.filter_map]
    rfl
  have hnot : a ∉ as := (List.nodup_cons.mp (ho.perm.nodup_iff.mp ho.nodup)).1
  refine ⟨{ h with blocks := h.blocks.filter fun x => x.1 != a }, ?_, ⟨?_, ?_, ?_⟩, ?_⟩
  · rw [Heap.free, hb]
    rfl
  · have hfilter := ho.perm.filter (· != a)
    rw [List.filter_cons_of_neg (by simp)] at hfilter
    have hkeep : as.filter (· != a) = as := by
      refine List.filter_eq_self.mpr fun c hc => bne_iff_ne.mpr fun he => ?_
      exact hnot (he ▸ hc)
    rw [hkeep] at hfilter
    rw [addrs, haddrs]
    exact hfilter
  · rw [addrs, haddrs]
    exact ho.nodup.filter _
  · intro b hb
    rw [addrs, haddrs] at hb
    exact ho.lt b (List.mem_of_mem_filter hb)
  · intro b hb
    have hne : b ≠ a := fun he => hnot (he ▸ hb)
    unfold Heap.read
    dsimp only
    induction h.blocks with
    | nil => rfl
    | cons x xs ih =>
      obtain ⟨k, c⟩ := x
      by_cases hk : k = a
      · have hbk : b ≠ k := hk ▸ hne
        rw [List.filter_cons_of_neg (by simp [hk]), lookup_cons, if_neg hbk, ih]
      · rw [List.filter_cons_of_pos (by simp [hk]), lookup_cons, lookup_cons, ih]

/-! ## One block more -/

/-- There is one block more than in `h`, with these contents; the others are as they were. -/
structure Gained (h : Heap β) (as : List Addr) (a : Addr) (b : β) (h' : Heap β) : Prop where
  owned : Owned h' (a :: as)
  holds : h'.read a = some b
  others : ∀ c ∈ as, h'.read c = h.read c

theorem Owned.gained (ho : Owned h as) (b : β) : Gained h as (h.alloc b).1 b (h.alloc b).2 where
  owned := ho.alloc b
  holds := read_alloc_self b
  others _ hc := ho.read_alloc hc b

variable {h' : Heap β} {b : β}

/-- A new block takes the place of the old one, which is freed. -/
theorem Gained.replace (hg : Gained h as a b h') (b' : β) :
    ∃ h'', (h'.alloc b').2.free a = some h'' ∧ Gained h as (h'.alloc b').1 b' h'' := by
  have hboth : Owned (h'.alloc b').2 (a :: (h'.alloc b').1 :: as) :=
    (hg.owned.alloc b').of_perm (List.Perm.swap ..)
  obtain ⟨h'', hfree, howned, hkept⟩ := hboth.free
  refine ⟨h'', hfree, howned, ?_, fun c hc => ?_⟩
  · rw [hkept _ (List.mem_cons_self ..)]
    exact read_alloc_self b'
  · rw [hkept c (List.mem_cons_of_mem _ hc), hg.owned.read_alloc (List.mem_cons_of_mem _ hc)]
    exact hg.others c hc

/-- Freed, the block leaves the heap as it was before it. -/
theorem Gained.free (hg : Gained h as a b h') :
    ∃ h'', h'.free a = some h'' ∧ Owned h'' as ∧ ∀ c ∈ as, h''.read c = h.read c := by
  obtain ⟨h'', hfree, howned, hkept⟩ := hg.owned.free
  exact ⟨h'', hfree, howned, fun c hc => (hkept c hc).trans (hg.others c hc)⟩

end Heap

/-! ## Objects by handle -/

section

variable {γ : Type}

/-- The object with handle `i`, while it lives. -/
def slot (objects : List (Option γ)) (i : Nat) : Option γ := objects[i]?.join

theorem slot_push (objects : List (Option γ)) (x : Option γ) (i : Nat) :
    slot (objects ++ [x]) i = if i = objects.length then x else slot objects i := by
  unfold slot
  by_cases hi : i = objects.length
  · rw [if_pos hi, hi, List.getElem?_concat_length]
    rfl
  · rw [if_neg hi]
    rcases Nat.lt_or_gt_of_ne hi with hlt | hgt
    · rw [List.getElem?_append_left hlt]
    · have hnone : objects[i]? = none := List.getElem?_eq_none (Nat.le_of_lt hgt)
      have hnone' : (objects ++ [x])[i]? = none := by
        refine List.getElem?_eq_none ?_
        rw [List.length_append, List.length_singleton]
        exact hgt
      rw [hnone, hnone']

theorem slot_clear (objects : List (Option γ)) (i j : Nat) :
    slot (objects.set i none) j = if i = j then none else slot objects j := by
  unfold slot
  rw [List.getElem?_set]
  by_cases hij : i = j
  · rw [if_pos hij, if_pos hij]
    split <;> rfl
  · rw [if_neg hij, if_neg hij]

/-- What the living objects point to. -/
def pointers (ptr : γ → Option Addr) (objects : List (Option γ)) : List Addr :=
  objects.filterMap fun o => o.bind ptr

variable {ptr : γ → Option Addr} {objects : List (Option γ)} {i : Nat} {o : γ}

theorem mem_pointers {a : Addr} (hi : slot objects i = some o) (ha : ptr o = some a) :
    a ∈ pointers ptr objects := by
  have hmem : some o ∈ objects := by
    unfold slot at hi
    cases hget : objects[i]? with
    | none =>
      rw [hget] at hi
      cases hi
    | some x =>
      rw [hget] at hi
      exact (show x = some o from hi) ▸ List.mem_of_getElem? hget
  exact List.mem_filterMap.mpr ⟨some o, hmem, ha⟩

theorem pointers_push (objects : List (Option γ)) (o : γ) :
    pointers ptr (objects ++ [some o]) = pointers ptr objects ++ (ptr o).toList := by
  unfold pointers
  rw [List.filterMap_append, List.filterMap_cons, Option.bind_some]
  cases ptr o <;> rfl

/-- An object that goes away takes its pointer along. -/
theorem pointers_clear (hi : slot objects i = some o) :
    (pointers ptr objects).Perm ((ptr o).toList ++ pointers ptr (objects.set i none)) := by
  unfold pointers
  induction objects generalizing i with
  | nil => cases hi
  | cons x xs ih =>
    cases i with
    | zero =>
      have hx : x = some o := hi
      subst hx
      rw [List.set_cons_zero, List.filterMap_cons, List.filterMap_cons, Option.bind_some]
      cases ptr o <;> exact .refl _
    | succ i =>
      have hrest := ih (i := i) hi
      rw [List.set_cons_succ, List.filterMap_cons, List.filterMap_cons]
      cases x.bind ptr with
      | none => exact hrest
      | some a => exact (hrest.cons a).trans List.perm_middle.symm

end

end CommonCpp.Lib
