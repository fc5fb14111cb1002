import CommonCpp.Lib.Bytes
import Mathlib.Data.List.Basic

/-!
# `common::get_relative_path`

The parent is compared with the front of the child, as text: `strncmp` over the
parent's length. Nothing looks at what comes next in the child, so a sibling
whose name only starts like the parent's last element passes for a child, and
the rest of its name for the relative path. `accepted_iff_below` is the exact
condition under which acceptance means descent.
-/

namespace CommonCpp.Files

open CommonCpp.Lib

/-- `strncmp`, as far as its result is zero or not: two characters are compared
until one string ends or `n` have been. -/
def strncmp : Nat → Bytes → Bytes → Bool
  | 0, _, _ => true
  | _ + 1, [], [] => true
  | _ + 1, [], _ :: _ => false
  | _ + 1, _ :: _, [] => false
  | n + 1, a :: s, b :: t => a == b && strncmp n s t

/-- `'/'` and `'\\'`, on every platform. -/
def isSeparator (c : UInt8) : Bool := c == 0x2F || c == 0x5C

/-- `if (relative[0] == '/' || relative[0] == '\\') relative = relative + 1;` -/
def skipSeparator : Bytes → Bytes
  | [] => []
  | c :: rest => if isSeparator c then rest else c :: rest

/-- `get_relative_path`. An exception carries its text. -/
def getRelativePath (parent child : Bytes) : Except Bytes Bytes :=
  let parent := cStr parent
  let child := cStr child
  if strncmp parent.length parent child then .ok (skipSeparator (child.drop parent.length))
  else .error (ascii "the two strings is not parent-child relationship.")

/-- The call returns. -/
def Accepted (parent child : CString) : Prop :=
  ∃ relative, getRelativePath parent.bytes child.bytes = .ok relative

/-- `child` is at or below `parent` as a path. -/
def Below (parent child : Bytes) : Prop :=
  child = parent ∨
    parent <+: child ∧
      (parent = [] ∨ (∃ c, parent.getLast? = some c ∧ isSeparator c = true) ∨
        ∃ c, child[parent.length]? = some c ∧ isSeparator c = true)

/-- `child` goes on where `parent` ends, in the middle of a path element. -/
def ContinuesElement (parent child : Bytes) : Prop :=
  ∃ last c rest, parent.getLast? = some last ∧ isSeparator last = false ∧
    child = parent ++ c :: rest ∧ isSeparator c = false

/-! ## What is compared -/

/-- Comparing over the whole first string tells whether the second starts with it. -/
theorem strncmp_length_iff (s t : Bytes) : strncmp s.length s t = true ↔ s <+: t := by
  induction s generalizing t with
  | nil => simp [strncmp]
  | cons a s ih =>
    cases t with
    | nil => simp [strncmp]
    | cons b t =>
      rw [List.length_cons, strncmp, Bool.and_eq_true, beq_iff_eq, ih, List.cons_prefix_cons]

/-- What comes back for a string that starts with the parent. -/
theorem getRelativePath_append {parent rest : Bytes} (h : NulFree (parent ++ rest)) :
    getRelativePath parent (parent ++ rest) = .ok (skipSeparator rest) := by
  have hparent : NulFree parent := fun b hb => h b (List.mem_append_left _ hb)
  unfold getRelativePath
  rw [cStr_of_nulFree hparent, cStr_of_nulFree h]
  dsimp only
  rw [if_pos ((strncmp_length_iff _ _).mpr (List.prefix_append _ _)), List.drop_left]

theorem accepted_iff_isPrefix (parent child : CString) :
    Accepted parent child ↔ parent.bytes <+: child.bytes := by
  constructor
  · intro ⟨relative, h⟩
    unfold getRelativePath at h
    rw [cStr_of_nulFree parent.nulFree, cStr_of_nulFree child.nulFree] at h
    dsimp only at h
    split at h
    · next hcmp => exact (strncmp_length_iff _ _).mp hcmp
    · cases h
  · intro ⟨rest, h⟩
    have hfree := child.nulFree
    rw [← h] at hfree
    refine ⟨skipSeparator rest, ?_⟩
    rw [← h]
    exact getRelativePath_append hfree

theorem Below.isPrefix {parent child : Bytes} (h : Below parent child) : parent <+: child := by
  rcases h with rfl | ⟨h, -⟩
  · exact List.prefix_refl _
  · exact h

/-- Where text continues a parent, either the path descends or an element goes on. -/
theorem below_or_continues (parent : Bytes) (c : UInt8) (rest : Bytes) :
    Below parent (parent ++ c :: rest) ∨ ContinuesElement parent (parent ++ c :: rest) := by
  cases hlast : parent.getLast? with
  | none => exact Or.inl (Or.inr ⟨List.prefix_append _ _, Or.inl (List.getLast?_eq_none_iff.mp hlast)⟩)
  | some last =>
    cases hsep : isSeparator last with
    | true => exact Or.inl (Or.inr ⟨List.prefix_append _ _, Or.inr (Or.inl ⟨last, hlast, hsep⟩)⟩)
    | false =>
      cases hc : isSeparator c with
      | true =>
        refine Or.inl (Or.inr ⟨List.prefix_append _ _, Or.inr (Or.inr ⟨c, ?_, hc⟩)⟩)
        rw [List.getElem?_append_right (Nat.le_refl _), Nat.sub_self]
        rfl
      | false => exact Or.inr ⟨last, c, rest, hlast, hsep, rfl, hc⟩

theorem ContinuesElement.not_below {parent child : Bytes} (h : ContinuesElement parent child) :
    ¬ Below parent child := by
  obtain ⟨last, c, rest, hlast, hsep, rfl, hc⟩ := h
  rintro (hself | ⟨-, hnil | ⟨l, hl, hls⟩ | ⟨d, hd, hds⟩⟩)
  · have hlen := congrArg List.length hself
    rw [List.length_append, List.length_cons] at hlen
    omega
  · rw [hnil] at hlast
    cases hlast
  · rw [hlast, Option.some.injEq] at hl
    rw [← hl, hsep] at hls
    cases hls
  · rw [List.getElem?_append_right (Nat.le_refl _), Nat.sub_self] at hd
    cases hd
    rw [hc] at hds
    cases hds

theorem ContinuesElement.isPrefix {parent child : Bytes} (h : ContinuesElement parent child) :
    parent <+: child := by
  obtain ⟨last, c, rest, -, -, rfl, -⟩ := h
  exact List.prefix_append _ _

/-- **When acceptance means descent.** For every parent and child: that the call
returns exactly if the child lies at or below the parent holds if and only if the
child does not continue the parent in the middle of a path element. -/
theorem accepted_iff_below (parent child : CString) :
    (Accepted parent child ↔ Below parent.bytes child.bytes) ↔
      ¬ ContinuesElement parent.bytes child.bytes := by
  rw [accepted_iff_isPrefix]
  constructor
  · intro h hcont
    exact hcont.not_below (h.mp hcont.isPrefix)
  · intro hcont
    refine ⟨?_, Below.isPrefix⟩
    intro ⟨more, hmore⟩
    cases more with
    | nil => exact Or.inl (hmore.symm.trans (List.append_nil _))
    | cons c rest =>
      rw [← hmore] at hcont ⊢
      exact (below_or_continues _ c rest).resolve_right hcont

/-- `/a/bc` is accepted as a child of `/a/b`. -/
theorem sibling_accepted :
    ¬ ∀ parent child : CString, Accepted parent child ↔ Below parent.bytes child.bytes := by
  intro h
  have hcont : ContinuesElement (ascii "/a/b") (ascii "/a/bc") :=
    ⟨0x62, 0x63, [], rfl, rfl, rfl, rfl⟩
  have haccept : Accepted ⟨ascii "/a/b", by decide⟩ ⟨ascii "/a/bc", by decide⟩ :=
    (accepted_iff_isPrefix _ _).mpr hcont.isPrefix
  exact hcont.not_below ((h _ _).mp haccept)

end CommonCpp.Files
