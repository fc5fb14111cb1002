import CommonCpp.Lib.Regex
import CommonCpp.Lib.LastRun

/-!
# `trim_trailing_space` and `compare_md5`

The search for `([^ ]*) *$` sits inside an `assert` and is not anchored at the
start. So with assertions the capture is the last run of non-spaces
(`trimTrailingSpace_eq`), whatever stands in front of it, and without them there
is no search and the capture is empty. `compare_iff` and `builds_agree_iff`
draw the two consequences.
-/

namespace CommonCpp.Text

open CommonCpp.Lib Regex

def isSpace (c : UInt8) : Bool := c == 0x20

def notSpace (c : UInt8) : Bool := c != 0x20

/-- `([^ ]*) *$` -/
def trailing : Re := .seq (.group 1 (.star notSpace)) (.seq (.star isSpace) .eol)

/-- `trim_trailing_space` with assertions: `none` is a failed assertion. -/
def trimTrailingSpace (str : Bytes) : Option Bytes := (search trailing str).map (capture 1)

/-- `trim_trailing_space` under `NDEBUG`: `m` is as it was constructed, and its sub-match 1
is taken to be the one of a match that is not there, which is empty. The standard leaves
`m[1]` undefined for an `smatch` that no search has filled. -/
def trimTrailingSpaceNdebug (_str : Bytes) : Option Bytes := some (capture 1 [])

/-- `compare_md5` over a build of `trim_trailing_space`. -/
def compareMd5With (trim : Bytes → Option Bytes) (a b : Option CString) : Option Bool :=
  (trim ((a.map CString.bytes).getD [])).bind fun a =>
    (trim ((b.map CString.bytes).getD [])).map fun b => cStr a == cStr b

def compareMd5 : Option CString → Option CString → Option Bool := compareMd5With trimTrailingSpace

def compareMd5Ndebug : Option CString → Option CString → Option Bool :=
  compareMd5With trimTrailingSpaceNdebug

/-! ## What is captured -/

/-- The text without its trailing spaces. -/
def trimmed (s : Bytes) : Bytes := s.rdropWhile isSpace

/-- The run of non-spaces the trimmed text ends with. -/
def lastWord (s : Bytes) : Bytes := (trimmed s).rtakeWhile notSpace

/-- The trimmed text in front of its last word. -/
def front (s : Bytes) : Bytes := (trimmed s).rdropWhile notSpace

theorem trimmed_eq (s : Bytes) : trimmed s = front s ++ lastWord s :=
  List.rdropWhile_append_rtakeWhile.symm

/-- Below a place the expression matches in at most one way: the run of
non-spaces, if only spaces follow. -/
theorem run_trailing (s : Bytes) :
    trailing.run ⟨s, []⟩ = if ∀ c ∈ s.dropWhile notSpace, isSpace c = true
      then [⟨[], [(1, s.takeWhile notSpace)]⟩] else [] := by
  have htail : ∀ c : Cursor, (Re.seq (.star isSpace) .eol).run c
      = if ∀ b ∈ c.rest, isSpace b = true then [⟨[], c.caps⟩] else [] := by
    intro c
    show (runStar isSpace c.caps c.rest).flatMap Re.eol.run = _
    rw [runStar_flatMap fun b rest _ => rfl, Re.run]
    by_cases hs : ∀ b ∈ c.rest, isSpace b = true
    · rw [if_pos hs, List.dropWhile_eq_nil_iff.mpr hs, if_pos rfl]
    · rw [if_neg hs, if_neg fun h => hs (List.dropWhile_eq_nil_iff.mp h)]
  have hlen : s.take (s.length - (s.dropWhile notSpace).length) = s.takeWhile notSpace := by
    have hsplit := List.takeWhile_append_dropWhile (p := notSpace) (l := s)
    have hlength := congrArg List.length hsplit
    rw [List.length_append] at hlength
    rw [show s.length - (s.dropWhile notSpace).length = (s.takeWhile notSpace).length by omega]
    nth_rewrite 2 [← hsplit]
    exact List.take_left
  show ((runStar notSpace [] s).map fun c =>
    (⟨c.rest, (1, s.take (s.length - c.rest.length)) :: c.caps⟩ : Cursor)).flatMap
      (Re.seq (.star isSpace) .eol).run = _
  rw [List.flatMap_map, runStar_flatMap, htail]
  · dsimp only
    rw [hlen]
  · -- a shorter first run leaves a non-space in front of the spaces
    intro b rest hb
    rw [htail]
    refine if_neg fun hall => ?_
    have hspace := hall b (List.mem_cons_self ..)
    unfold notSpace at hb
    unfold isSpace at hspace
    rw [beq_iff_eq.mp hspace] at hb
    cases hb

theorem not_isSpace_iff {c : UInt8} : isSpace c = false ↔ notSpace c = true := by
  unfold isSpace notSpace
  rw [bne, Bool.not_eq_true']

/-- A text taken apart: something that ends in a space or is empty, a word, and
spaces. The search finds the word. -/
theorem search_parts {f w t : Bytes} (hf : ∀ h : f ≠ [], isSpace (f.getLast h) = true)
    (hfw : f ≠ [] → w ≠ []) (hw : ∀ c ∈ w, notSpace c = true) (ht : ∀ c ∈ t, isSpace c = true) :
    search trailing (f ++ (w ++ t)) = some [(1, w)] := by
  induction f with
  | nil =>
    have htake : t.takeWhile notSpace = [] ∧ t.dropWhile notSpace = t := by
      cases t with
      | nil => exact ⟨rfl, rfl⟩
      | cons c t =>
        have hc : ¬ notSpace c = true := by
          rw [← not_isSpace_iff, ht c (List.mem_cons_self ..)]
          decide
        exact ⟨List.takeWhile_cons_of_neg hc, List.dropWhile_cons_of_neg hc⟩
    refine search_of_run (m := ⟨[], [(1, w)]⟩) ?_
    rw [List.nil_append, run_trailing, List.dropWhile_append_of_pos hw, htake.2, if_pos ht,
      List.takeWhile_append_of_pos hw, htake.1, List.append_nil]
    rfl
  | cons b f ih =>
    -- no match starts in front of the last space: a word follows it, not the end
    have hne : (b :: f).dropWhile notSpace ≠ [] := by
      intro hnil
      have hlast := List.dropWhile_eq_nil_iff.mp hnil _ (List.getLast_mem (List.cons_ne_nil b f))
      rw [← not_isSpace_iff, hf (List.cons_ne_nil b f)] at hlast
      cases hlast
    have hnot : ¬ ∀ c ∈ (b :: f ++ (w ++ t)).dropWhile notSpace, isSpace c = true := by
      intro hall
      rw [List.dropWhile_append, if_neg (by simpa using hne)] at hall
      obtain ⟨c, w', rfl⟩ := List.exists_cons_of_ne_nil (hfw (List.cons_ne_nil b f))
      have hc := hall c (List.mem_append_right _ (List.mem_cons_self ..))
      rw [not_isSpace_iff.mpr (hw c (List.mem_cons_self ..))] at hc
      cases hc
    rw [List.cons_append, search_of_run_nil]
    · refine ih (fun h => ?_) fun _ => hfw (List.cons_ne_nil b f)
      rw [← List.getLast_cons h]
      exact hf (List.cons_ne_nil b f)
    · rw [run_trailing]
      exact if_neg hnot

/-- A trimmed text without a last word would end in a space, so it is empty. -/
theorem trimmed_of_lastWord {s : Bytes} (h : lastWord s = []) : trimmed s = [] := by
  by_contra hne
  have hnot := List.rtakeWhile_eq_nil_iff.mp h hne
  have hlast := List.rdropWhile_last_not isSpace s hne
  exact hnot (not_isSpace_iff.mp ((Bool.not_eq_true _).mp hlast))

/-- The search finds the last word of the trimmed text. -/
theorem search_trailing (s : Bytes) : search trailing s = some [(1, lastWord s)] := by
  have hsplit : s = front s ++ (lastWord s ++ s.rtakeWhile isSpace) := by
    rw [← List.append_assoc, ← trimmed_eq]
    exact List.rdropWhile_append_rtakeWhile.symm
  have hsearch : search trailing (front s ++ (lastWord s ++ s.rtakeWhile isSpace))
      = some [(1, lastWord s)] := by
    refine search_parts (fun h => ?_) (fun h hnil => ?_) (fun c hc => List.mem_rtakeWhile_imp hc)
      fun c hc => List.mem_rtakeWhile_imp hc
    · have hlast := List.rdropWhile_last_not notSpace (trimmed s) h
      cases hs : isSpace ((front s).getLast h) with
      | true => rfl
      | false => exact absurd (not_isSpace_iff.mp hs) hlast
    · refine h ?_
      have htrim := trimmed_of_lastWord hnil
      rw [trimmed_eq, hnil, List.append_nil] at htrim
      exact htrim
  exact (congrArg (search trailing) hsplit).trans hsearch

/-- With assertions enabled: that word. -/
theorem trimTrailingSpace_eq (s : Bytes) : trimTrailingSpace s = some (lastWord s) := by
  rw [trimTrailingSpace, search_trailing]
  rfl

theorem isSpace_iff {c : UInt8} : isSpace c = true ↔ c = 0x20 := beq_iff_eq

/-- **The plain scanner.** For every string the search succeeds, and what is
captured is the result of taking all spaces off the end and then the longest
suffix without a space. That is empty exactly if there is nothing but spaces. -/
theorem trimTrailingSpace_scans (str : Bytes) :
    (search trailing str).isSome = true ∧ trimTrailingSpace str = some (lastWord str) ∧
      (∃ n, str = trimmed str ++ List.replicate n 0x20) ∧
      (trimmed str = [] ∨ ∃ d c, trimmed str = d ++ [c] ∧ c ≠ 0x20) ∧
      LongestSuffix notSpace (trimmed str) (lastWord str) ∧ 0x20 ∉ lastWord str ∧
      (lastWord str = [] ↔ ∀ c ∈ str, c = 0x20) := by
  have hlongest := longestSuffix_rtakeWhile notSpace (trimmed str)
  refine ⟨?_, trimTrailingSpace_eq str, ⟨(str.rtakeWhile isSpace).length, ?_⟩, ?_, hlongest,
    fun hspace => ?_, ?_⟩
  · rw [search_trailing]
    rfl
  · have hspaces : str.rtakeWhile isSpace
        = List.replicate (str.rtakeWhile isSpace).length 0x20 :=
      List.eq_replicate_of_mem fun c hc => isSpace_iff.mp (List.mem_rtakeWhile_imp hc)
    rw [← hspaces]
    exact List.rdropWhile_append_rtakeWhile.symm
  · refine (rdropWhile_nil_or_concat isSpace str).imp_right ?_
    rintro ⟨d, c, hd, hc⟩
    exact ⟨d, c, hd, fun he => absurd (isSpace_iff.mpr he) (by rw [hc]; exact Bool.false_ne_true)⟩
  · exact absurd (hlongest.inside _ hspace) (by decide)
  · constructor
    · intro h c hc
      exact isSpace_iff.mp (List.rdropWhile_eq_nil_iff.mp (trimmed_of_lastWord h) c hc)
    · intro h
      have htrim : trimmed str = [] :=
        List.rdropWhile_eq_nil_iff.mpr fun c hc => isSpace_iff.mpr (h c hc)
      unfold lastWord
      rw [htrim]
      rfl

/-! ## The comparison -/

theorem nulFree_lastWord {s : Bytes} (h : NulFree s) : NulFree (lastWord s) := by
  intro b hb
  have htrim := (List.rtakeWhile_suffix (l := trimmed s) notSpace).subset hb
  exact h b ((List.rdropWhile_prefix (l := s) isSpace).subset htrim)

/-- The bytes a pointer stands for; a null pointer is read as the empty string. -/
def textOf (p : Option CString) : Bytes := (p.map CString.bytes).getD []

theorem nulFree_textOf (p : Option CString) : NulFree (textOf p) := by
  cases p with
  | none => exact List.forall_mem_nil _
  | some s => exact s.nulFree

/-- `compare_md5` compares the last words. -/
theorem compareMd5_eq (a b : Option CString) :
    compareMd5 a b = some (lastWord (textOf a) == lastWord (textOf b)) := by
  show compareMd5With trimTrailingSpace a b = _
  unfold compareMd5With
  show (trimTrailingSpace (textOf a)).bind (fun s =>
    (trimTrailingSpace (textOf b)).map fun t => cStr s == cStr t) = _
  rw [trimTrailingSpace_eq, trimTrailingSpace_eq, Option.bind_some, Option.map_some,
    cStr_of_nulFree (nulFree_lastWord (nulFree_textOf a)),
    cStr_of_nulFree (nulFree_lastWord (nulFree_textOf b))]

/-- Equal texts have equal last words, and conversely if the fronts are the same. -/
theorem compareMd5_of_front {a b : Option CString}
    (h : lastWord (textOf a) = lastWord (textOf b) → front (textOf a) = front (textOf b)) :
    compareMd5 a b = some true ↔ trimmed (textOf a) = trimmed (textOf b) := by
  rw [compareMd5_eq, Option.some.injEq, beq_iff_eq]
  constructor
  · intro hlast
    rw [trimmed_eq (textOf a), trimmed_eq (textOf b), hlast, h hlast]
  · intro htrim
    unfold lastWord
    rw [htrim]

/-- Nothing is in front of the last word exactly if no space is left once the trailing ones
are gone. -/
theorem front_eq_nil_iff {s : Bytes} : front s = [] ↔ ∀ c ∈ trimmed s, isSpace c = false := by
  unfold front
  rw [List.rdropWhile_eq_nil_iff]
  refine forall₂_congr fun c _ => ?_
  unfold notSpace isSpace
  rw [bne_iff_ne, beq_eq_false_iff_ne]

/-- Strings like digests, with no space in front of a non-space, are compared as they should
be. -/
theorem compareMd5_of_words {a b : Option CString}
    (ha : ∀ c ∈ trimmed (textOf a), isSpace c = false)
    (hb : ∀ c ∈ trimmed (textOf b), isSpace c = false) :
    compareMd5 a b = some true ↔ trimmed (textOf a) = trimmed (textOf b) :=
  compareMd5_of_front fun _ => (front_eq_nil_iff.mpr ha).trans (front_eq_nil_iff.mpr hb).symm

/-- **When the comparison is right.** With assertions enabled `compare_md5` is
equality up to trailing spaces of two strings if and only if, should their last
words be the same, what stands in front of these is the same too. -/
theorem compare_iff (a b : Option CString) :
    (compareMd5 a b = some true ↔ trimmed (textOf a) = trimmed (textOf b)) ↔
      (lastWord (textOf a) = lastWord (textOf b) → front (textOf a) = front (textOf b)) := by
  refine ⟨fun h hlast => ?_, compareMd5_of_front⟩
  rw [compareMd5_eq, Option.some.injEq, beq_iff_eq] at h
  unfold front
  rw [h.mp hlast]

/-- `"a b"` and `"c b"` compare as equal. -/
theorem compare_not_equality :
    ¬ ∀ a b : Option CString,
      compareMd5 a b = some true ↔ trimmed (textOf a) = trimmed (textOf b) := by
  intro h
  have htrim := (h (some ⟨ascii "a b", by decide⟩) (some ⟨ascii "c b", by decide⟩)).mp (by decide)
  revert htrim
  decide

/-! ## The other build -/

theorem compareMd5Ndebug_eq (a b : Option CString) : compareMd5Ndebug a b = some true := rfl

/-- **When the two builds agree.** On one string exactly if it consists of
spaces, and on a comparison exactly if the last words are the same: without
assertions nothing is searched, and everything compares as equal. -/
theorem builds_agree_iff (s : Bytes) (a b : Option CString) :
    (trimTrailingSpace s = trimTrailingSpaceNdebug s ↔ ∀ c ∈ s, isSpace c = true) ∧
      (compareMd5 a b = compareMd5Ndebug a b ↔ lastWord (textOf a) = lastWord (textOf b)) := by
  constructor
  · have hndebug : trimTrailingSpaceNdebug s = some [] := rfl
    rw [trimTrailingSpace_eq, hndebug, Option.some.injEq, ← List.rdropWhile_eq_nil_iff]
    constructor
    · intro h
      exact trimmed_of_lastWord h
    · intro h
      unfold lastWord trimmed
      rw [h]
      rfl
  · rw [compareMd5_eq, compareMd5Ndebug_eq, Option.some.injEq, beq_iff_eq]

/-- `"x"` is trimmed to itself or to nothing, and differs from `""` or not. -/
theorem builds_disagree :
    ¬ ((∀ s, trimTrailingSpace s = trimTrailingSpaceNdebug s) ∧
      ∀ a b, compareMd5 a b = compareMd5Ndebug a b) := by
  intro h
  have htrim := h.1 (ascii "x")
  revert htrim
  decide

end CommonCpp.Text
