import CommonCpp.Lib.Regex
import CommonCpp.Lib.LastRun

/-!
# `common::get_file_name`

The search for `[^/\\]+$` is not anchored at the start: at a place inside an
earlier component the greedy run stops at a separator and `$` fails, however
short the run is made. The first place with a match is behind the last
separator (`search_run`), so the name is what follows that.

The path is searched as a C string.
-/

namespace CommonCpp.Text

open CommonCpp.Lib Regex

/-- `[^/\\]` -/
def notSeparator (c : UInt8) : Bool := c != 0x2F && c != 0x5C

/-- `[^/\\]+$`, the whole match being group 0. -/
def lastName : Re := .group 0 (.seq (.seq (.cls notSeparator) (.star notSeparator)) .eol)

/-- `get_file_name` -/
def getFileName (path : Bytes) : Bytes :=
  match search lastName (cStr path) with
  | some m => capture 0 m
  | none => []

/-! ## The search -/

/-- A place has a match only if no separator follows it. -/
theorem run_lastName (c : UInt8) (s : Bytes) :
    lastName.run ⟨c :: s, []⟩
      = if ∀ b ∈ c :: s, notSeparator b = true then [⟨[], [(0, c :: s)]⟩] else [] := by
  have hplus : (Re.seq (.seq (.cls notSeparator) (.star notSeparator)) .eol).run ⟨c :: s, []⟩
      = if ∀ b ∈ c :: s, notSeparator b = true then [⟨[], []⟩] else [] := by
    show ((Re.run (.cls notSeparator) ⟨c :: s, []⟩).flatMap
      (Re.run (.star notSeparator))).flatMap (Re.run .eol) = _
    cases hc : notSeparator c with
    | false =>
      have hfirst : (Re.cls notSeparator).run ⟨c :: s, []⟩ = [] := by
        show (if notSeparator c = true then _ else _) = _
        rw [hc, if_neg Bool.false_ne_true]
      rw [hfirst, if_neg fun hall => ?_]
      · rfl
      · rw [hall c (List.mem_cons_self ..)] at hc
        cases hc
    | true =>
      have hfirst : (Re.cls notSeparator).run ⟨c :: s, []⟩ = [⟨s, []⟩] := by
        show (if notSeparator c = true then _ else _) = _
        rw [hc, if_pos rfl]
      rw [hfirst, List.flatMap_singleton]
      show (runStar notSeparator [] s).flatMap (Re.run .eol) = _
      rw [runStar_flatMap fun b rest _ => rfl, Re.run]
      by_cases hs : ∀ b ∈ s, notSeparator b = true
      · have hall : ∀ b ∈ c :: s, notSeparator b = true := List.forall_mem_cons.mpr ⟨hc, hs⟩
        rw [if_pos hall, List.dropWhile_eq_nil_iff.mpr hs, if_pos rfl]
      · rw [if_neg fun h => hs (List.forall_mem_cons.mp h).2,
          if_neg fun h => hs (List.dropWhile_eq_nil_iff.mp h)]
  rw [lastName, Re.run, hplus]
  split
  · exact congrArg (fun w => [(⟨[], [(0, w)]⟩ : Cursor)]) List.take_length
  · rfl

/-- The leftmost match is the last run. -/
theorem search_run (s : Bytes) :
    search lastName s = if s.rtakeWhile notSeparator = [] then none
      else some [(0, s.rtakeWhile notSeparator)] := by
  induction s with
  | nil => rfl
  | cons c s ih =>
    by_cases hall : ∀ b ∈ c :: s, notSeparator b = true
    · have hrun : lastName.run ⟨c :: s, []⟩ = [⟨[], [(0, c :: s)]⟩] := by
        rw [run_lastName, if_pos hall]
      rw [search_of_run (congrArg List.head? hrun), List.rtakeWhile_eq_self_iff.mpr hall,
        if_neg (List.cons_ne_nil c s)]
    · -- a separator follows, and the run behind it is the one of the rest
      rw [search_of_run_nil (by rw [run_lastName, if_neg hall]), ih, rtakeWhile_cons_of_not hall]

/-! ## The name -/

/-- A `/` or a `\`. -/
def Separator (c : UInt8) : Prop := c = 0x2F ∨ c = 0x5C

theorem notSeparator_iff {c : UInt8} : notSeparator c = false ↔ Separator c := by
  unfold notSeparator Separator
  rw [Bool.and_eq_false_iff, bne_eq_false_iff_eq, bne_eq_false_iff_eq]

theorem getFileName_eq (path : CString) :
    getFileName path.bytes = path.bytes.rtakeWhile notSeparator := by
  unfold getFileName
  rw [cStr_of_nulFree path.nulFree, search_run]
  by_cases hnone : path.bytes.rtakeWhile notSeparator = []
  · rw [if_pos hnone, hnone]
  · rw [if_neg hnone]
    rfl

/-- **The last separator.** For every path: the name is the longest suffix
without a separator. What stands in front of it is empty or ends in one, and the
name is empty exactly if the path is empty or ends in one. -/
theorem getFileName_splits (path : CString) :
    LongestSuffix notSeparator path.bytes (getFileName path.bytes) ∧
      (∀ c ∈ getFileName path.bytes, ¬ Separator c) ∧
      (∃ d, path.bytes = d ++ getFileName path.bytes ∧
        (d = [] ∨ ∃ d' c, d = d' ++ [c] ∧ Separator c)) ∧
      (getFileName path.bytes = [] ↔
        path.bytes = [] ∨ ∃ d c, path.bytes = d ++ [c] ∧ Separator c) := by
  rw [getFileName_eq]
  have hlongest := longestSuffix_rtakeWhile notSeparator path.bytes
  refine ⟨hlongest, fun c hc hsep => ?_, ⟨path.bytes.rdropWhile notSeparator, ?_, ?_⟩, ?_⟩
  · rw [← notSeparator_iff, hlongest.inside c hc] at hsep
    cases hsep
  · exact List.rdropWhile_append_rtakeWhile.symm
  · simp only [← notSeparator_iff]
    exact rdropWhile_nil_or_concat notSeparator path.bytes
  · simp only [← notSeparator_iff]
    exact rtakeWhile_nil_iff notSeparator path.bytes

end CommonCpp.Text
