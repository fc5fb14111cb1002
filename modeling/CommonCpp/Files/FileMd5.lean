import CommonCpp.Files.Commands

/-!
# The digest `common::file_md5` finds

`md5sum` prints a digest and a file name, and tells by a backslash in front of
the line that it has escaped characters of the name. The expression of
`file_md5` is anchored at the start of the output, so it finds the digest of a
file exactly if nothing in the file's name is escaped (`fileMd5_iff`).
-/

namespace CommonCpp.Files

open CommonCpp.Lib CommonCpp.Text

def isHexChar (c : UInt8) : Bool := (0x61 ≤ c && c ≤ 0x66) || (0x30 ≤ c && c ≤ 0x39)

/-- An MD5 digest in lower-case hexadecimal. -/
structure Digest where
  text : Bytes
  length_eq : text.length = 32
  isHex : ∀ c ∈ text, isHexChar c = true

/-! ## What `md5sum` prints -/

/-- A backslash, a newline or a carriage return. -/
def isEscaped (c : UInt8) : Bool := c == 0x5C || c == 0x0A || c == 0x0D

def escapeChar (c : UInt8) : Bytes :=
  if c = 0x5C then ascii "\\\\" else if c = 0x0A then ascii "\\n"
  else if c = 0x0D then ascii "\\r" else [c]

/-- The line for a file. The second separator tells whether it was read in binary mode. -/
def md5sumLine (digest : Digest) (binary : Bool) (name : Bytes) : Bytes :=
  (if name.any isEscaped then [0x5C] else [])
    ++ (digest.text
      ++ ([0x20, if binary then 0x2A else 0x20] ++ (name.flatMap escapeChar ++ [newline])))

/-- `popen` runs GNU `md5sum`, and these are the digests of the files there are. -/
def RunsMd5sum {σ : Type} (popen : Popen σ) (digest : σ → Bytes → Option Digest) : Prop :=
  ∀ s line name d, name.head? ≠ some 0x2D → digest s name = some d →
    Shell.read line = some (md5Command name [Shell.stderrToStdout]) →
    ∃ s' binary, popen line s = (s', some (md5sumLine d binary name))

theorem ne_zero_of_isHexChar {c : UInt8} (h : isHexChar c = true) : c ≠ 0 := by
  rintro rfl
  revert h
  decide

theorem isDigestChar_of_isHexChar (c : UInt8) (h : isHexChar c = true) : isDigestChar c = true := by
  revert c
  exact forall_byte _ (by decide +kernel)

theorem nulFree_escapeChar {c : UInt8} (hc : c ≠ 0) : NulFree (escapeChar c) := by
  unfold escapeChar
  by_cases hbackslash : c = 0x5C
  · rw [if_pos hbackslash]
    exact (by decide : NulFree (ascii "\\\\"))
  by_cases hnewline : c = 0x0A
  · rw [if_neg hbackslash, if_pos hnewline]
    exact (by decide : NulFree (ascii "\\n"))
  by_cases hreturn : c = 0x0D
  · rw [if_neg hbackslash, if_neg hnewline, if_pos hreturn]
    exact (by decide : NulFree (ascii "\\r"))
  rw [if_neg hbackslash, if_neg hnewline, if_neg hreturn]
  exact nulFree_cons.mpr ⟨hc, List.forall_mem_nil _⟩

/-- Neither the digest nor the name has a NUL, so there is none in the line. -/
theorem nulFree_md5sumLine (d : Digest) (binary : Bool) {name : Bytes} (h : NulFree name) :
    NulFree (md5sumLine d binary name) := by
  have hmark : NulFree (if name.any isEscaped then [0x5C] else []) := by
    split <;> decide
  have hseparators : NulFree [0x20, if binary then 0x2A else 0x20] := by
    cases binary <;> decide
  have hname : NulFree (name.flatMap escapeChar) := by
    intro b hb
    obtain ⟨c, hc, hb⟩ := List.mem_flatMap.mp hb
    exact nulFree_escapeChar (h c hc) b hb
  have hdigest : NulFree d.text := fun c hc => ne_zero_of_isHexChar (d.isHex c hc)
  have hend : NulFree [newline] := by decide
  exact nulFree_append.mpr ⟨hmark, nulFree_append.mpr ⟨hdigest, nulFree_append.mpr
    ⟨hseparators, nulFree_append.mpr ⟨hname, hend⟩⟩⟩⟩

/-! ## What is found in it -/

/-- A digest at the start is found. -/
theorem searchStart_digest (d : Digest) (behind : Bytes) :
    Regex.searchStart digestRe (d.text ++ behind) = some [(1, d.text)] := by
  have htake : (d.text ++ behind).take 32 = d.text := by
    rw [← d.length_eq, List.take_left]
  have hdrop : (d.text ++ behind).drop 32 = behind := by
    rw [← d.length_eq, List.drop_left]
  have hall : d.text.all isDigestChar = true :=
    List.all_eq_true.mpr fun c hc => isDigestChar_of_isHexChar c (d.isHex c hc)
  have hlen : (d.text ++ behind).length - behind.length = 32 := by
    rw [List.length_append, d.length_eq]
    omega
  have hrun : (Regex.Re.times 32 isDigestChar).run ⟨d.text ++ behind, []⟩ = [⟨behind, []⟩] := by
    rw [Regex.Re.run]
    dsimp only
    rw [htake, hdrop, if_pos ⟨by rw [List.length_append, d.length_eq]; omega, hall⟩]
  unfold Regex.searchStart digestRe
  rw [Regex.Re.run, hrun]
  simp only [List.map_cons, List.map_nil, List.head?_cons, Option.map_some, hlen, htake]

/-- Behind a character that is in no digest nothing is found. -/
theorem searchStart_none {c : UInt8} (hc : isDigestChar c = false) (behind : Bytes) :
    Regex.searchStart digestRe (c :: behind) = none := by
  have hrun : (Regex.Re.times 32 isDigestChar).run ⟨c :: behind, []⟩ = [] := by
    rw [Regex.Re.run]
    refine if_neg fun h => ?_
    have hall := List.all_eq_true.mp h.2 c (List.mem_cons_self ..)
    rw [hc] at hall
    cases hall
  unfold Regex.searchStart digestRe
  rw [Regex.Re.run, hrun]
  rfl

theorem judgeMd5_of_digest {result : Buffer} {d : Digest} {behind : Bytes}
    (h : result.Reads (d.text ++ behind)) : judgeMd5 ⟨some result, none⟩ = .returned d.text := by
  unfold judgeMd5
  rw [readResult_of_reads h]
  dsimp only
  rw [searchStart_digest]
  rfl

theorem judgeMd5_of_mark {result : Buffer} {behind : Bytes} (h : result.Reads (0x5C :: behind))
    (text : Bytes) : judgeMd5 ⟨some result, none⟩ ≠ .returned text := by
  unfold judgeMd5
  rw [readResult_of_reads h]
  dsimp only
  rw [searchStart_none (by decide)]
  dsimp only
  split
  · nofun
  · exact formatFailure_ne_returned

/-! ## The call -/

section

variable {σ : Type} {popen : Popen σ} {digest : σ → Bytes → Option Digest} {s : σ}
  {filename : CString} {d : Digest}

/-- What `file_md5` reads of the output is the line for the file. -/
theorem prints_md5sumLine (hpopen : RunsMd5sum popen digest) (hquote : Shell.quote ∉ filename.bytes)
    (hdash : filename.bytes.head? ≠ some 0x2D) (hd : digest s filename.bytes = some d)
    (hfits : filename.bytes.length + 9 < INT_MAX) :
    ∃ s' binary, Prints popen (fileMd5Command filename) s s' (md5sumLine d binary filename.bytes) := by
  have hcmd : fileMd5Command filename = some (md5Line filename.bytes []) := by
    rw [fileMd5Command_eq_if, if_pos hfits]
  have hnul : NulFree (md5Line filename.bytes []) := by
    have hfront : NulFree (ascii "md5sum '") := by decide
    have hbehind : NulFree (ascii "'" ++ []) := by decide
    exact nulFree_append.mpr ⟨hfront, nulFree_append.mpr ⟨filename.nulFree, hbehind⟩⟩
  have hread : Shell.read (execCmdLine (cStr (md5Line filename.bytes [])))
      = some (md5Command filename.bytes [Shell.stderrToStdout]) := by
    rw [cStr_of_nulFree hnul, execCmdLine_md5Line]
    exact (read_md5Line hquote).2
  obtain ⟨s', binary, hrun⟩ := hpopen s _ _ d hdash hd hread
  refine ⟨s', binary, _, _, hcmd, hrun, ?_⟩
  exact (text_of_nulFree (nulFree_md5sumLine d binary filename.nulFree)).symm

/-- A name with nothing to escape. -/
theorem fileMd5_of_plain (hpopen : RunsMd5sum popen digest) (n : Nat)
    (hquote : Shell.quote ∉ filename.bytes) (hdash : filename.bytes.head? ≠ some 0x2D)
    (hd : digest s filename.bytes = some d) (hplain : ∀ c ∈ filename.bytes, isEscaped c = false)
    (hfits : filename.bytes.length + 9 < INT_MAX) :
    (fileMd5 popen (.size (n + 1)) filename s).1 = .returned d.text := by
  have hany : ¬ filename.bytes.any isEscaped = true := by
    intro hany
    obtain ⟨c, hc, hescaped⟩ := List.any_eq_true.mp hany
    rw [hplain c hc] at hescaped
    cases hescaped
  obtain ⟨s', binary, hprints⟩ := prints_md5sumLine hpopen hquote hdash hd hfits
  obtain ⟨result, hreads, hmd5⟩ := fileMd5_of_prints (n := n) hprints
  unfold md5sumLine at hreads
  rw [if_neg hany, List.nil_append] at hreads
  rw [hmd5]
  exact judgeMd5_of_digest hreads

/-- The mark of an escaped name is in front of the digest. -/
theorem fileMd5_of_escaped (hpopen : RunsMd5sum popen digest) (n : Nat)
    (hquote : Shell.quote ∉ filename.bytes) (hdash : filename.bytes.head? ≠ some 0x2D)
    (hd : digest s filename.bytes = some d) {c : UInt8} (hc : c ∈ filename.bytes)
    (hescaped : isEscaped c = true) (hfits : filename.bytes.length + 9 < INT_MAX) (text : Bytes) :
    (fileMd5 popen (.size (n + 1)) filename s).1 ≠ .returned text := by
  obtain ⟨s', binary, hprints⟩ := prints_md5sumLine hpopen hquote hdash hd hfits
  obtain ⟨result, hreads, hmd5⟩ := fileMd5_of_prints (n := n) hprints
  unfold md5sumLine at hreads
  rw [if_pos (List.any_eq_true.mpr ⟨c, hc, hescaped⟩)] at hreads
  rw [hmd5]
  exact judgeMd5_of_mark hreads text

/-- **When the digest is found.** For every file that is there and not empty, under
a name without a single quote that does not start with `-`: `file_md5` returns the digest
`md5sum` computed if and only if there is no backslash, newline or carriage return in the name
and the command fits an `int`. -/
theorem fileMd5_iff (hpopen : RunsMd5sum popen digest) (n : Nat)
    (hquote : Shell.quote ∉ filename.bytes) (hdash : filename.bytes.head? ≠ some 0x2D)
    (hd : digest s filename.bytes = some d) :
    (fileMd5 popen (.size (n + 1)) filename s).1 = .returned d.text ↔
      (∀ c ∈ filename.bytes, isEscaped c = false) ∧ filename.bytes.length + 9 < INT_MAX := by
  constructor
  · intro h
    have hfits : filename.bytes.length + 9 < INT_MAX := by
      by_contra hlong
      have hnone : fileMd5Command filename = none := by
        rw [fileMd5Command_eq_if, if_neg hlong]
      rw [fileMd5_of_none hnone] at h
      dsimp only at h
      exact formatFailure_ne_returned h
    refine ⟨fun c hc => ?_, hfits⟩
    by_contra hescaped
    exact fileMd5_of_escaped hpopen n hquote hdash hd hc (by simpa using hescaped) hfits d.text h
  · intro ⟨hplain, hfits⟩
    exact fileMd5_of_plain hpopen n hquote hdash hd hplain hfits

end

/-! ## One file -/

/-- A world with one file in it. -/
def onlyFile (name : Bytes) (d : Digest) : Popen Unit := fun line s =>
  (s, if Shell.read line = some (md5Command name [Shell.stderrToStdout])
    then some (md5sumLine d false name) else some [])

theorem runsMd5sum_onlyFile (name : Bytes) (d : Digest) :
    RunsMd5sum (onlyFile name d) fun _ m => if m = name then some d else none := by
  intro s line m d' _ hd hread
  dsimp only at hd
  split at hd
  · next hm =>
    cases hd
    subst hm
    refine ⟨s, false, ?_⟩
    unfold onlyFile
    rw [if_pos hread]
  · cases hd

/-- The digest of the repository's `README.md`. -/
def readmeDigest : Digest :=
  ⟨ascii "245b212b6d92f9ebb4d0bfe4665f4337", by decide, by decide⟩

theorem fileMd5_readme :
    (fileMd5 (onlyFile (ascii "README.md") readmeDigest) (.size 1)
        ⟨ascii "README.md", by decide⟩ ()).1 = .returned readmeDigest.text ↔
      (∀ c ∈ ascii "README.md", isEscaped c = false) ∧ (ascii "README.md").length + 9 < INT_MAX :=
  fileMd5_iff (runsMd5sum_onlyFile _ _) 0 (by decide) (by decide) rfl

/-- The digest of a file called `a\b` is not found. -/
theorem digest_not_found :
    ¬ ∀ (popen : Popen Unit) (digest : Unit → Bytes → Option Digest) (filename : CString)
      (d : Digest) (n : Nat), RunsMd5sum popen digest → Shell.quote ∉ filename.bytes →
      filename.bytes.head? ≠ some 0x2D → digest () filename.bytes = some d →
      (fileMd5 popen (.size (n + 1)) filename ()).1 = .returned d.text := by
  intro h
  have hpopen := runsMd5sum_onlyFile (ascii "a\\b") readmeDigest
  have hquote : Shell.quote ∉ ascii "a\\b" := by decide
  have hdash : (ascii "a\\b").head? ≠ some 0x2D := by decide
  have hfits : (ascii "a\\b").length + 9 < INT_MAX := by decide
  have hmark : (0x5C : UInt8) ∈ ascii "a\\b" := by decide
  have hfound := h _ _ ⟨ascii "a\\b", by decide⟩ readmeDigest 0 hpopen hquote hdash rfl
  exact fileMd5_of_escaped hpopen 0 hquote hdash rfl hmark rfl hfits readmeDigest.text hfound

end CommonCpp.Files
