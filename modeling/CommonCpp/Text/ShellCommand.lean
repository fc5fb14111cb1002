import CommonCpp.Lib.ShellCost
import CommonCpp.Text.Format

/-!
# The commands of `common::movebycmd` and `common::file_md5`

Both put a path between single quotes and leave the path as it is. A path
without a single quote is read back literally, whatever else it contains; a
single quote in it ends the quotation. `literal_iff` says that this is exact:
with a quote in a path the line costs a byte more than it has
(`cost_of_read`), so no reading of it gives the intended words, however the
quotes of the two paths combine.
-/

namespace CommonCpp.Text

open CommonCpp.Lib Shell

/-- `formalize_path` on Linux. -/
def formalizePath (path : Bytes) : Bytes := path.map fun c => if c = 0x5C then 0x2F else c

/-- The command `movebycmd` builds on Linux. -/
def movebycmdCommand (source destination : Bytes) : Option Bytes :=
  stringFormat (ascii "mv '%s' '%s' -f")
    [.str (.ofBytes (formalizePath source)), .str (.ofBytes (formalizePath destination))]

/-- The command `file_md5` builds on Linux. -/
def fileMd5Command (filename : CString) : Option Bytes :=
  stringFormat (ascii "md5sum '%s'") [.str filename]

/-- What the command of `movebycmd` has of a path. -/
def operand (path : Bytes) : Bytes := cStr (formalizePath path)

/-- What `exec_cmd` hands to `popen`. -/
def execCmdLine (command : Bytes) : Bytes := command ++ ascii " 2>&1"

/-! ## The texts -/

theorem nulFree_formalizePath {path : Bytes} (h : NulFree path) : NulFree (formalizePath path) := by
  intro b hb
  obtain ⟨c, hc, rfl⟩ := List.mem_map.mp hb
  split
  · decide
  · exact h c hc

theorem quote_mem_formalizePath (path : Bytes) : quote ∈ formalizePath path ↔ quote ∈ path := by
  unfold formalizePath
  rw [List.mem_map]
  constructor
  · intro ⟨c, hc, he⟩
    split at he
    · cases he
    · exact he ▸ hc
  · intro h
    exact ⟨quote, h, rfl⟩

/-- The line `movebycmd` hands to the shell, between `s` and `d`. -/
def moveLine (s d : Bytes) : Bytes :=
  ascii "mv '" ++ (s ++ (ascii "' '" ++ (d ++ ascii "' -f 2>&1")))

/-- The command of `file_md5`, in front of what `exec_cmd` adds. -/
def md5Line (f tail : Bytes) : Bytes := ascii "md5sum '" ++ (f ++ (ascii "'" ++ tail))

theorem snprintf_move (s d : CString) :
    snprintf (ascii "mv '%s' '%s' -f") [.str s, .str d]
      = some (ascii "mv '" ++ (s.bytes ++ (ascii "' '" ++ (d.bytes ++ ascii "' -f")))) := by
  have hformat : ascii "mv '%s' '%s' -f"
      = ascii "mv '" ++ 0x25 :: 0x73 :: (ascii "' '" ++ 0x25 :: 0x73 :: ascii "' -f") := by decide
  rw [hformat, snprintf_append (by decide), snprintf_str, snprintf_append (by decide),
    snprintf_str, snprintf_text (by decide)]
  rfl

theorem snprintf_md5 (f : CString) :
    snprintf (ascii "md5sum '%s'") [.str f] = some (ascii "md5sum '" ++ (f.bytes ++ ascii "'")) := by
  have hformat : ascii "md5sum '%s'" = ascii "md5sum '" ++ 0x25 :: 0x73 :: ascii "'" := by decide
  rw [hformat, snprintf_append (by decide), snprintf_str, snprintf_text (by decide)]
  rfl

/-- The command of `movebycmd`, in front of what `exec_cmd` adds. -/
def moveText (s d : Bytes) : Bytes :=
  ascii "mv '" ++ (s ++ (ascii "' '" ++ (d ++ ascii "' -f")))

theorem length_moveText (s d : Bytes) : (moveText s d).length = s.length + d.length + 11 := by
  have hmv : (ascii "mv '").length = 4 := by decide
  have hbetween : (ascii "' '").length = 3 := by decide
  have hbehind : (ascii "' -f").length = 4 := by decide
  simp only [moveText, List.length_append]
  omega

theorem execCmdLine_moveText (s d : Bytes) : execCmdLine (moveText s d) = moveLine s d := by
  have hbehind : ascii "' -f 2>&1" = ascii "' -f" ++ ascii " 2>&1" := by decide
  unfold execCmdLine moveText moveLine
  rw [hbehind]
  simp only [List.append_assoc]

/-- The command of `movebycmd` is built if its text is short enough. -/
theorem movebycmdCommand_eq_if (source destination : Bytes) :
    movebycmdCommand source destination
      = if (operand source).length + (operand destination).length + 11 < INT_MAX
        then some (moveText (operand source) (operand destination)) else none := by
  rw [← length_moveText]
  unfold movebycmdCommand stringFormat
  rw [snprintf_move, Option.bind_some]
  rfl

theorem operand_of_nulFree {path : Bytes} (h : NulFree path) : operand path = formalizePath path :=
  cStr_of_nulFree (nulFree_formalizePath h)

/-- What `movebycmd` builds, if the text is short enough to be built. -/
theorem execCmdLine_move {source destination cmd : Bytes} (hs : NulFree source)
    (hd : NulFree destination) (h : movebycmdCommand source destination = some cmd) :
    execCmdLine cmd = moveLine (formalizePath source) (formalizePath destination) := by
  rw [movebycmdCommand_eq_if] at h
  split at h
  · cases h
    rw [execCmdLine_moveText, operand_of_nulFree hs, operand_of_nulFree hd]
  · cases h

/-- What `exec_cmd` makes of it. -/
theorem execCmdLine_md5Line (f : Bytes) : execCmdLine (md5Line f []) = md5Line f (ascii " 2>&1") := by
  unfold execCmdLine md5Line
  simp only [List.append_assoc, List.nil_append]

/-- The command of `file_md5` is built if its text is short enough. -/
theorem fileMd5Command_eq_if (filename : CString) :
    fileMd5Command filename
      = if filename.bytes.length + 9 < INT_MAX then some (md5Line filename.bytes []) else none := by
  have hlen : (ascii "md5sum '" ++ (filename.bytes ++ ascii "'")).length
      = filename.bytes.length + 9 := by
    rw [List.length_append, List.length_append, show (ascii "md5sum '").length = 8 from rfl,
      show (ascii "'").length = 1 from rfl]
    omega
  unfold fileMd5Command stringFormat
  rw [snprintf_md5, Option.bind_some, hlen]
  rfl

theorem fileMd5Command_eq {filename : CString} {cmd : Bytes}
    (h : fileMd5Command filename = some cmd) : cmd = md5Line filename.bytes [] := by
  rw [fileMd5Command_eq_if] at h
  split at h
  · cases h
    rfl
  · cases h

/-! ## Without a quote in a path -/

/-- What the caller of `movebycmd` means. -/
def moveCommand (s d : Bytes) : Command := ⟨[ascii "mv", s, d, ascii "-f"], [stderrToStdout]⟩

/-- What the caller of `file_md5` means. -/
def md5Command (f : Bytes) (redirects : List Redirect) : Command :=
  ⟨[ascii "md5sum", f], redirects⟩

/-- Characters outside quotes that stand for themselves. -/
def bare (s : Bytes) : Word := s.map fun c => ⟨c, .plain⟩

theorem literal_bare (s : Bytes) : literal (bare s) = some s := by
  have hchars : (bare s).map Symbol.char = s := by
    unfold bare
    rw [List.map_map]
    exact List.map_id s
  unfold literal
  rw [if_neg, hchars]
  simp [bare]

/-- A quotation and the word it is in end. -/
theorem foldl_close (w : Word) (out : List Token) :
    (ascii "' ").foldl step ⟨.single, .word w, out⟩ = start.behind (out ++ [.word w]) := by
  unfold State.behind start
  rw [List.append_nil]
  rfl

theorem tokens_moveLine {s d : Bytes} (hs : quote ∉ s) (hd : quote ∉ d) :
    tokens (moveLine s d) = some [.word (bare (ascii "mv")), .word (quoted s), .word (quoted d),
      .word (bare (ascii "-f")), .io (bare (ascii "2")), .op (ascii ">&"),
      .word (bare (ascii "1"))] := by
  unfold tokens moveLine
  rw [List.foldl_append, List.foldl_append, List.foldl_append, List.foldl_append]
  have hmv : (ascii "mv '").foldl step start
      = ⟨.single, .word [], [.word (bare (ascii "mv"))]⟩ := by decide
  have hbetween : ∀ w out, (ascii "' '").foldl step ⟨.single, .word w, out⟩
      = ⟨.single, .word [], out ++ [.word w]⟩ := fun _ _ => rfl
  have hbehind : (ascii "-f 2>&1").foldl step start
      = ⟨.plain, .word (bare (ascii "1")),
          [.word (bare (ascii "-f")), .io (bare (ascii "2")), .op (ascii ">&")]⟩ := by decide
  have hsplit : ascii "' -f 2>&1" = ascii "' " ++ ascii "-f 2>&1" := by decide
  rw [hmv, foldl_single hs, hbetween, foldl_single hd, hsplit, List.foldl_append, foldl_close,
    foldl_behind, hbehind]
  rfl

theorem read_moveLine {s d : Bytes} (hs : quote ∉ s) (hd : quote ∉ d) :
    Shell.read (moveLine s d) = some (moveCommand s d) := by
  unfold Shell.read
  rw [tokens_moveLine hs hd, Option.bind_some]
  simp only [simple, literal_bare, literal_quoted, Option.bind_some, Option.map_some]
  rfl

theorem tokens_md5Line {f : Bytes} (hf : quote ∉ f) :
    tokens (md5Line f []) = some [.word (bare (ascii "md5sum")), .word (quoted f)] ∧
      tokens (md5Line f (ascii " 2>&1")) = some [.word (bare (ascii "md5sum")), .word (quoted f),
        .io (bare (ascii "2")), .op (ascii ">&"), .word (bare (ascii "1"))] := by
  unfold tokens md5Line
  simp only [List.foldl_append]
  have hmd5 : (ascii "md5sum '").foldl step start
      = ⟨.single, .word [], [.word (bare (ascii "md5sum"))]⟩ := by decide
  rw [hmd5, foldl_single hf]
  exact ⟨rfl, rfl⟩

theorem read_md5Line {f : Bytes} (hf : quote ∉ f) :
    Shell.read (md5Line f []) = some (md5Command f []) ∧
      Shell.read (md5Line f (ascii " 2>&1")) = some (md5Command f [stderrToStdout]) := by
  obtain ⟨hplain, hline⟩ := tokens_md5Line hf
  unfold Shell.read
  rw [hplain, hline, Option.bind_some, Option.bind_some]
  simp only [simple, literal_bare, literal_quoted, Option.bind_some, Option.map_some]
  exact ⟨rfl, rfl⟩

/-! ## With one -/

theorem length_moveLine (s d : Bytes) : (moveLine s d).length = s.length + d.length + 16 := by
  have hmv : (ascii "mv '").length = 4 := by decide
  have hbetween : (ascii "' '").length = 3 := by decide
  have hbehind : (ascii "' -f 2>&1").length = 9 := by decide
  simp only [moveLine, List.length_append]
  omega

theorem count_moveLine (s d : Bytes) :
    (moveLine s d).count quote = s.count quote + d.count quote + 4 := by
  have hmv : (ascii "mv '").count quote = 1 := by decide
  have hbetween : (ascii "' '").count quote = 2 := by decide
  have hbehind : (ascii "' -f 2>&1").count quote = 1 := by decide
  simp only [moveLine, List.count_append]
  omega

theorem size_moveCommand (s d : Bytes) :
    (moveCommand s d).size = s.length + d.length + 8 := by
  have hsize : (moveCommand s d).size = 2 + (s.length + (d.length + 2)) + 4 := rfl
  omega

theorem quotes_moveCommand (s d : Bytes) :
    (moveCommand s d).quotes = s.count quote + d.count quote := by
  have hquotes : (moveCommand s d).quotes
      = 0 + (s.count quote + (d.count quote + 0)) + 0 := rfl
  omega

/-- If the line of `movebycmd` is the command it should be, there is no quote in it. -/
theorem notMem_of_read_moveLine {s d : Bytes}
    (h : Shell.read (moveLine s d) = some (moveCommand s d)) : quote ∉ s ∧ quote ∉ d := by
  have hzero : (moveCommand s d).quotes = 0 := by
    have hparts : (moveCommand s d).parts = 5 := rfl
    refine quotes_eq_zero 4 h ?_ ?_
    · rw [length_moveLine, size_moveCommand, hparts]
    · rw [count_moveLine, quotes_moveCommand]
  exact ⟨quote_notMem_of_quotes hzero (by simp [moveCommand]),
    quote_notMem_of_quotes hzero (by simp [moveCommand])⟩

/-- The same for `file_md5`, whatever `exec_cmd` adds. -/
theorem notMem_of_read_md5Line {f tail : Bytes} {redirects : List Redirect}
    (htail : tail.length = (redirects.map Redirect.size).sum + redirects.countP fun r => r.io.isSome)
    (hquotes : tail.count quote = (redirects.map Redirect.quotes).sum)
    (h : Shell.read (md5Line f tail) = some (md5Command f redirects)) : quote ∉ f := by
  have hmd5 : (ascii "md5sum '").length = 8 ∧ (ascii "md5sum '").count quote = 1 := by decide
  have hmark : (ascii "'").length = 1 ∧ (ascii "'").count quote = 1 := by decide
  have hzero : (md5Command f redirects).quotes = 0 := by
    refine quotes_eq_zero 2 h ?_ ?_
    · have hsize : (md5Command f redirects).size
          = 6 + (f.length + 0) + (redirects.map Redirect.size).sum := rfl
      have hparts : (md5Command f redirects).parts
          = 2 + redirects.countP fun r => r.io.isSome := rfl
      simp only [md5Line, List.length_append]
      omega
    · have hcount : (md5Command f redirects).quotes
          = 0 + (f.count quote + 0) + (redirects.map Redirect.quotes).sum := rfl
      simp only [md5Line, List.count_append]
      omega
  exact quote_notMem_of_quotes hzero (by simp [md5Command])

/-! ## The commands -/

/-- **When paths reach the shell literally.** For all NUL-free paths: the command
`movebycmd` builds, as `exec_cmd` extends it, is read as `mv`, the two formalized
paths and `-f`, with stderr on stdout, if and only if neither path contains a
single quote; and the command `file_md5` builds is read as `md5sum` and the
filename, by itself and as `exec_cmd` extends it, if and only if the filename
contains none. -/
theorem literal_iff {source destination : Bytes} (hs : NulFree source) (hd : NulFree destination)
    (filename : CString) :
    (∀ cmd, movebycmdCommand source destination = some cmd →
      (Shell.read (execCmdLine cmd)
          = some (moveCommand (formalizePath source) (formalizePath destination)) ↔
        quote ∉ source ∧ quote ∉ destination)) ∧
    ∀ cmd, fileMd5Command filename = some cmd →
      (Shell.read cmd = some (md5Command filename.bytes []) ↔ quote ∉ filename.bytes) ∧
      (Shell.read (execCmdLine cmd) = some (md5Command filename.bytes [stderrToStdout]) ↔
        quote ∉ filename.bytes) := by
  constructor
  · intro cmd hcmd
    rw [execCmdLine_move hs hd hcmd, ← quote_mem_formalizePath source,
      ← quote_mem_formalizePath destination]
    exact ⟨notMem_of_read_moveLine, fun h => read_moveLine h.1 h.2⟩
  · intro cmd hcmd
    rw [fileMd5Command_eq hcmd, execCmdLine_md5Line]
    exact ⟨⟨notMem_of_read_md5Line rfl rfl, fun h => (read_md5Line h).1⟩,
      ⟨notMem_of_read_md5Line rfl rfl, fun h => (read_md5Line h).2⟩⟩

/-- A source `x' 'y` is two words: the command moves two files, of other names. -/
theorem quote_splits_source :
    NulFree (ascii "x' 'y") ∧ NulFree (ascii "d") ∧
      ∃ cmd, movebycmdCommand (ascii "x' 'y") (ascii "d") = some cmd ∧
        Shell.read (execCmdLine cmd) = some ⟨[ascii "mv", ascii "x", ascii "y", ascii "d", ascii "-f"],
          [stderrToStdout]⟩ ∧
        Shell.read (execCmdLine cmd)
          ≠ some (moveCommand (formalizePath (ascii "x' 'y")) (formalizePath (ascii "d"))) :=
  ⟨by decide, by decide, ascii "mv 'x' 'y' 'd' -f", by decide +kernel, by decide +kernel,
    by decide +kernel⟩

theorem literal_iff_metacharacters :
    Shell.read (execCmdLine (ascii "mv '$(a) \"b;' 'c*>d' -f"))
        = some (moveCommand (ascii "$(a) \"b;") (ascii "c*>d")) ∧
      Shell.read (execCmdLine (ascii "md5sum '`a`&#'"))
        = some (md5Command (ascii "`a`&#") [stderrToStdout]) := by
  have hs : NulFree (ascii "$(a) \"b;") := by decide
  have hd : NulFree (ascii "c*>d") := by decide
  obtain ⟨hmove, hmd5⟩ := literal_iff hs hd ⟨ascii "`a`&#", by decide⟩
  exact ⟨(hmove _ (by decide +kernel)).mpr ⟨by decide, by decide⟩,
    (hmd5 _ (by decide +kernel)).2.mpr (by decide)⟩

end CommonCpp.Text
