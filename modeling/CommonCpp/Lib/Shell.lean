import CommonCpp.Lib.Bytes

/-!
# The POSIX shell's reading of one line

Tokens are recognised one character at a time: quoting, operators, blanks,
comments, and the digits in front of a redirection. A character of a word keeps
how it was written, because only what is neither quoted nor special stands for
itself: `active` ones start an expansion. Under `read` a line is one simple
command of literal words and redirections, or nothing.

The locale is the POSIX one, aliases and here-documents are left out, and a
character that may start an expansion counts as one.
-/

namespace CommonCpp.Lib.Shell

/-- How a character of a word was written. -/
inductive Kind where
  | plain
  | quoted
  | active
deriving DecidableEq

/-- A character of a word. -/
structure Symbol where
  char : UInt8
  kind : Kind
deriving DecidableEq

abbrev Word := List Symbol

inductive Token where
  | word (w : Word)
  /-- The digits directly in front of `<` or `>`. -/
  | io (w : Word)
  | op (o : Bytes)
deriving DecidableEq

/-! ## Characters -/

/-- `'` -/
def quote : UInt8 := 0x27

def isBlank (c : UInt8) : Bool := c == 0x20 || c == 0x09

def newline : UInt8 := 0x0A

def backslash : UInt8 := 0x5C

def dquote : UInt8 := 0x22

/-- What is special inside double quotes: `$` and `` ` `` there, and the
characters a backslash escapes. -/
def isDollar (c : UInt8) : Bool := c == 0x24 || c == 0x60

/-- The control operators and the redirections. -/
def operators : List Bytes :=
  [ascii "&", ascii "&&", ascii "(", ascii ")", ascii ";", ascii ";;", ascii "|", ascii "||",
    [newline], ascii "<", ascii ">", ascii "<<", ascii "<<-", ascii ">>", ascii "<&", ascii ">&",
    ascii "<>", ascii ">|"]

/-- The redirections. -/
def redirections : List Bytes :=
  [ascii "<", ascii ">", ascii ">>", ascii "<&", ascii ">&", ascii "<>", ascii ">|"]

/-- An unquoted character that starts an expansion: of a parameter, a command
or a pattern, or of a home directory at the start of a word. -/
def isActive (first : Bool) (c : UInt8) : Bool :=
  isDollar c || c == 0x2A || c == 0x3F || c == 0x5B || (first && c == 0x7E)

def isDigit (s : Symbol) : Bool := s.kind == .plain && 0x30 ≤ s.char && s.char ≤ 0x39

/-! ## The tokenizer -/

inductive Mode where
  | plain
  /-- Behind a backslash. -/
  | escape
  | single
  | double
  /-- Behind a backslash in double quotes. -/
  | doubleEscape
  | comment
deriving DecidableEq

/-- The token being read. -/
inductive Current where
  | none
  | word (w : Word)
  | op (o : Bytes)
deriving DecidableEq

structure State where
  mode : Mode
  cur : Current
  out : List Token
deriving DecidableEq

def start : State := ⟨.plain, .none, []⟩

/-- The word read so far. -/
def Current.text : Current → Word
  | .word w => w
  | .none | .op _ => []

/-- Add a character to the current word, which starts here if there is none. -/
def State.push (s : State) (mode : Mode) (x : Symbol) : State :=
  ⟨mode, .word (s.cur.text ++ [x]), s.out⟩

/-- A quotation mark: a word starts here if there is none. -/
def State.enter (s : State) (mode : Mode) : State := ⟨mode, .word s.cur.text, s.out⟩

/-- The current token ends. -/
def State.emit (s : State) : State :=
  match s.cur with
  | .none => s
  | .word w => ⟨s.mode, .none, s.out ++ [.word w]⟩
  | .op o => ⟨s.mode, .none, s.out ++ [.op o]⟩

/-- An operator starts, and ends the current word. -/
def State.operator (s : State) (c : UInt8) : State :=
  match s.cur with
  | .word w =>
    if w ≠ [] ∧ w.all isDigit = true ∧ (c = 0x3C ∨ c = 0x3E) then
      ⟨.plain, .op [c], s.out ++ [.io w]⟩
    else ⟨.plain, .op [c], s.out ++ [.word w]⟩
  | .none | .op _ => ⟨.plain, .op [c], s.out⟩

/-- One unquoted character that does not continue an operator. -/
def State.fresh (s : State) (c : UInt8) : State :=
  if c = backslash then { s with mode := .escape }
  else if c = quote then s.enter .single
  else if c = dquote then s.enter .double
  else if isBlank c then s.emit
  else if [c] ∈ operators then s.operator c
  else if c = 0x23 ∧ s.cur = .none then { s with mode := .comment }
  else if isActive (s.cur.text = []) c then s.push .plain ⟨c, .active⟩
  else s.push .plain ⟨c, .plain⟩

/-- One unquoted character. -/
def State.unquoted (s : State) (c : UInt8) : State :=
  match s.cur with
  | .op o => if o ++ [c] ∈ operators then { s with cur := .op (o ++ [c]) } else s.emit.fresh c
  | .none | .word _ => s.fresh c

/-- One character of the line. -/
def step (s : State) (c : UInt8) : State :=
  match s.mode with
  | .plain => s.unquoted c
  | .escape => if c = newline then { s with mode := .plain } else s.push .plain ⟨c, .quoted⟩
  | .single => if c = quote then s.enter .plain else s.push .single ⟨c, .quoted⟩
  | .double =>
    if c = dquote then s.enter .plain
    else if c = backslash then s.enter .doubleEscape
    else if isDollar c then s.push .double ⟨c, .active⟩
    else s.push .double ⟨c, .quoted⟩
  | .doubleEscape =>
    if c = newline then s.enter .double
    else if isDollar c ∨ c = dquote ∨ c = backslash then s.push .double ⟨c, .quoted⟩
    else (s.push .double ⟨backslash, .quoted⟩).push .double ⟨c, .quoted⟩
  | .comment => if c = newline then ⟨.plain, .op [newline], s.out⟩ else s

/-- The tokens of a line; `none` inside an open quotation. -/
def tokens (line : Bytes) : Option (List Token) :=
  let s := line.foldl step start
  match s.mode with
  | .plain | .comment => some s.emit.out
  | .escape => some (s.push .plain ⟨backslash, .quoted⟩).emit.out
  | .single | .double | .doubleEscape => none

/-! ## What is behind does not depend on what is in front -/

/-- The state, with `ts` read before. -/
def State.behind (ts : List Token) (s : State) : State := { s with out := ts ++ s.out }

theorem emit_behind (ts : List Token) (s : State) : (s.behind ts).emit = s.emit.behind ts := by
  obtain ⟨mode, cur, out⟩ := s
  cases cur with
  | none => rfl
  | word w => simp [State.behind, State.emit]
  | op o => simp [State.behind, State.emit]

theorem operator_behind (ts : List Token) (s : State) (c : UInt8) :
    (s.behind ts).operator c = (s.operator c).behind ts := by
  obtain ⟨mode, cur, out⟩ := s
  cases cur with
  | none => rfl
  | word w =>
    unfold State.operator
    dsimp only [State.behind]
    split <;> simp
  | op o => rfl

theorem fresh_behind (ts : List Token) (s : State) (c : UInt8) :
    (s.behind ts).fresh c = (s.fresh c).behind ts := by
  unfold State.fresh
  rw [emit_behind, operator_behind]
  simp only [apply_ite (State.behind ts)]
  rfl

theorem step_behind (ts : List Token) (s : State) (c : UInt8) :
    step (s.behind ts) c = (step s c).behind ts := by
  obtain ⟨mode, cur, out⟩ := s
  cases mode with
  | plain =>
    cases cur with
    | none => exact fresh_behind ts ⟨.plain, .none, out⟩ c
    | word w => exact fresh_behind ts ⟨.plain, .word w, out⟩ c
    | op o =>
      have hemit := emit_behind ts ⟨.plain, .op o, out⟩
      have hfresh := fresh_behind ts (State.emit ⟨.plain, .op o, out⟩) c
      rw [← hemit] at hfresh
      show (if o ++ [c] ∈ operators then _ else _) = State.behind ts (if _ then _ else _)
      rw [apply_ite (State.behind ts), ← hfresh]
      rfl
  | _ =>
    simp only [step, apply_ite (State.behind ts)]
    rfl

/-- A text is read alike whatever tokens are in front of it. -/
theorem foldl_behind (ts : List Token) (s : State) (text : Bytes) :
    text.foldl step (s.behind ts) = (text.foldl step s).behind ts := by
  induction text generalizing s with
  | nil => rfl
  | cons c text ih => rw [List.foldl_cons, List.foldl_cons, step_behind, ih]

/-! ## Simple commands -/

/-- What a word stands for, if nothing in it is expanded. -/
def literal (w : Word) : Option Bytes :=
  if w.any (fun x => x.kind == .active) then none else some (w.map Symbol.char)

/-- A redirection: the digits in front of it, the operator, the word behind. -/
structure Redirect where
  io : Option Bytes
  op : Bytes
  word : Bytes
deriving DecidableEq

/-- A simple command without expansions. -/
structure Command where
  words : List Bytes
  redirects : List Redirect
deriving DecidableEq

def Command.addWord (t : Bytes) (c : Command) : Command := { c with words := t :: c.words }

def Command.addRedirect (r : Redirect) (c : Command) : Command :=
  { c with redirects := r :: c.redirects }

/-- The tokens as one simple command of literal words and redirections. -/
def simple : List Token → Option Command
  | [] => some ⟨[], []⟩
  | .word w :: ts => (literal w).bind fun t => (simple ts).map (Command.addWord t)
  | .io n :: .op o :: .word w :: ts =>
    if o ∈ redirections then
      (literal w).bind fun t =>
        (simple ts).map (Command.addRedirect ⟨some (n.map Symbol.char), o, t⟩)
    else none
  | .op o :: .word w :: ts =>
    if o ∈ redirections then
      (literal w).bind fun t => (simple ts).map (Command.addRedirect ⟨none, o, t⟩)
    else none
  | _ => none

/-- The line as one simple command without expansions. -/
def read (line : Bytes) : Option Command := (tokens line).bind simple

/-- `2>&1` -/
def stderrToStdout : Redirect := ⟨some (ascii "2"), ascii ">&", ascii "1"⟩

/-! ## Text in single quotes -/

/-- Characters written inside quotes. -/
def quoted (s : Bytes) : Word := s.map fun c => ⟨c, .quoted⟩

theorem literal_quoted (s : Bytes) : literal (quoted s) = some s := by
  have hchars : (quoted s).map Symbol.char = s := by
    unfold quoted
    rw [List.map_map]
    exact List.map_id s
  unfold literal
  rw [if_neg, hchars]
  simp [quoted]

/-- Behind a single quote, text without one is taken as it is. -/
theorem foldl_single {s : Bytes} (h : quote ∉ s) (w : Word) (out : List Token) :
    s.foldl step ⟨.single, .word w, out⟩ = ⟨.single, .word (w ++ quoted s), out⟩ := by
  induction s generalizing w with
  | nil => simp [quoted]
  | cons c s ih =>
    have hc : c ≠ quote := fun he => h (by rw [he]; exact List.mem_cons_self ..)
    have hstep : step ⟨.single, .word w, out⟩ c = ⟨.single, .word (w ++ [⟨c, .quoted⟩]), out⟩ :=
      if_neg hc
    rw [List.foldl_cons, hstep, ih fun hm => h (List.mem_cons_of_mem _ hm), List.append_assoc]
    rfl

example : read (ascii "mv 'a b' \"c\"\\ d 2>&1")
    = some ⟨[ascii "mv", ascii "a b", ascii "c d"], [stderrToStdout]⟩ := by decide

end CommonCpp.Lib.Shell
