import CommonCpp.Lib.Shell
import Mathlib.Algebra.Ring.Nat

/-!
# What a shell line has to be made of

Every character of a word and of an operator is in the line; between two words
there is a blank; a quote that is not a character of a word is a quotation mark;
and a quote that is one needs something else around it, a backslash or a double
quote. `Spent` adds that up while the line is read (`spent_step`), and
`cost_of_read` says what it comes to for a line that is a simple command. A
line with no byte to spare for that last item has no quote in its words.
-/

namespace CommonCpp.Lib.Shell

/-! ## Counting in tokens -/

def Token.size : Token → Nat
  | .word w | .io w => w.length
  | .op o => o.length

/-- The quotes among the characters of a word. -/
def wordQuotes (w : Word) : Nat := w.countP fun x => x.char == quote

def Token.quotes : Token → Nat
  | .word w | .io w => wordQuotes w
  | .op _ => 0

def size (ts : List Token) : Nat := (ts.map Token.size).sum

def quotes (ts : List Token) : Nat := (ts.map Token.quotes).sum

def Token.isWord : Token → Bool
  | .word _ => true
  | .io _ | .op _ => false

/-- A word, or the digits in front of a redirection. -/
def Token.wordlike : Token → Bool
  | .word _ | .io _ => true
  | .op _ => false

/-- One where the last token is a word: the blank behind it. -/
def pause (ts : List Token) : Nat :=
  match ts.getLast? with
  | some t => if t.isWord then 1 else 0
  | none => 0

/-- The places where only a blank can have kept two tokens apart. -/
def gaps : List Token → Nat
  | [] => 0
  | [_] => 0
  | t :: u :: ts => (if t.isWord && u.wordlike then 1 else 0) + gaps (u :: ts)

theorem size_append (ts us : List Token) : size (ts ++ us) = size ts + size us := by
  simp [size]

theorem pause_snoc (ts : List Token) (u : Token) :
    pause (ts ++ [u]) = if u.isWord then 1 else 0 := by
  rw [pause, List.getLast?_concat]

theorem gaps_snoc (ts : List Token) (u : Token) :
    gaps (ts ++ [u]) = gaps ts + if u.wordlike then pause ts else 0 := by
  induction ts with
  | nil => cases u <;> rfl
  | cons t ts ih =>
    cases ts with
    | nil => cases t <;> cases u <;> rfl
    | cons t' ts =>
      have hlast : pause (t :: t' :: ts) = pause (t' :: ts) := by
        rw [pause, List.getLast?_cons_cons, pause]
      rw [List.cons_append, List.cons_append, gaps, ← List.cons_append, ih, gaps, hlast]
      omega

/-! ## Counting in a state -/

def Current.size : Current → Nat
  | .none => 0
  | .word w => w.length
  | .op o => o.length

def Current.quotes : Current → Nat
  | .word w => wordQuotes w
  | .none | .op _ => 0

/-- The blank between the last word and the next, unless an operator parts them. -/
def State.blank (s : State) : Nat :=
  match s.cur with
  | .none | .word _ => pause s.out
  | .op _ => 0

/-- The bytes the tokens and the blanks between them take. -/
def State.load (s : State) : Nat := size s.out + gaps s.out + s.cur.size + s.blank

/-- The quotes that are characters of a word. -/
def State.quotes (s : State) : Nat := Shell.quotes s.out + s.cur.quotes

/-- The bytes, apart from quotes, that the quoting has taken at least. -/
def State.extra (s : State) : Nat :=
  match s.mode with
  | .escape => 1 + min 1 s.quotes
  | .double => 1
  | .doubleEscape => 2
  | .plain | .single | .comment => min 1 s.quotes

/-- What the `n` bytes read so far, `q` of them quotes, have been spent on. -/
def Spent (n q : Nat) (s : State) : Prop := s.load + s.extra + q ≤ n + s.quotes

/-- The current token is no operator. -/
def State.InWord (s : State) : Prop := ∀ o, s.cur ≠ .op o

section

variable {s : State}

theorem load_push (h : s.InWord) (m : Mode) (x : Symbol) : (s.push m x).load = s.load + 1 := by
  obtain ⟨mode, cur, out⟩ := s
  cases cur with
  | none => simp [State.push, State.load, Current.size, Current.text, State.blank]; omega
  | word w => simp [State.push, State.load, Current.size, Current.text, State.blank]; omega
  | op o => exact absurd rfl (h o)

theorem quotes_push (h : s.InWord) (m : Mode) (x : Symbol) :
    (s.push m x).quotes = s.quotes + if x.char = quote then 1 else 0 := by
  obtain ⟨mode, cur, out⟩ := s
  cases cur with
  | none =>
    simp [State.push, State.quotes, Current.quotes, Current.text, wordQuotes, List.countP_cons]
  | word w =>
    simp [State.push, State.quotes, Current.quotes, Current.text, wordQuotes, List.countP_cons]
    omega
  | op o => exact absurd rfl (h o)

theorem load_enter (h : s.InWord) (m : Mode) : (s.enter m).load = s.load := by
  obtain ⟨mode, cur, out⟩ := s
  cases cur with
  | none => simp [State.enter, State.load, Current.size, Current.text, State.blank]
  | word w => simp [State.enter, State.load, Current.size, Current.text, State.blank]
  | op o => exact absurd rfl (h o)

theorem quotes_enter (h : s.InWord) (m : Mode) : (s.enter m).quotes = s.quotes := by
  obtain ⟨mode, cur, out⟩ := s
  cases cur with
  | none => simp [State.enter, State.quotes, Current.quotes, Current.text, wordQuotes]
  | word w => rfl
  | op o => exact absurd rfl (h o)

theorem quotes_emit : s.emit.quotes = s.quotes := by
  obtain ⟨mode, cur, out⟩ := s
  cases cur <;> simp [State.emit, State.quotes, Current.quotes, Shell.quotes, Token.quotes]

/-- An operator that ends leaves no gap. -/
theorem load_emit_op {o : Bytes} (h : s.cur = .op o) : s.emit.load = s.load := by
  obtain ⟨mode, cur, out⟩ := s
  cases h
  simp only [State.emit, State.load, State.blank, Current.size, size_append, gaps_snoc,
    pause_snoc]
  simp [Token.isWord, Token.wordlike, size, Token.size]
  omega

/-- A word that ends is behind a blank. -/
theorem load_emit : s.emit.load ≤ s.load + 1 := by
  cases hcur : s.cur with
  | none =>
    rw [State.emit, hcur]
    exact Nat.le_succ _
  | word w =>
    obtain ⟨mode, cur, out⟩ := s
    cases hcur
    simp only [State.emit, State.load, State.blank, Current.size, size_append, gaps_snoc,
      pause_snoc]
    simp [Token.isWord, Token.wordlike, size, Token.size]
    omega
  | op o =>
    rw [load_emit_op hcur]
    exact Nat.le_succ _

theorem load_operator (h : s.InWord) (c : UInt8) : (s.operator c).load ≤ s.load + 1 := by
  obtain ⟨mode, cur, out⟩ := s
  cases cur with
  | none => simp [State.operator, State.load, State.blank, Current.size]
  | word w =>
    unfold State.operator
    dsimp only
    split
    all_goals
      simp only [State.load, State.blank, Current.size, size_append, gaps_snoc]
      simp [Token.wordlike, size, Token.size]
      omega
  | op o => exact absurd rfl (h o)

theorem quotes_operator (h : s.InWord) (c : UInt8) : (s.operator c).quotes = s.quotes := by
  obtain ⟨mode, cur, out⟩ := s
  cases cur with
  | none => rfl
  | word w =>
    unfold State.operator
    dsimp only
    split
    all_goals simp [State.quotes, Current.quotes, Shell.quotes, Token.quotes]
  | op o => exact absurd rfl (h o)

end

/-! ## One character -/

/-- The byte is a quote. -/
def mark (c : UInt8) : Nat := if c = quote then 1 else 0

theorem mark_of_ne {c : UInt8} (h : c ≠ quote) : mark c = 0 := if_neg h

/-- Only the plain mode can follow an operator, and a comment no part of a word. -/
def Sound (s : State) : Prop :=
  (s.mode ≠ .plain → s.InWord) ∧ (s.mode = .comment → s.cur = .none)

section

variable {n q : Nat} {s : State}

theorem sound_plain (hm : s.mode = .plain) : Sound s := by
  refine ⟨fun hne => absurd hm hne, fun hc => ?_⟩
  rw [hm] at hc
  cases hc

theorem sound_word (hw : s.InWord) (hm : s.mode ≠ .comment) : Sound s :=
  ⟨fun _ => hw, fun hc => absurd hc hm⟩

theorem inWord_push (m : Mode) (x : Symbol) : (s.push m x).InWord := by
  intro o h
  cases h

theorem inWord_enter (m : Mode) : (s.enter m).InWord := by
  intro o h
  cases h

theorem inWord_emit : s.emit.InWord := by
  obtain ⟨mode, cur, out⟩ := s
  cases cur <;> intro o h <;> cases h

theorem mode_emit : s.emit.mode = s.mode := by
  obtain ⟨mode, cur, out⟩ := s
  cases cur <;> rfl

theorem mode_operator (c : UInt8) : (s.operator c).mode = .plain := by
  obtain ⟨mode, cur, out⟩ := s
  cases cur with
  | none => rfl
  | word w => unfold State.operator; dsimp only; split <;> rfl
  | op o => rfl

/-- A character of a word. -/
theorem spent_push (h : Spent n q s) (hw : s.InWord) {c : UInt8} {m : Mode} {k : Kind}
    (hextra : (s.push m ⟨c, k⟩).extra ≤ s.extra) :
    Spent (n + 1) (q + mark c) (s.push m ⟨c, k⟩) := by
  unfold Spent at h ⊢
  rw [load_push hw, quotes_push hw]
  show s.load + 1 + _ + (q + mark c) ≤ n + 1 + (s.quotes + mark c)
  omega

/-- A quotation mark, or the backslash in double quotes. -/
theorem spent_enter (h : Spent n q s) (hw : s.InWord) {c : UInt8} {m : Mode}
    (hextra : (s.enter m).extra + mark c ≤ s.extra + 1) :
    Spent (n + 1) (q + mark c) (s.enter m) := by
  unfold Spent at h ⊢
  rw [load_enter hw, quotes_enter hw]
  omega

/-- A character that only changes how the next one is read. -/
theorem spent_mode (h : Spent n q s) {c : UInt8} {m : Mode}
    (hextra : ({ s with mode := m } : State).extra + mark c ≤ s.extra + 1) :
    Spent (n + 1) (q + mark c) { s with mode := m } := by
  have hload : ({ s with mode := m } : State).load = s.load := rfl
  have hquotes : ({ s with mode := m } : State).quotes = s.quotes := rfl
  unfold Spent at h ⊢
  omega

/-- Outside double quotes only a quote among the characters needs something around it. -/
theorem extra_push_plain (hw : s.InWord) {c : UInt8} (k : Kind) :
    (s.push .plain ⟨c, k⟩).extra = min 1 (s.quotes + mark c) ∧
      (s.push .single ⟨c, k⟩).extra = min 1 (s.quotes + mark c) := by
  have hplain := quotes_push hw .plain ⟨c, k⟩
  have hsingle := quotes_push hw .single ⟨c, k⟩
  exact ⟨congrArg (min 1) hplain, congrArg (min 1) hsingle⟩

theorem extra_enter_plain (hw : s.InWord) :
    (s.enter .plain).extra = min 1 s.quotes ∧ (s.enter .single).extra = min 1 s.quotes :=
  ⟨congrArg (min 1) (quotes_enter hw .plain), congrArg (min 1) (quotes_enter hw .single)⟩

/-- A character outside quotes. -/
theorem spent_fresh (h : Spent n q s) (hm : s.mode = .plain) (hw : s.InWord) (c : UInt8) :
    Spent (n + 1) (q + mark c) (s.fresh c) ∧ Sound (s.fresh c) := by
  have hextra : s.extra = min 1 s.quotes := by rw [State.extra, hm]
  unfold State.fresh
  -- a backslash, the two quotation marks, then what a quote is not
  split
  · next hc =>
    have hmark : mark c = 0 := by rw [hc]; decide
    have hextra' : ({ s with mode := .escape } : State).extra = 1 + min 1 s.quotes := rfl
    exact ⟨spent_mode h (by omega), sound_word hw nofun⟩
  split
  · next hc =>
    have hmark : mark c = 1 := if_pos hc
    have hextra' := (extra_enter_plain hw).2
    exact ⟨spent_enter h hw (by omega), sound_word (inWord_enter _) nofun⟩
  split
  · next hc =>
    have hmark : mark c = 0 := by rw [hc]; decide
    have hextra' : (s.enter .double).extra = 1 := rfl
    exact ⟨spent_enter h hw (by omega), sound_word (inWord_enter _) nofun⟩
  next _ hquote _ =>
  have hmark : mark c = 0 := mark_of_ne hquote
  split
  · have hextra' : s.emit.extra = min 1 s.emit.quotes := by rw [State.extra, mode_emit, hm]
    have hload := load_emit (s := s)
    unfold Spent at h ⊢
    rw [hextra', quotes_emit]
    exact ⟨by omega, sound_plain (mode_emit.trans hm)⟩
  split
  · have hextra' : (s.operator c).extra = min 1 (s.operator c).quotes := by
      rw [State.extra, mode_operator]
    have hload := load_operator hw c
    unfold Spent at h ⊢
    rw [hextra', quotes_operator hw]
    exact ⟨by omega, sound_plain (mode_operator c)⟩
  split
  · next hhash =>
    have hextra' : ({ s with mode := .comment } : State).extra = min 1 s.quotes := rfl
    exact ⟨spent_mode h (by omega), fun _ => hw, fun _ => hhash.2⟩
  all_goals
    split
    all_goals
      have hextra' := fun k => (extra_push_plain hw (c := c) k).1
      refine ⟨spent_push h hw ?_, sound_word (inWord_push _ _) nofun⟩
      rw [hextra', hextra]
      omega

theorem spent_unquoted (h : Spent n q s) (hm : s.mode = .plain) (c : UInt8) :
    Spent (n + 1) (q + mark c) (s.unquoted c) ∧ Sound (s.unquoted c) := by
  obtain ⟨mode, cur, out⟩ := s
  cases hm
  cases cur with
  | none => exact spent_fresh h rfl (fun o ho => by cases ho) c
  | word w => exact spent_fresh h rfl (fun o ho => by cases ho) c
  | op o =>
    unfold State.unquoted
    dsimp only
    split
    · next hop =>
      -- the longer operator is none of the quotes either
      have hc : c ≠ quote := by
        intro hc
        subst hc
        have hnone : ∀ p ∈ operators, quote ∉ p := by decide
        exact hnone _ hop (List.mem_append_right _ (List.mem_singleton.mpr rfl))
      refine ⟨?_, sound_plain rfl⟩
      rw [mark_of_ne hc]
      unfold Spent State.extra State.load State.blank State.quotes Current.size at h ⊢
      dsimp only at h ⊢
      rw [List.length_append, List.length_singleton]
      have hquotes : (Current.op (o ++ [c])).quotes = (Current.op o).quotes := rfl
      omega
    · refine spent_fresh ?_ mode_emit inWord_emit c
      unfold Spent at h ⊢
      rw [load_emit_op rfl, quotes_emit, State.extra, mode_emit, quotes_emit]
      exact h

/-- Every character is paid for. -/
theorem spent_step (h : Spent n q s) (hs : Sound s) (c : UInt8) :
    Spent (n + 1) (q + mark c) (step s c) ∧ Sound (step s c) := by
  have hle : mark c ≤ 1 := by unfold mark; split <;> omega
  unfold step
  cases hm : s.mode with
  | plain => exact spent_unquoted h hm c
  | escape =>
    have hw : s.InWord := hs.1 (by rw [hm]; decide)
    have hextra : s.extra = 1 + min 1 s.quotes := by rw [State.extra, hm]
    dsimp only
    split
    · next hc =>
      have hmark : mark c = 0 := by rw [hc]; decide
      have hextra' : ({ s with mode := .plain } : State).extra = min 1 s.quotes := rfl
      exact ⟨spent_mode h (by omega), sound_plain rfl⟩
    · have hextra' := (extra_push_plain hw (c := c) .quoted).1
      exact ⟨spent_push h hw (by omega), sound_plain rfl⟩
  | single =>
    have hw : s.InWord := hs.1 (by rw [hm]; decide)
    have hextra : s.extra = min 1 s.quotes := by rw [State.extra, hm]
    dsimp only
    split
    · next hc =>
      have hextra' := (extra_enter_plain hw).1
      exact ⟨spent_enter h hw (by omega), sound_plain rfl⟩
    · next hc =>
      have hmark : mark c = 0 := mark_of_ne hc
      have hextra' := (extra_push_plain hw (c := c) .quoted).2
      exact ⟨spent_push h hw (by omega), sound_word (inWord_push _ _) nofun⟩
  | double =>
    have hw : s.InWord := hs.1 (by rw [hm]; decide)
    have hextra : s.extra = 1 := by rw [State.extra, hm]
    dsimp only
    split
    · next hc =>
      have hmark : mark c = 0 := by rw [hc]; decide
      have hextra' := (extra_enter_plain hw).1
      exact ⟨spent_enter h hw (by omega), sound_plain rfl⟩
    split
    · next hc =>
      have hmark : mark c = 0 := by rw [hc]; decide
      have hextra' : (s.enter .doubleEscape).extra = 2 := rfl
      exact ⟨spent_enter h hw (by omega), sound_word (inWord_enter _) nofun⟩
    all_goals
      split
      all_goals exact ⟨spent_push h hw hextra.ge, sound_word (inWord_push _ _) nofun⟩
  | doubleEscape =>
    have hw : s.InWord := hs.1 (by rw [hm]; decide)
    have hextra : s.extra = 2 := by rw [State.extra, hm]
    dsimp only
    split
    · next hc =>
      have hmark : mark c = 0 := by rw [hc]; decide
      have hextra' : (s.enter .double).extra = 1 := rfl
      exact ⟨spent_enter h hw (by omega), sound_word (inWord_enter _) nofun⟩
    split
    · have hextra' : (s.push .double ⟨c, .quoted⟩).extra = 1 := rfl
      exact ⟨spent_push h hw (by omega), sound_word (inWord_push _ _) nofun⟩
    · -- the backslash was a character after all, and paid for when it came
      have hw' : (s.push .double ⟨backslash, .quoted⟩).InWord := inWord_push _ _
      have hback : Spent n q (s.push .double ⟨backslash, .quoted⟩) := by
        have hextra' : (s.push .double ⟨backslash, .quoted⟩).extra = 1 := rfl
        unfold Spent at h ⊢
        rw [load_push hw, quotes_push hw, hextra', if_neg (by decide)]
        omega
      exact ⟨spent_push hback hw' (Nat.le_refl 1), sound_word (inWord_push _ _) nofun⟩
  | comment =>
    -- the newline behind a comment is an operator of its own
    have hnone : s.cur = .none := hs.2 hm
    have hextra : s.extra = min 1 s.quotes := by rw [State.extra, hm]
    dsimp only
    split
    · next hc =>
      have hmark : mark c = 0 := by rw [hc]; decide
      refine ⟨?_, sound_plain rfl⟩
      unfold Spent at h ⊢
      unfold State.extra State.load State.blank State.quotes at h ⊢
      rw [hm, hnone] at h
      dsimp only at h ⊢
      have hsize : (Current.op [newline]).size = 1 := rfl
      have hquotes : (Current.op [newline]).quotes = Current.none.quotes := rfl
      have hnil : Current.none.size = 0 := rfl
      omega
    · unfold Spent at h ⊢
      exact ⟨by omega, hs⟩

end

/-! ## A line -/

/-- Every line is paid for. -/
theorem spent_foldl (line : Bytes) {n q : Nat} {s : State} (h : Spent n q s) (hs : Sound s) :
    Spent (n + line.length) (q + line.count quote) (line.foldl step s) ∧
      Sound (line.foldl step s) := by
  induction line generalizing n q s with
  | nil => exact ⟨h, hs⟩
  | cons c line ih =>
    obtain ⟨h', hs'⟩ := spent_step h hs c
    obtain ⟨hrest, hsound⟩ := ih h' hs'
    refine ⟨?_, hsound⟩
    have hmark : (if c = quote then 1 else 0) = mark c := rfl
    rw [List.foldl_cons, List.length_cons, List.count_cons]
    simp only [beq_iff_eq]
    rw [hmark]
    unfold Spent at hrest ⊢
    omega

theorem cost_emit (s : State) :
    size s.emit.out + gaps s.emit.out ≤ s.load ∧ quotes s.emit.out = s.quotes := by
  obtain ⟨mode, cur, out⟩ := s
  cases cur with
  | none =>
    refine ⟨?_, rfl⟩
    show size out + gaps out ≤ size out + gaps out + 0 + pause out
    omega
  | word w =>
    refine ⟨?_, ?_⟩
    · show size (out ++ [.word w]) + gaps (out ++ [.word w]) ≤ size out + gaps out + w.length + pause out
      rw [size_append, gaps_snoc]
      simp only [size, Token.size, Token.wordlike, List.map_cons, List.map_nil, List.sum_cons,
        List.sum_nil, if_true]
      omega
    · simp [State.emit, State.quotes, Current.quotes, quotes, Token.quotes]
  | op o =>
    refine ⟨?_, ?_⟩
    · show size (out ++ [.op o]) + gaps (out ++ [.op o]) ≤ size out + gaps out + o.length + 0
      rw [size_append, gaps_snoc]
      simp [size, Token.size, Token.wordlike]
      omega
    · simp [State.emit, State.quotes, Current.quotes, quotes, Token.quotes]

/-- What the tokens of a line cost. -/
theorem cost_of_tokens {line : Bytes} {ts : List Token} (h : tokens line = some ts) :
    size ts + gaps ts + min 1 (quotes ts) + line.count quote ≤ line.length + quotes ts := by
  have hstart : Spent 0 0 start := by
    unfold Spent
    decide
  obtain ⟨hspent, hsound⟩ : Spent (0 + line.length) (0 + line.count quote) (line.foldl step start) ∧
      Sound (line.foldl step start) := spent_foldl line hstart (sound_plain rfl)
  unfold tokens at h
  dsimp only at h
  generalize line.foldl step start = s at h hspent hsound
  unfold Spent at hspent
  cases hm : s.mode with
  | plain | comment =>
    rw [hm] at h
    cases h
    obtain ⟨hcost, hquotes⟩ := cost_emit s
    have hextra : s.extra = min 1 s.quotes := by rw [State.extra, hm]
    omega
  | escape =>
    -- a backslash at the end of the line is a character, paid for when it came
    rw [hm] at h
    cases h
    have hw : s.InWord := hsound.1 (by rw [hm]; decide)
    obtain ⟨hcost, hquotes⟩ := cost_emit (s.push .plain ⟨backslash, .quoted⟩)
    rw [load_push hw] at hcost
    rw [quotes_push hw, if_neg (by decide)] at hquotes
    have hextra : s.extra = 1 + min 1 s.quotes := by rw [State.extra, hm]
    omega
  | single | double | doubleEscape =>
    rw [hm] at h
    cases h

/-! ## A simple command -/

def Redirect.size (r : Redirect) : Nat := (r.io.getD []).length + r.op.length + r.word.length

def Redirect.quotes (r : Redirect) : Nat := (r.io.getD []).count quote + r.word.count quote

def Command.size (c : Command) : Nat :=
  (c.words.map List.length).sum + (c.redirects.map Redirect.size).sum

def Command.quotes (c : Command) : Nat :=
  (c.words.map (List.count quote)).sum + (c.redirects.map Redirect.quotes).sum

/-- The words, and the redirections with digits in front. -/
def Command.parts (c : Command) : Nat :=
  c.words.length + c.redirects.countP fun r => r.io.isSome

/-- One where the first token has to be kept apart from a word in front. -/
def starts : List Token → Nat
  | [] => 0
  | t :: _ => if t.wordlike then 1 else 0

theorem starts_word (w : Word) (ts : List Token) : starts (.word w :: ts) = 1 := rfl

theorem starts_io (w : Word) (ts : List Token) : starts (.io w :: ts) = 1 := rfl

theorem starts_op (o : Bytes) (ts : List Token) : starts (.op o :: ts) = 0 := rfl

theorem starts_le_one (ts : List Token) : starts ts ≤ 1 := by
  unfold starts
  split
  · exact Nat.zero_le 1
  · split <;> decide

theorem gaps_word (w : Word) (ts : List Token) : gaps (.word w :: ts) = gaps ts + starts ts := by
  cases ts with
  | nil => rfl
  | cons t ts => cases t <;> simp [gaps, starts, Token.isWord, Token.wordlike, Nat.add_comm]

theorem gaps_op (o : Bytes) (ts : List Token) : gaps (.op o :: ts) = gaps ts := by
  cases ts with
  | nil => rfl
  | cons t ts => simp [gaps, Token.isWord]

theorem gaps_io (w : Word) (ts : List Token) : gaps (.io w :: ts) = gaps ts := by
  cases ts with
  | nil => rfl
  | cons t ts => simp [gaps, Token.isWord]

theorem count_chars (w : Word) : (w.map Symbol.char).count quote = wordQuotes w := by
  unfold wordQuotes
  rw [List.count_eq_countP, List.countP_map]
  rfl

theorem literal_cost {w : Word} {t : Bytes} (h : literal w = some t) :
    w.length = t.length ∧ wordQuotes w = t.count quote := by
  unfold literal at h
  split at h
  · cases h
  · cases h
    exact ⟨(List.length_map _).symm, (count_chars w).symm⟩

theorem size_cons (t : Token) (ts : List Token) : size (t :: ts) = t.size + size ts := rfl

theorem quotes_cons (t : Token) (ts : List Token) : quotes (t :: ts) = t.quotes + quotes ts := rfl

theorem size_addWord (t : Bytes) (c : Command) : (c.addWord t).size = t.length + c.size :=
  Nat.add_assoc ..

theorem quotes_addWord (t : Bytes) (c : Command) :
    (c.addWord t).quotes = t.count quote + c.quotes := Nat.add_assoc ..

theorem parts_addWord (t : Bytes) (c : Command) : (c.addWord t).parts = c.parts + 1 :=
  Nat.add_right_comm ..

theorem size_addRedirect (r : Redirect) (c : Command) :
    (c.addRedirect r).size = r.size + c.size := Nat.add_left_comm ..

theorem quotes_addRedirect (r : Redirect) (c : Command) :
    (c.addRedirect r).quotes = r.quotes + c.quotes := Nat.add_left_comm ..

theorem parts_addRedirect (r : Redirect) (c : Command) :
    (c.addRedirect r).parts = c.parts + if r.io.isSome then 1 else 0 := by
  unfold Command.parts Command.addRedirect
  rw [List.countP_cons, Nat.add_assoc]

/-- A command has the size and the quotes of its tokens, and a gap in front of
every part but the first. -/
theorem cost_of_simple {ts : List Token} {c : Command} (h : simple ts = some c) :
    size ts = c.size ∧ quotes ts = c.quotes ∧ gaps ts + starts ts = c.parts := by
  -- the cases are those of `simple`: a word, a redirection with and without digits
  fun_induction simple ts generalizing c with
  | case1 => cases h; exact ⟨rfl, rfl, rfl⟩
  | case2 w ts ih =>
    obtain ⟨t, ht, h⟩ := Option.bind_eq_some_iff.mp h
    obtain ⟨c', hc, rfl⟩ := Option.map_eq_some_iff.mp h
    obtain ⟨hsize, hquotes, hgaps⟩ := ih hc
    obtain ⟨hlen, hcount⟩ := literal_cost ht
    refine ⟨?_, ?_, ?_⟩
    · rw [size_cons, size_addWord, Token.size, hlen, hsize]
    · rw [quotes_cons, quotes_addWord, Token.quotes, hcount, hquotes]
    · rw [gaps_word, starts_word, parts_addWord, hgaps]
  | case3 n o w ts _ ih =>
    obtain ⟨t, ht, h⟩ := Option.bind_eq_some_iff.mp h
    obtain ⟨c', hc, rfl⟩ := Option.map_eq_some_iff.mp h
    obtain ⟨hsize, hquotes, hgaps⟩ := ih hc
    obtain ⟨hlen, hcount⟩ := literal_cost ht
    have hdigits := count_chars n
    refine ⟨?_, ?_, ?_⟩
    · rw [size_addRedirect]
      simp only [size_cons, Token.size, Redirect.size, Option.getD_some, List.length_map]
      omega
    · rw [quotes_addRedirect]
      simp only [quotes_cons, Token.quotes, Redirect.quotes, Option.getD_some]
      omega
    · rw [gaps_io, gaps_op, gaps_word, starts_io, parts_addRedirect, hgaps]
      rfl
  | case4 => cases h
  | case5 o w ts _ ih =>
    obtain ⟨t, ht, h⟩ := Option.bind_eq_some_iff.mp h
    obtain ⟨c', hc, rfl⟩ := Option.map_eq_some_iff.mp h
    obtain ⟨hsize, hquotes, hgaps⟩ := ih hc
    obtain ⟨hlen, hcount⟩ := literal_cost ht
    refine ⟨?_, ?_, ?_⟩
    · rw [size_addRedirect]
      simp only [size_cons, Token.size, Redirect.size, Option.getD_none, List.length_nil]
      omega
    · rw [quotes_addRedirect]
      simp only [quotes_cons, Token.quotes, Redirect.quotes, Option.getD_none, List.count_nil]
      omega
    · rw [gaps_op, gaps_word, starts_op, parts_addRedirect, hgaps]
      rfl
  | case6 => cases h
  | case7 => cases h

/-- **What a line costs.** A line that is a simple command has the bytes of the
command, a blank in front of every part but the first, its quotation marks, and
something more if a word contains a quote. -/
theorem cost_of_read {line : Bytes} {c : Command} (h : read line = some c) :
    c.size + c.parts + min 1 c.quotes + line.count quote ≤ line.length + 1 + c.quotes := by
  obtain ⟨ts, hts, hsimple⟩ := Option.bind_eq_some_iff.mp h
  have hcost := cost_of_tokens hts
  obtain ⟨hsize, hquotes, hgaps⟩ := cost_of_simple hsimple
  have hfirst := starts_le_one ts
  omega

/-- A line that has no byte but the command's, the blanks and `marks` quotation
marks has no quote in a word. -/
theorem quotes_eq_zero (marks : Nat) {line : Bytes} {c : Command} (h : read line = some c)
    (hlength : line.length + 1 = c.size + c.parts + marks)
    (hcount : line.count quote = c.quotes + marks) : c.quotes = 0 := by
  have hcost := cost_of_read h
  omega

theorem quote_notMem_of_quotes {c : Command} (h : c.quotes = 0) {w : Bytes} (hw : w ∈ c.words) :
    quote ∉ w := by
  have hsum : (c.words.map (List.count quote)).sum = 0 := by
    unfold Command.quotes at h
    omega
  have hword := List.sum_eq_zero_iff_forall_eq_nat.mp hsum _ (List.mem_map_of_mem hw)
  exact List.count_eq_zero.mp hword

end CommonCpp.Lib.Shell
