import CommonCpp.Lib.Bytes

/-!
# Backtracking search

Regular expressions as a backtracking engine reads them: `run` lists the ways
an expression can match at a place, the preferred one first (a greedy star
tries the longest run first and gives symbols back one by one). `search` takes
the preferred match at the leftmost place that has one; `replace` replaces it and
goes on behind it.
-/

namespace CommonCpp.Lib.Regex

/-- The expressions. A star repeats a character class, `times` a certain number of times. -/
inductive Re where
  | cls (p : UInt8 → Bool)
  | star (p : UInt8 → Bool)
  | times (n : Nat) (p : UInt8 → Bool)
  | seq (r s : Re)
  | group (n : Nat) (r : Re)
  | eol

/-- A place in the subject, and the groups captured on the way there, the last
one first. -/
structure Cursor where
  rest : Bytes
  caps : List (Nat × Bytes)

/-- The runs of a class from a place on, longest first. -/
def runStar (p : UInt8 → Bool) (caps : List (Nat × Bytes)) : Bytes → List Cursor
  | [] => [⟨[], caps⟩]
  | c :: rest =>
    if p c then runStar p caps rest ++ [⟨c :: rest, caps⟩] else [⟨c :: rest, caps⟩]

/-- The ways to match at a place, in the order in which they are tried. -/
def Re.run : Re → Cursor → List Cursor
  | .cls p, c =>
    match c.rest with
    | [] => []
    | b :: rest => if p b then [⟨rest, c.caps⟩] else []
  | .star p, c => runStar p c.caps c.rest
  | .times n p, c =>
    if n ≤ c.rest.length ∧ (c.rest.take n).all p = true then [⟨c.rest.drop n, c.caps⟩] else []
  | .seq r s, c => (r.run c).flatMap fun c => s.run c
  | .group n r, c =>
    (r.run c).map fun c' =>
      ⟨c'.rest, (n, c.rest.take (c.rest.length - c'.rest.length)) :: c'.caps⟩
  | .eol, c => if c.rest = [] then [c] else []

/-- The captures of the first match found, from left to right. -/
def search (r : Re) : Bytes → Option (List (Nat × Bytes))
  | [] => ((r.run ⟨[], []⟩).head?).map Cursor.caps
  | c :: rest =>
    match (r.run ⟨c :: rest, []⟩).head? with
    | some m => some m.caps
    | none => search r rest

/-- The same for an expression behind `^`, which matches at the start of the subject or
not at all. -/
def searchStart (r : Re) (s : Bytes) : Option (List (Nat × Bytes)) :=
  ((r.run ⟨s, []⟩).head?).map Cursor.caps

/-- `m[n].str()`: empty where the group took no part in a match. -/
def capture (n : Nat) (caps : List (Nat × Bytes)) : Bytes := (caps.lookup n).getD []

theorem search_of_run {r : Re} {s : Bytes} {m : Cursor} (h : (r.run ⟨s, []⟩).head? = some m) :
    search r s = some m.caps := by
  cases s with
  | nil => rw [search, h, Option.map_some]
  | cons c s => rw [search, h]

theorem search_of_run_nil {r : Re} {c : UInt8} {s : Bytes} (h : r.run ⟨c :: s, []⟩ = []) :
    search r (c :: s) = search r s := by
  rw [search, h]
  rfl

/-- A greedy run followed by something that matches nowhere in it but perhaps
at its end. -/
theorem runStar_flatMap {p : UInt8 → Bool} {caps : List (Nat × Bytes)} {f : Cursor → List Cursor}
    (hf : ∀ b rest, p b = true → f ⟨b :: rest, caps⟩ = []) (s : Bytes) :
    (runStar p caps s).flatMap f = f ⟨s.dropWhile p, caps⟩ := by
  induction s with
  | nil => simp [runStar]
  | cons b s ih =>
    unfold runStar
    split
    · next hb =>
      rw [List.flatMap_append, ih, List.flatMap_singleton, hf b s hb, List.append_nil,
        List.dropWhile_cons_of_pos hb]
    · next hb => rw [List.flatMap_singleton, List.dropWhile_cons_of_neg hb]

/-! ## Replacing -/

/-- `regex_replace`, with a format that names no group: the format for every match, the
next one being looked for behind it, or a byte further on where the match is empty. -/
def replace (r : Re) (format : Bytes) : Bytes → Bytes
  | [] => if (r.run ⟨[], []⟩).isEmpty then [] else format
  | c :: rest =>
    match (r.run ⟨c :: rest, []⟩).head? with
    | none => c :: replace r format rest
    | some m =>
      if m.rest.length ≤ rest.length then format ++ replace r format m.rest
      else format ++ c :: replace r format rest
termination_by s => s.length

/-- The bytes of a class are taken out. -/
theorem replace_cls (p : UInt8 → Bool) (s : Bytes) : replace (.cls p) [] s = s.filter (!p ·) := by
  induction s with
  | nil => rw [replace]; rfl
  | cons c s ih =>
    have hrun : (Re.cls p).run ⟨c :: s, []⟩ = if p c then [⟨s, []⟩] else [] := rfl
    rw [replace, hrun]
    cases hp : p c with
    | false =>
      rw [List.filter_cons_of_pos (by rw [hp]; rfl), ← ih]
      rfl
    | true =>
      rw [List.filter_cons_of_neg (by rw [hp]; nofun), ← ih]
      exact if_pos (Nat.le_refl _)

end CommonCpp.Lib.Regex
