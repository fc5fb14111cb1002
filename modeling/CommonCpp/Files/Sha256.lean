import CommonCpp.Lib.Hex
import CommonCpp.Text.Format

/-!
# `common::file_sha256`

The file is read in blocks of 65536 bytes. A full block is hashed inside the
loop, the last one, which may be empty, behind it; every failure on the way
frees the context by hand and throws. The digest is a function of everything
that was given to `EVP_DigestUpdate`, in order.

The loop lemma is `digestLoop_spec`: what the loop has hashed and what it hands
on make up the file. `digested` assembles it into the function's contract.
-/

namespace CommonCpp.Files

open CommonCpp.Lib

/-- The calls made on the digest context. -/
inductive EvpCall where
  /-- `EVP_MD_CTX_new`, and whether it yields a context. -/
  | new (created : Bool)
  | init
  | update (data : Bytes)
  | final
  | free
deriving DecidableEq

/-- Which calls succeed. Reads and updates are counted from zero. -/
structure Env where
  opens : Bool
  new : Bool
  init : Bool
  read : Nat → Bool
  update : Nat → Bool
  final : Bool

/-- `sizeof(buffer)` -/
def bufferSize : Nat := 65536

/-- An exception carries its text; either way the calls made are known. -/
abbrev Outcome (α : Type) := Except Bytes α × List EvpCall

/-- Free the context and throw. -/
def abandon {α : Type} (calls : List EvpCall) (text : String) : Outcome α :=
  (.error (ascii text), calls ++ [.free])

/-- `while (file.read(buffer, sizeof(buffer)))` and the test of `eof` behind it,
with `i` blocks hashed and `rest` still in the file. Yields the short last block
and the number of reads. A device error sets `bad` and not `eof`. -/
def digestLoop (env : Env) (i : Nat) (rest : Bytes) (calls : List EvpCall) :
    Outcome (Bytes × Nat) :=
  if env.read i = false then abandon calls "File read error"
  else if bufferSize ≤ rest.length then
    let calls := calls ++ [.update (rest.take bufferSize)]
    if env.update i = false then abandon calls "Digest update failed"
    else digestLoop env (i + 1) (rest.drop bufferSize) calls
  else (.ok (rest, i), calls)
termination_by rest.length
decreasing_by
  unfold bufferSize at *
  rw [List.length_drop]
  omega

/-- What has been hashed. -/
def hashed (calls : List EvpCall) : Bytes :=
  calls.flatMap fun
    | .update data => data
    | _ => []

/-- `ss << std::hex << std::setw(2) << std::setfill('0') << (int)hash[i]` -/
def hexText (hash : Bytes) : Bytes :=
  hash.flatMap fun c => (Text.hex (Int32.ofNat c.toNat)).leftpad 2 0x30

/-- `file_sha256`, on a file with this content. -/
def fileSha256 (digest : Bytes → Bytes) (env : Env) (content : Bytes) : Outcome Bytes :=
  if env.opens = false then (.error (ascii "Could not open file"), [])
  else if env.new = false then (.error (ascii "EVP_MD_CTX creation failed"), [.new false])
  else if env.init = false then abandon [.new true, .init] "Digest initialization failed"
  else
    match digestLoop env 0 content [.new true, .init] with
    | (.error e, calls) => (.error e, calls)
    | (.ok (block, i), calls) =>
      let calls := calls ++ [.update block]
      if env.update i = false then abandon calls "Digest update failed"
      else
        let calls := calls ++ [.final]
        if env.final = false then abandon calls "Digest finalization failed"
        else (.ok (hexText (digest (hashed calls))), calls ++ [.free])

/-! ## What it should do -/

/-- None of the calls that the whole file takes fails. -/
structure Succeeds (env : Env) (content : Bytes) : Prop where
  opens : env.opens = true
  new : env.new = true
  init : env.init = true
  read : ∀ i ≤ content.length / bufferSize, env.read i = true
  update : ∀ i ≤ content.length / bufferSize, env.update i = true
  final : env.final = true

/-- A context that was created is freed exactly once, by the last call. -/
def Released (calls : List EvpCall) : Prop :=
  (.new true ∉ calls ∧ ∀ c ∈ calls, c = .new false) ∨
    ∃ used, calls = .new true :: used ++ [.free] ∧ EvpCall.free ∉ used ∧ ∀ b, .new b ∉ used

/-! ## The loop -/

/-- Updates and nothing else. -/
def Updates (calls : List EvpCall) : Prop := ∀ c ∈ calls, ∃ data, c = .update data

theorem updates_cons {data : Bytes} {calls : List EvpCall} (h : Updates calls) :
    Updates (.update data :: calls) := by
  intro c hc
  rcases List.mem_cons.mp hc with rfl | hc
  · exact ⟨data, rfl⟩
  · exact h c hc

/-- What the loop does from the `i`-th read on: it hashes the full blocks and hands
on the short one, or one of its calls failed and the context is gone. -/
inductive LoopSpec (env : Env) (i : Nat) (rest : Bytes) (calls : List EvpCall) :
    Outcome (Bytes × Nat) → Prop where
  | done {block : Bytes} {us : List EvpCall} (hus : Updates us) (hhashed : hashed us ++ block = rest)
      (hread : ∀ k, i ≤ k → k ≤ i + rest.length / bufferSize → env.read k = true)
      (hupdate : ∀ k, i ≤ k → k < i + rest.length / bufferSize → env.update k = true) :
      LoopSpec env i rest calls (.ok (block, i + rest.length / bufferSize), calls ++ us)
  | failed {e : Bytes} {us : List EvpCall} {k : Nat} (hus : Updates us) (hk : i ≤ k)
      (hle : k ≤ i + rest.length / bufferSize) (hfail : env.read k = false ∨ env.update k = false) :
      LoopSpec env i rest calls (.error e, calls ++ us ++ [.free])

theorem digestLoop_spec (env : Env) (i : Nat) (rest : Bytes) (calls : List EvpCall) :
    LoopSpec env i rest calls (digestLoop env i rest calls) := by
  fun_induction digestLoop env i rest calls with
  | case1 i rest calls hread =>
    have hspec : LoopSpec env i rest calls (abandon (calls ++ []) "File read error") :=
      .failed (fun c hc => by cases hc) (Nat.le_refl i) (Nat.le_add_right ..) (Or.inl hread)
    rwa [List.append_nil] at hspec
  | case2 i rest calls hread hlong calls' hupdate =>
    refine .failed (k := i) ?_ (Nat.le_refl i) (Nat.le_add_right ..) (Or.inr hupdate)
    exact updates_cons fun c hc => by cases hc
  | case3 i rest calls hread hlong calls' hupdate ih =>
    -- a full block, and the rest has one block less
    have hblocks : rest.length / bufferSize = (rest.drop bufferSize).length / bufferSize + 1 := by
      rw [List.length_drop]
      unfold bufferSize at hlong ⊢
      omega
    have hfirst : hashed [EvpCall.update (rest.take bufferSize)] = rest.take bufferSize :=
      List.append_nil _
    generalize digestLoop env (i + 1) (rest.drop bufferSize) calls' = result at ih
    cases ih with
    | done hus hhashed hr hu =>
      next block us =>
      have hend : i + 1 + (rest.drop bufferSize).length / bufferSize
          = i + rest.length / bufferSize := by omega
      rw [hend] at hr hu ⊢
      show LoopSpec env i rest calls (_, calls ++ [_] ++ us)
      rw [List.append_assoc]
      refine .done (updates_cons hus) ?_ ?_ ?_
      · show hashed ([EvpCall.update (rest.take bufferSize)] ++ us) ++ block = rest
        rw [hashed, List.flatMap_append, ← hashed, ← hashed, hfirst, List.append_assoc, hhashed,
          List.take_append_drop]
      · intro k hk hle
        rcases Nat.eq_or_lt_of_le hk with rfl | hk
        · simpa using hread
        · exact hr k hk hle
      · intro k hk hlt
        rcases Nat.eq_or_lt_of_le hk with rfl | hk
        · simpa using hupdate
        · exact hu k hk hlt
    | failed hus hk hle hfail =>
      next e us k =>
      show LoopSpec env i rest calls (_, calls ++ [_] ++ us ++ [.free])
      rw [List.append_assoc calls]
      exact .failed (updates_cons hus) (by omega) (by omega) hfail
  | case4 i rest calls hread hshort =>
    have hzero : rest.length / bufferSize = 0 := Nat.div_eq_of_lt (Nat.lt_of_not_le hshort)
    have hspec : LoopSpec env i rest calls
        (.ok (rest, i + rest.length / bufferSize), calls ++ []) := by
      refine .done (fun c hc => by cases hc) rfl ?_ ?_
      · intro k hk hle
        have heq : k = i := by omega
        subst heq
        simpa using hread
      · intro k hk hlt
        omega
    rwa [hzero, List.append_nil] at hspec

/-! ## The function -/

/-- The stream writes two lower-case digits for each byte. -/
theorem hexText_eq (hash : Bytes) : hexText hash = Hex.encode hash := by
  unfold hexText Hex.encode
  refine congrArg (fun f => hash.flatMap f) (funext fun c => ?_)
  exact forall_byte (fun c => (Text.hex (Int32.ofNat c.toNat)).leftpad 2 0x30 = Hex.pair c)
    (by decide +kernel) c

theorem hashed_append (calls calls' : List EvpCall) :
    hashed (calls ++ calls') = hashed calls ++ hashed calls' :=
  List.flatMap_append

/-- Calls between the creation of the context and its release. -/
def Inside (calls : List EvpCall) : Prop := EvpCall.free ∉ calls ∧ ∀ b, .new b ∉ calls

theorem Updates.inside {us : List EvpCall} (h : Updates us) : Inside us := by
  constructor
  · intro hmem
    obtain ⟨data, hdata⟩ := h _ hmem
    cases hdata
  · intro b hmem
    obtain ⟨data, hdata⟩ := h _ hmem
    cases hdata

theorem Inside.append {calls calls' : List EvpCall} (h : Inside calls) (h' : Inside calls') :
    Inside (calls ++ calls') := by
  constructor
  · intro hmem
    exact (List.mem_append.mp hmem).elim h.1 h'.1
  · intro b hmem
    exact (List.mem_append.mp hmem).elim (h.2 b) (h'.2 b)

theorem Inside.released {used : List EvpCall} (h : Inside used) :
    Released (.new true :: used ++ [.free]) :=
  Or.inr ⟨used, rfl, h.1, h.2⟩

theorem inside_init : Inside [.init] := by
  constructor
  · decide
  · intro b
    cases b <;> decide

theorem inside_update (data : Bytes) : Inside [.update data] := by
  constructor
  · intro hmem
    cases List.mem_singleton.mp hmem
  · intro b hmem
    cases List.mem_singleton.mp hmem

theorem inside_final : Inside [.final] := by
  constructor
  · decide
  · intro b
    cases b <;> decide

/-- How a call can end. -/
inductive FileSpec (digest : Bytes → Bytes) (env : Env) (content : Bytes) : Outcome Bytes → Prop where
  | returned {used : List EvpCall} (hok : Succeeds env content) (hused : Inside used) :
      FileSpec digest env content (.ok (hexText (digest content)), .new true :: used ++ [.free])
  | threw {e : Bytes} {calls : List EvpCall} (hfail : ¬ Succeeds env content)
      (hreleased : Released calls) : FileSpec digest env content (.error e, calls)

theorem FileSpec.abandon {digest : Bytes → Bytes} {env : Env} {content : Bytes} {used : List EvpCall}
    (hfail : ¬ Succeeds env content) (hused : Inside used) (text : String) :
    FileSpec digest env content (Files.abandon (.new true :: used) text) :=
  .threw hfail hused.released

theorem fileSha256_spec (digest : Bytes → Bytes) (env : Env) (content : Bytes) :
    FileSpec digest env content (fileSha256 digest env content) := by
  unfold fileSha256
  by_cases hopens : env.opens = false
  · rw [if_pos hopens]
    refine .threw (fun h => ?_) (Or.inl ⟨List.not_mem_nil, fun c hc => by cases hc⟩)
    exact Bool.false_ne_true (hopens.symm.trans h.opens)
  rw [if_neg hopens]
  by_cases hnew : env.new = false
  · rw [if_pos hnew]
    refine .threw (fun h => ?_) (Or.inl ⟨by decide, fun c hc => List.mem_singleton.mp hc⟩)
    exact Bool.false_ne_true (hnew.symm.trans h.new)
  rw [if_neg hnew]
  by_cases hinit : env.init = false
  · rw [if_pos hinit]
    exact .abandon (fun h => Bool.false_ne_true (hinit.symm.trans h.init)) inside_init _
  rw [if_neg hinit]
  have hloop := digestLoop_spec env 0 content [.new true, .init]
  generalize digestLoop env 0 content [.new true, .init] = result at hloop
  -- the loop ended in a failure, or at the last block
  cases hloop with
  | failed hus hk hle hfail =>
    next e us k =>
    have hnot : ¬ Succeeds env content := by
      intro h
      rw [Nat.zero_add] at hle
      rcases hfail with hread | hupdate
      · exact Bool.false_ne_true (hread.symm.trans (h.read k hle))
      · exact Bool.false_ne_true (hupdate.symm.trans (h.update k hle))
    exact .threw hnot (inside_init.append hus.inside).released
  | done hus hhashed hread hupdate =>
    next block us =>
    rw [Nat.zero_add] at hread hupdate ⊢
    dsimp only
    have hused : Inside ([.init] ++ us ++ [.update block]) :=
      (inside_init.append hus.inside).append (inside_update block)
    by_cases hlast : env.update (content.length / bufferSize) = false
    · rw [if_pos hlast]
      refine .abandon (fun h => ?_) hused _
      exact Bool.false_ne_true (hlast.symm.trans (h.update _ (Nat.le_refl _)))
    rw [if_neg hlast]
    by_cases hfinal : env.final = false
    · rw [if_pos hfinal]
      refine .abandon (fun h => ?_) (hused.append inside_final) _
      exact Bool.false_ne_true (hfinal.symm.trans h.final)
    rw [if_neg hfinal]
    have hall : hashed ([.new true, .init] ++ us ++ [.update block] ++ [.final]) = content := by
      rw [hashed_append, hashed_append, hashed_append, ← hhashed]
      simp [hashed]
    rw [hall]
    refine .returned ⟨by simpa using hopens, by simpa using hnew, by simpa using hinit,
      fun i hi => hread i (Nat.zero_le i) hi, fun i hi => ?_, by simpa using hfinal⟩
      (hused.append inside_final)
    rcases Nat.eq_or_lt_of_le hi with rfl | hi
    · simpa using hlast
    · exact hupdate i (Nat.zero_le i) hi

/-- **The digest of exactly the file, or an exception.** For every digest function,
every content and every pattern of failures: the call returns if and only if none
of its calls fails, with the lower-case hexadecimal text of the content's digest,
which decodes to it; and on every path a context that was created is freed once,
by the last call made on it. -/
theorem digested (digest : Bytes → Bytes) (env : Env) (content : Bytes) :
    ((∃ text, (fileSha256 digest env content).1 = .ok text) ↔ Succeeds env content) ∧
      (∀ text, (fileSha256 digest env content).1 = .ok text →
        text = Hex.encode (digest content) ∧ Hex.decode text = some (digest content)) ∧
      Released (fileSha256 digest env content).2 := by
  have hspec := fileSha256_spec digest env content
  generalize fileSha256 digest env content = result at hspec
  cases hspec with
  | returned hok hused =>
    refine ⟨⟨fun _ => hok, fun _ => ⟨_, rfl⟩⟩, fun text htext => ?_, hused.released⟩
    cases htext
    rw [hexText_eq]
    exact ⟨rfl, Hex.decode_encode _⟩
  | threw hfail hreleased =>
    refine ⟨⟨fun h => ?_, fun h => absurd h hfail⟩, fun text htext => ?_, hreleased⟩
    · obtain ⟨text, htext⟩ := h
      cases htext
    · cases htext

end CommonCpp.Files
