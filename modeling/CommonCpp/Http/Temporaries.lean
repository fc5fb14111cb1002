import CommonCpp.Http.Ownership
import Mathlib.Data.List.Forall2

/-!
# Values passed by value

`UrlValues::add` and `http_client::POST` take their values by value and the loop
of `POST` copies each block once more, so one call makes and destroys temporaries
for every value. They do no harm: what is built is what the values stand for, and
afterwards the caller's objects are as they were (`post_temporaries`,
`add_temporaries`). But `str()` has handed out a block for each integer, and there
is nobody to free it.
-/

namespace CommonCpp.Http

open CommonCpp.Lib CommonCpp.Text

/-- A value as the first object it comes from was made. -/
def Value.made : Value → Made
  | .integer v => .int v
  | .text v _ => .text (some v)

/-- An object is copied, read and the copy destroyed: a parameter or a loop variable. -/
def readCopy (i : Nat) (s : Store) : Option (Option CString × Store) :=
  (run Store.step s [.copy i, .str s.objects.length, .destroy s.objects.length]).bind fun s' =>
    s'.texts.getLast?.map fun t => (t, s')

/-- `UrlValues::add(name, value)`, called with the object `i`. A null pointer has no length. -/
def UrlValues.addObject (u : UrlValues) (name : Bytes) (i : Nat) (s : Store) :
    Option (UrlValues × Store) :=
  let str := if u.str ≠ [] then u.str ++ ascii "&" else u.str
  (readCopy i s).bind fun (t, s') => t.bind fun text =>
    (urlEncode text).map fun encoded => (⟨str ++ name ++ ascii "=" ++ encoded⟩, s')

/-- A sequence of calls with objects. -/
def addObjects : List (Bytes × Nat) → UrlValues → Store → Option (UrlValues × Store)
  | [], u, s => some (u, s)
  | (name, i) :: calls, u, s => (u.addObject name i s).bind fun (u, s) => addObjects calls u s

/-- A `data_block` with its value's handle. -/
abbrev BlockObject := CString × Nat

/-- The copies that the parameter `data` of `POST` is made of. -/
def copyBlocks : List BlockObject → Store → Option (List BlockObject × Store)
  | [], s => some ([], s)
  | (name, i) :: data, s =>
    (s.step (.copy i)).bind fun s' =>
      (copyBlocks data s').map fun (rest, s'') => ((name, s.objects.length) :: rest, s'')

/-- The `for (auto block : data)` loop. -/
def appendObjects : List BlockObject → Bytes → Store → Option (Bytes × Store)
  | [], multipart, s => some (multipart, s)
  | (name, i) :: data, multipart, s =>
    (readCopy i s).bind fun (t, s') => t.bind fun text =>
      (stringFormat (ascii "--%s\nContent-Disposition:form-data;name=\"%s\"\n\n%s\n")
        [.str boundary, .str name, .str text]).bind fun part =>
          appendObjects data (multipart ++ part) s'

/-- The end of `data`. -/
def destroyBlocks (data : List BlockObject) (s : Store) : Option Store :=
  data.foldlM (fun s block => s.step (.destroy block.2)) s

/-- The body `POST(data)` builds, from its parameter to its end. -/
def multipartObjects (data : List BlockObject) (s : Store) : Option (Bytes × Store) :=
  (copyBlocks data s).bind fun (data, s) => (appendObjects data [] s).bind fun (body, s) =>
    (stringFormat (ascii "--%s--") [.str boundary]).bind fun close =>
      (destroyBlocks data s).map fun s => (body ++ close, s)

/-- The handle is that of an object made of the block's value. -/
def Stands (values : List (Option Made)) (object : BlockObject) (block : DataBlock) : Prop :=
  object.1 = block.name ∧ slot values object.2 = some block.v.made

/-- The calls on the values that the objects stand for. -/
def addValues (pairs : List (Bytes × Value)) (u : UrlValues) : Option UrlValues :=
  pairs.foldlM (fun u pair => u.add pair.1 pair.2) u

/-- The handle is that of an object made of the pair's value. -/
def Names (values : List (Option Made)) (call : Bytes × Nat) (pair : Bytes × Value) : Prop :=
  call.1 = pair.1 ∧ slot values call.2 = some pair.2.made

/-- How many of the values are integers. -/
def intBlocks (blocks : List DataBlock) : Nat := blocks.countP fun block => block.v.made.isInt

variable {m : Meaning} {s : Store}

theorem shown_made (v : Value) : v.made.shown = some v.shown := by
  have hstr := str_eq v
  cases v with
  | text t fits => rw [← hstr]; rfl
  | integer n =>
    obtain ⟨t, ht, -⟩ := exists_str (.integer n)
    rw [← hstr, ht]
    rw [Value.str, stringFormat_int, Option.bind_some, strcpy_of_lt (length_printed n)] at ht
    exact ht

/-! ## One temporary -/

theorem Holds.handles (hs : Holds m s) : s.objects.length = m.values.length := hs.length.symm

theorem Holds.lt_of_slot {i : Nat} {v : Made} (h : slot m.values i = some v) :
    i < m.values.length := by
  by_contra hlt
  unfold slot at h
  rw [List.getElem?_eq_none (Nat.le_of_not_lt hlt)] at h
  cases h

/-- The temporary leaves nothing but the text, and a block if it was an integer. -/
theorem Holds.readCopy (hs : Holds m s) {i : Nat} {v : Made} (hi : slot m.values i = some v) :
    ∃ s', readCopy i s = some (v.shown, s') ∧
      Holds ⟨m.values ++ [none], m.texts ++ [v.shown], m.ints + if v.isInt then 1 else 0⟩ s' := by
  have hnew : slot (m.values ++ [some v]) m.values.length = some v := by
    rw [slot_push, if_pos rfl]
  have hclear : (m.values ++ [some v]).set m.values.length none = m.values ++ [none] := by
    simp
  have habs : run Meaning.step m [.copy i, .str s.objects.length, .destroy s.objects.length]
      = some ⟨m.values ++ [none], m.texts ++ [v.shown], m.ints + if v.isInt then 1 else 0⟩ := by
    rw [hs.handles]
    simp only [run, Meaning.step, hi, Option.map_some, Option.bind_some, hnew, hclear]
  obtain ⟨s', hrun, hs'⟩ := run_simulates holds_step hs habs
  refine ⟨s', ?_, hs'⟩
  rw [Http.readCopy, hrun, Option.bind_some, hs'.texts]
  show (m.texts ++ [v.shown]).getLast?.map _ = _
  rw [List.getLast?_concat]
  rfl

/-- `UrlValues::add` with an object appends what `add` appends for its value. -/
theorem Holds.addObject (hs : Holds m s) {i : Nat} {v : Value}
    (hi : slot m.values i = some v.made) {u u' : UrlValues} {name : Bytes}
    (hadd : u.add name v = some u') :
    ∃ s', u.addObject name i s = some (u', s') ∧
      Holds ⟨m.values ++ [none], m.texts ++ [v.made.shown],
        m.ints + if v.made.isInt then 1 else 0⟩ s' := by
  obtain ⟨s', hread, hs'⟩ := hs.readCopy hi
  refine ⟨s', ?_, hs'⟩
  rw [UrlValues.add, str_eq, Option.bind_some] at hadd
  obtain ⟨encoded, henc, rfl⟩ := Option.map_eq_some_iff.mp hadd
  rw [UrlValues.addObject, hread, shown_made]
  show (urlEncode v.shown).map _ = _
  rw [henc]
  rfl

/-! ## The blocks of `POST` -/

/-- Objects made since leave an older one where it is. -/
theorem slot_append {values more : List (Option Made)} {i : Nat} {v : Made}
    (h : slot values i = some v) : slot (values ++ more) i = some v := by
  have hlt : i < values.length := Holds.lt_of_slot (m := ⟨values, [], 0⟩) h
  unfold slot at h ⊢
  rwa [List.getElem?_append_left hlt]

/-- The query is the one the values would build. -/
theorem addObjects_holds {base more : List (Option Made)} {calls : List (Bytes × Nat)}
    {pairs : List (Bytes × Value)} (hs : Holds m s) (hm : m.values = base ++ more)
    (hcalls : List.Forall₂ (Names base) calls pairs) {u u' : UrlValues}
    (hadd : addValues pairs u = some u') :
    ∃ s' texts, addObjects calls u s = some (u', s') ∧
      Holds ⟨m.values ++ List.replicate pairs.length none, texts,
        m.ints + pairs.countP fun pair => pair.2.made.isInt⟩ s' := by
  induction hcalls generalizing m s more u with
  | nil =>
    cases hadd
    refine ⟨s, m.texts, rfl, ?_⟩
    rw [List.length_nil, List.replicate_zero, List.append_nil]
    exact hs
  | @cons call pair calls pairs hfirst hrest ih =>
    obtain ⟨name, i⟩ := call
    have hname : name = pair.1 := hfirst.1
    have hslot : slot m.values i = some pair.2.made := by
      rw [hm]
      exact slot_append hfirst.2
    rw [addValues, List.foldlM_cons] at hadd
    obtain ⟨u₁, hone, hadd⟩ := Option.bind_eq_some_iff.mp hadd
    obtain ⟨s₁, hcall, hs₁⟩ := hs.addObject hslot hone
    obtain ⟨s', texts, hloop, hs'⟩ := ih hs₁ (by rw [hm, List.append_assoc]) hadd
    refine ⟨s', texts, ?_, ?_⟩
    · rw [addObjects, hname, hcall]
      exact hloop
    · have hints : (pair :: pairs).countP (fun pair => pair.2.made.isInt)
          = (if pair.2.made.isInt then 1 else 0) + pairs.countP fun pair => pair.2.made.isInt := by
        rw [List.countP_cons]
        omega
      rw [hints, List.length_cons, List.replicate_succ, ← Nat.add_assoc]
      rw [List.append_assoc] at hs'
      exact hs'

/-- The copies are numbered from the first free handle. -/
def numbered : Nat → List BlockObject → List BlockObject
  | _, [] => []
  | k, (name, _) :: data => (name, k) :: numbered (k + 1) data

variable {data : List BlockObject} {blocks : List DataBlock}

theorem copyBlocks_holds {base more : List (Option Made)} (hs : Holds m s)
    (hm : m.values = base ++ more) (hdata : List.Forall₂ (Stands base) data blocks) :
    ∃ s', copyBlocks data s = some (numbered m.values.length data, s') ∧
      Holds { m with values := m.values ++ blocks.map fun block => some block.v.made } s' := by
  induction hdata generalizing m s more with
  | nil =>
    refine ⟨s, rfl, ?_⟩
    rw [List.map_nil, List.append_nil]
    exact hs
  | @cons object block data blocks hfirst hrest ih =>
    obtain ⟨name, i⟩ := object
    have hslot : slot m.values i = some block.v.made := by
      rw [hm]
      exact slot_append hfirst.2
    have hcopy : m.step (.copy i) = some { m with values := m.values ++ [some block.v.made] } := by
      rw [Meaning.step, hslot]
      rfl
    obtain ⟨s₁, hstep, hs₁⟩ := holds_step hs hcopy
    obtain ⟨s', hcopies, hs'⟩ := ih hs₁ (by rw [hm, List.append_assoc])
    refine ⟨s', ?_, ?_⟩
    · rw [copyBlocks, hstep, Option.bind_some, hcopies, hs.handles, List.length_append,
        List.length_singleton]
      rfl
    · rw [List.append_assoc] at hs'
      exact hs'

/-- The copies stand for the same blocks. -/
theorem stands_numbered {base : List (Option Made)} (hdata : List.Forall₂ (Stands base) data blocks)
    (values : List (Option Made)) :
    List.Forall₂ (Stands (values ++ blocks.map fun block => some block.v.made))
      (numbered values.length data) blocks := by
  induction hdata generalizing values with
  | nil => exact .nil
  | @cons object block data blocks hfirst hrest ih =>
    obtain ⟨name, i⟩ := object
    have hsplit : values ++ (block :: blocks).map (fun block => some block.v.made)
        = values ++ [some block.v.made] ++ blocks.map fun block => some block.v.made := by
      rw [List.map_cons, List.append_assoc]
      rfl
    rw [hsplit]
    refine .cons ⟨hfirst.1, slot_append ?_⟩ ?_
    · rw [slot_push, if_pos rfl]
    · have hrest := ih (values ++ [some block.v.made])
      rw [List.length_append, List.length_singleton] at hrest
      exact hrest

/-- The loop appends the same parts, and each of its temporaries is gone. -/
theorem appendObjects_holds {base more : List (Option Made)} (hs : Holds m s)
    (hm : m.values = base ++ more) (hdata : List.Forall₂ (Stands base) data blocks)
    {built body : Bytes} (hbody : appendParts blocks built = some body) :
    ∃ s' texts, appendObjects data built s = some (body, s') ∧
      Holds ⟨m.values ++ List.replicate blocks.length none, texts, m.ints + intBlocks blocks⟩ s' := by
  induction hdata generalizing m s more built with
  | nil =>
    cases hbody
    refine ⟨s, m.texts, rfl, ?_⟩
    rw [List.length_nil, List.replicate_zero, List.append_nil]
    exact hs
  | @cons object block data blocks hfirst hrest ih =>
    obtain ⟨name, i⟩ := object
    have hname : name = block.name := hfirst.1
    have hslot : slot m.values i = some block.v.made := by
      rw [hm]
      exact slot_append hfirst.2
    obtain ⟨s₁, hread, hs₁⟩ := hs.readCopy hslot
    rw [appendParts, DataBlock.part, copy_eq, Option.bind_some, str_eq, Option.bind_some] at hbody
    obtain ⟨part, hpart, hbody⟩ := Option.bind_eq_some_iff.mp hbody
    obtain ⟨s', texts, hloop, hs'⟩ := ih hs₁ (by rw [hm, List.append_assoc]) hbody
    refine ⟨s', texts, ?_, ?_⟩
    · rw [appendObjects, hread, Option.bind_some]
      dsimp only
      rw [shown_made, Option.bind_some, hname, hpart, Option.bind_some]
      exact hloop
    · have hints : m.ints + intBlocks (block :: blocks)
          = m.ints + (if block.v.made.isInt then 1 else 0) + intBlocks blocks := by
        rw [intBlocks, intBlocks, List.countP_cons]
        omega
      rw [hints, List.length_cons, List.replicate_succ]
      rw [List.append_assoc] at hs'
      exact hs'

/-- At the end the copies are destroyed, in the order in which they were made. -/
theorem destroyBlocks_holds {base more : List (Option Made)} (hs : Holds m s)
    (hm : m.values = base ++ blocks.map (fun block => some block.v.made) ++ more)
    (hlen : data.length = blocks.length) :
    ∃ s', destroyBlocks (numbered base.length data) s = some s' ∧
      Holds { m with values := base ++ List.replicate blocks.length none ++ more } s' := by
  induction blocks generalizing m s base data with
  | nil =>
    cases List.length_eq_zero_iff.mp hlen
    refine ⟨s, rfl, ?_⟩
    have hvalues : base ++ List.replicate 0 none ++ more = m.values := by
      rw [hm]
      rfl
    rw [List.length_nil, hvalues]
    exact hs
  | cons block blocks ih =>
    cases data with
    | nil => cases hlen
    | cons object data =>
      -- the first copy goes, and its place is empty from then on
      obtain ⟨name, i⟩ := object
      have hvalues : m.values = base ++ some block.v.made ::
          (blocks.map (fun block => some block.v.made) ++ more) := by
        rw [hm, List.map_cons, List.append_assoc]
        rfl
      have hslot : slot m.values base.length = some block.v.made := by
        rw [hvalues]
        unfold slot
        rw [List.getElem?_append_right (Nat.le_refl _), Nat.sub_self]
        rfl
      have hset : m.values.set base.length none = (base ++ [none])
          ++ blocks.map (fun block => some block.v.made) ++ more := by
        rw [hvalues, List.set_append_right _ _ (Nat.le_refl _), Nat.sub_self, List.set_cons_zero]
        simp
      have hdestroy : m.step (.destroy base.length)
          = some { m with values := m.values.set base.length none } := by
        rw [Meaning.step, hslot]
        rfl
      obtain ⟨s₁, hstep, hs₁⟩ := holds_step hs hdestroy
      obtain ⟨s', hrest, hs'⟩ := ih hs₁ hset (Nat.succ.inj hlen)
      refine ⟨s', ?_, ?_⟩
      · rw [List.length_append, List.length_singleton] at hrest
        rw [numbered, destroyBlocks, List.foldlM_cons]
        show (s.step (.destroy base.length)).bind _ = _
        rw [hstep]
        exact hrest
      · have hend : base ++ [none] ++ List.replicate blocks.length none ++ more
            = base ++ List.replicate (block :: blocks).length none ++ more := by
          rw [List.length_cons, List.replicate_succ, List.append_assoc base [none]]
          rfl
        dsimp only at hs'
        rw [hend] at hs'
        exact hs'

/-! ## Whole calls -/

theorem ownTexts_append_none {values : List (Option Made)} (n : Nat)
    (texts texts' : List (Option CString))
    (k k' : Nat) : Meaning.ownTexts ⟨values ++ List.replicate n none, texts, k⟩
      = Meaning.ownTexts ⟨values, texts', k'⟩ := by
  unfold Meaning.ownTexts
  rw [List.countP_append, List.countP_replicate]
  rfl

/-- Where only temporaries came and went, the objects are as they were, and what is
allocated is more by the integers. -/
theorem Holds.after (hs : Holds m s) {s' : Store} {texts : List (Option CString)} {n k : Nat}
    (hs' : Holds ⟨m.values ++ List.replicate n none, texts, m.ints + k⟩ s') :
    (∀ i v, slot m.values i = some v → ∃ o, slot s'.objects i = some o ∧ Represents s'.heap v o) ∧
      s'.owned.length = s.owned.length ∧
      s'.heap.blocks.length = s.heap.blocks.length + k := by
  have hsame : Meaning.ownTexts ⟨m.values ++ List.replicate n none, texts, m.ints + k⟩ = m.ownTexts :=
    ownTexts_append_none n texts m.texts (m.ints + k) m.ints
  refine ⟨fun i v hv => hs'.object (slot_append hv), ?_, ?_⟩
  · rw [hs'.owned_length, hs.owned_length, hsame]
  · rw [hs'.blocks, hs.blocks, hsame, Nat.add_assoc]

/-- `POST` from its parameter to its end: the body of the blocks, and no object more than before. -/
theorem Holds.multipart (hs : Holds m s) (hdata : List.Forall₂ (Stands m.values) data blocks)
    {body : Bytes} (hbody : multipart blocks = some body) :
    ∃ s' texts n, multipartObjects data s = some (body, s') ∧
      Holds ⟨m.values ++ List.replicate n none, texts, m.ints + intBlocks blocks⟩ s' := by
  obtain ⟨parts, hparts, hbody⟩ := Option.bind_eq_some_iff.mp hbody
  obtain ⟨close, hclose, rfl⟩ := Option.map_eq_some_iff.mp hbody
  obtain ⟨s₁, hcopies, hs₁⟩ := copyBlocks_holds hs (List.append_nil _).symm hdata
  obtain ⟨s₂, texts, hloop, hs₂⟩ := appendObjects_holds hs₁ (List.append_nil _).symm
    (stands_numbered hdata m.values) hparts
  obtain ⟨s₃, hend, hs₃⟩ := destroyBlocks_holds hs₂ rfl hdata.length_eq
  refine ⟨s₃, texts, blocks.length + blocks.length, ?_, ?_⟩
  · rw [multipartObjects, hcopies, Option.bind_some]
    dsimp only
    rw [hloop, Option.bind_some]
    dsimp only
    rw [hclose, Option.bind_some, hend]
    rfl
  · rw [List.append_assoc, List.replicate_append_replicate] at hs₃
    exact hs₃

/-- **Values passed by value.** The same for a sequence of calls of `UrlValues::add` with
values that are alive: the query is the one their texts make, the values are as they were,
and each call with an integer leaves one block behind. -/
theorem query_temporaries (ops : List ValueOp) (m : Meaning) (s : Store)
    (calls : List (Bytes × Nat)) (pairs : List (Bytes × Value)) (u : UrlValues)
    (hm : run Meaning.step Meaning.start ops = some m)
    (hs : run Store.step Store.start ops = some s)
    (hcalls : List.Forall₂ (Names m.values) calls pairs)
    (hadd : addValues pairs ⟨[]⟩ = some u) :
    ∃ s', addObjects calls ⟨[]⟩ s = some (u, s') ∧
      (∀ i v, slot m.values i = some v →
        ∃ o, slot s'.objects i = some o ∧ Represents s'.heap v o) ∧
      s'.owned.length = s.owned.length ∧
      s'.heap.blocks.length
        = s.heap.blocks.length + pairs.countP fun pair => pair.2.made.isInt := by
  obtain ⟨t, ht, hholds⟩ := run_simulates holds_step holds_start hm
  cases hs.symm.trans ht
  obtain ⟨s', texts, hcall, hs'⟩ :=
    addObjects_holds hholds (List.append_nil _).symm hcalls hadd
  exact ⟨s', hcall, hholds.after hs'⟩

theorem query_temporaries_one :
    ∃ s u s', run Store.step Store.start [.ofInt 5] = some s ∧
      addObjects [(ascii "n", 0)] ⟨[]⟩ s = some (u, s') ∧
      s'.heap.blocks.length = s.heap.blocks.length + 1 := by
  have hm : run Meaning.step Meaning.start [.ofInt 5] = some ⟨[some (.int 5)], [], 0⟩ := rfl
  obtain ⟨s, hs, -⟩ := run_simulates holds_step holds_start hm
  have hcalls : List.Forall₂ (Names [some (.int 5)]) [(ascii "n", 0)] [(ascii "n", .integer 5)] :=
    .cons ⟨rfl, rfl⟩ .nil
  obtain ⟨t, ht, hfits⟩ := exists_str (.integer 5)
  have hadd : (addValues [(ascii "n", .integer 5)] ⟨[]⟩).isSome = true := by
    rw [addValues, List.foldlM_cons, UrlValues.add, ht, Option.bind_some,
      urlEncode_eq (Nat.le_of_lt hfits)]
    rfl
  obtain ⟨u, hu⟩ := Option.isSome_iff_exists.mp hadd
  obtain ⟨s', hcall, -, -, hblocks⟩ := query_temporaries _ _ s _ _ u hm hs hcalls hu
  exact ⟨s, u, s', hs, hcall, hblocks⟩

/-- **Blocks passed by value.** A program has made, copied, read and destroyed values and
then calls `POST` with blocks of values that are alive: where the blocks can be printed
at all, the body is theirs, every value of the program is alive with the same text, all
copies are freed, and what is allocated more than before is one block for each integer
among the values, which nothing frees. -/
theorem post_temporaries (ops : List ValueOp) (m : Meaning) (s : Store) (data : List BlockObject)
    (blocks : List DataBlock) (body : Bytes) (hm : run Meaning.step Meaning.start ops = some m)
    (hs : run Store.step Store.start ops = some s)
    (hdata : List.Forall₂ (Stands m.values) data blocks) (hbody : multipart blocks = some body) :
    ∃ s', multipartObjects data s = some (body, s') ∧
      (∀ i v, slot m.values i = some v →
        ∃ o, slot s'.objects i = some o ∧ Represents s'.heap v o) ∧
      s'.owned.length = s.owned.length ∧
      s'.heap.blocks.length = s.heap.blocks.length + intBlocks blocks := by
  obtain ⟨t, ht, hholds⟩ := run_simulates holds_step holds_start hm
  cases hs.symm.trans ht
  obtain ⟨s', texts, n, hcall, hs'⟩ := hholds.multipart hdata hbody
  exact ⟨s', hcall, hholds.after hs'⟩

/-- An integer and a text, each in a block. -/
def twoBlocks : List DataBlock :=
  [⟨oneLetter, .integer 5⟩, ⟨oneLetter, .text oneLetter (by simp [oneLetter, ascii, INT_MAX])⟩]

theorem post_temporaries_two :
    ∃ s body s', run Store.step Store.start [.ofInt 5, .ofText (some oneLetter)] = some s ∧
      multipart twoBlocks = some body ∧
      multipartObjects [(oneLetter, 0), (oneLetter, 1)] s = some (body, s') ∧
      s'.heap.blocks.length = s.heap.blocks.length + 1 := by
  have hfits : ∀ block ∈ twoBlocks, (printed block.pair).length < INT_MAX := by decide +kernel
  have hbody : multipart twoBlocks = some (bodyOf (twoBlocks.map DataBlock.pair)) := by
    rw [multipart_eq, if_pos hfits]
  have hm : run Meaning.step Meaning.start [.ofInt 5, .ofText (some oneLetter)]
      = some ⟨[some (.int 5), some (.text (some oneLetter))], [], 0⟩ := rfl
  have hdata : List.Forall₂ (Stands [some (.int 5), some (.text (some oneLetter))])
      [(oneLetter, 0), (oneLetter, 1)] twoBlocks :=
    .cons ⟨rfl, rfl⟩ (.cons ⟨rfl, rfl⟩ .nil)
  obtain ⟨s, hs, -⟩ := run_simulates holds_step holds_start hm
  obtain ⟨s', hcall, -, -, hblocks⟩ := post_temporaries _ _ s _ twoBlocks _ hm hs hdata hbody
  exact ⟨s, _, s', hs, hbody, hcall, hblocks⟩

end CommonCpp.Http
