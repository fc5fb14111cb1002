import CommonCpp.Lib.Field
import CommonCpp.Monitor.Event
import Mathlib.Logic.Function.Basic

/-!
# The inner loop of `_read_async`, on bytes

One `read` fills the front of a buffer with whole `inotify_event` records; what
stands behind them is left over. The loop walks the records by their `len` and
takes `event->name` for a C string, which a record with `len = 0` does not
have: there the name is read from what follows.

`decoded_iff` says when that goes well: exactly if every such record is
followed by a NUL, or by a C string that happens to be the watched directory's
own absolute path.
-/

namespace CommonCpp.Monitor

open CommonCpp.Lib

/-! ## Records -/

/-- A complete `inotify_event`. A name is stored with its NUL and padding, and
`len` is the length of all that. -/
structure Record where
  wd : Int32
  mask : UInt32
  cookie : UInt32
  name : Bytes
  ended : name = [] ∨ 0 ∈ name
  len_fits : name.length < 2 ^ 32

/-- `sizeof(inotify_event)` -/
def sizeofEvent : Nat := 16

/-- A record in memory. -/
def Record.encode (e : Record) : Bytes :=
  littleEndian 4 e.wd.toUInt32.toNat ++ (littleEndian 4 e.mask.toNat ++
    (littleEndian 4 e.cookie.toNat ++ (littleEndian 4 e.name.length ++ e.name)))

/-- The record's own name, empty if it has none. -/
def Record.ownName (e : Record) : Bytes := cStr e.name

/-- `(sizeof(inotify_event) + NAME_MAX + 1) * 1000` -/
def BUF_LEN : Nat := (sizeofEvent + 255 + 1) * 1000

/-- The buffer after a `read`: whole records, and what was there before behind them. -/
structure Filled where
  records : List Record
  beyond : Bytes
  fits : (records.flatMap Record.encode ++ beyond).length = BUF_LEN

def Filled.buffer (f : Filled) : Bytes := f.records.flatMap Record.encode ++ f.beyond

/-- What `read` returns. -/
def Filled.r (f : Filled) : Nat := (f.records.flatMap Record.encode).length

/-! ## The loop -/

/-- A path as `std::filesystem` sees it: from the root. -/
def isAbsolute (p : Bytes) : Bool := p.head? == some 0x2F

/-- `std::filesystem::path(base).append(name)`. -/
def appendName (base name : Bytes) : Bytes :=
  if isAbsolute name || base.isEmpty then name
  else if base.getLast? = some 0x2F then base ++ name
  else base ++ 0x2F :: name

/-- What the loop asks of the rest of the program: `is_directory`, and the
entries a call of `watch` makes in `wd_map`. Either sees the world as it is at
that moment. -/
structure World (σ : Type) where
  isDirectory : σ → Bytes → Bool × σ
  watch : σ → Bytes → List (Int32 × Bytes) × σ

/-- What the loop changes, and the calls of `onchange` so far. -/
structure ReadState (σ : Type) where
  wdMap : Int32 → Option Bytes
  world : σ
  seen : List (Change Bytes)

variable {σ : Type}

/-- `wd_map[wd]`, which also enters an absent key. -/
def ReadState.lookup (s : ReadState σ) (wd : Int32) : Bytes := (s.wdMap wd).getD []

def ReadState.enterKey (s : ReadState σ) (wd : Int32) : ReadState σ :=
  { s with wdMap := Function.update s.wdMap wd (some (s.lookup wd)) }

/-- `wd_map[wd] = path` -/
def ReadState.assign (s : ReadState σ) (entry : Int32 × Bytes) : ReadState σ :=
  { s with wdMap := Function.update s.wdMap entry.1 (some entry.2) }

/-- `if (is_directory(fullpath)) linux_monitor->watch(fullpath);` -/
def ReadState.descend (w : World σ) (s : ReadState σ) (fullpath : Bytes) : ReadState σ :=
  match w.isDirectory s.world fullpath with
  | (false, world) => { s with world := world }
  | (true, world) =>
    let (entries, world) := w.watch world fullpath
    entries.foldl ReadState.assign { s with world := world }

/-- The change built for a record with this name. -/
def ReadState.changeOf (s : ReadState σ) (wd : Int32) (mask : UInt32) (name : Bytes) :
    Change Bytes :=
  ⟨changeType mask, appendName (s.lookup wd) name⟩

/-- The body of the loop, once the name is known. -/
def ReadState.handle (w : World σ) (s : ReadState σ) (wd : Int32) (mask : UInt32) (name : Bytes) :
    ReadState σ :=
  let c := s.changeOf wd mask name
  let s := (s.enterKey wd).descend w c.path
  { s with seen := s.seen ++ [c] }

/-- `offset += event->len + sizeof(inotify_event)`, narrowed to an `int`;
`none` in front of the buffer. -/
def advance (offset len : Nat) : Option Nat :=
  let next := int32 (offset + (len + sizeofEvent))
  if 0 ≤ next then some next.toNat else none

/-- One round of the loop: the next offset and state; `none` if a byte outside
the buffer would be read. -/
def readRecord (w : World σ) (buffer : Bytes) (offset : Nat) (s : ReadState σ) :
    Option (Nat × ReadState σ) :=
  (field 4 buffer offset).bind fun wd =>
  (field 4 buffer (offset + 4)).bind fun mask =>
  (field 4 buffer (offset + 12)).bind fun len =>
  (advance offset len).bind fun next =>
  (cStringAt buffer (offset + sizeofEvent)).map fun name =>
    (next, s.handle w (UInt32.ofNat wd).toInt32 (UInt32.ofNat mask) name)

/-- `while (offset < r)`, for at most `fuel` rounds. -/
def readLoop (w : World σ) (buffer : Bytes) (r : Nat) :
    Nat → Nat → ReadState σ → Option (Nat × ReadState σ)
  | 0, _, _ => none
  | fuel + 1, offset, s =>
    if offset < r then
      (readRecord w buffer offset s).bind fun (next, s) => readLoop w buffer r fuel next s
    else some (offset, s)

/-! ## What it should do -/

/-- The loop's body for a record with its own name. -/
def ReadState.process (w : World σ) (s : ReadState σ) (e : Record) : ReadState σ :=
  s.handle w e.wd e.mask e.ownName

/-- One report for each record, in order, with the path the record is about. -/
def reports (w : World σ) : ReadState σ → List Record → List (Change Bytes)
  | _, [] => []
  | s, e :: rest => s.changeOf e.wd e.mask e.ownName :: reports w (s.process w e) rest

/-- The loop stops at `r` after reporting each record once. -/
def Decoded (w : World σ) (s : ReadState σ) (f : Filled) : Prop :=
  ∃ fuel s', readLoop w f.buffer f.r fuel 0 s = some (f.r, s') ∧
    s'.seen = s.seen ++ reports w s f.records

/-- What follows a record without a name cannot be told from an empty name: it
starts with a NUL, or is the directory's absolute path itself. -/
def Silent (base following : Bytes) : Prop :=
  following.head? = some 0 ∨
    0 ∈ following ∧ isAbsolute (cStr following) = true ∧ cStr following = appendName base []

/-- Every record without a name is followed by something silent. -/
def AllSilent (w : World σ) (s : ReadState σ) (records : List Record) (beyond : Bytes) : Prop :=
  ∀ front e back, records = front ++ e :: back → e.name = [] →
    Silent ((front.foldl (ReadState.process w) s).lookup e.wd)
      (back.flatMap Record.encode ++ beyond)

/-! ## One record -/

theorem length_encode (e : Record) : e.encode.length = sizeofEvent + e.name.length := by
  unfold Record.encode sizeofEvent
  simp only [List.length_append, length_littleEndian]
  omega

/-- Reading a record that stands behind `front`. -/
theorem readRecord_append (w : World σ) (s : ReadState σ) (e : Record) (front back : Bytes)
    (h : (front ++ (e.encode ++ back)).length < 2147483648) :
    readRecord w (front ++ (e.encode ++ back)) front.length s
      = if 0 ∈ e.name ++ back then
          some (front.length + e.encode.length, s.handle w e.wd e.mask (cStr (e.name ++ back)))
        else none := by
  have hlen := length_encode e
  -- each field stands behind the fields in front of it
  have hwd : field 4 (front ++ (e.encode ++ back)) front.length = some e.wd.toUInt32.toNat := by
    unfold Record.encode
    rw [List.append_assoc]
    exact field_append e.wd.toUInt32.toNat_lt front _
  have hmask : field 4 (front ++ (e.encode ++ back)) (front.length + 4) = some e.mask.toNat := by
    have hbound : e.mask.toNat < 256 ^ 4 := e.mask.toNat_lt
    have hat := field_append hbound (front ++ littleEndian 4 e.wd.toUInt32.toNat)
      (littleEndian 4 e.cookie.toNat ++ (littleEndian 4 e.name.length ++ (e.name ++ back)))
    rw [List.length_append, length_littleEndian] at hat
    unfold Record.encode
    simpa only [List.append_assoc] using hat
  have hnameLen : field 4 (front ++ (e.encode ++ back)) (front.length + 12)
      = some e.name.length := by
    have hbound : e.name.length < 256 ^ 4 := e.len_fits
    have hat := field_append hbound (front ++ (littleEndian 4 e.wd.toUInt32.toNat ++
      (littleEndian 4 e.mask.toNat ++ littleEndian 4 e.cookie.toNat))) (e.name ++ back)
    simp only [List.length_append, length_littleEndian, Nat.reduceAdd] at hat
    unfold Record.encode
    simpa only [List.append_assoc] using hat
  have hname : cStringAt (front ++ (e.encode ++ back)) (front.length + sizeofEvent)
      = if 0 ∈ e.name ++ back then some (cStr (e.name ++ back)) else none := by
    have hat := cStringAt_append (front ++ (littleEndian 4 e.wd.toUInt32.toNat ++
      (littleEndian 4 e.mask.toNat ++ (littleEndian 4 e.cookie.toNat ++
        littleEndian 4 e.name.length)))) (e.name ++ back)
    simp only [List.length_append, length_littleEndian, Nat.reduceAdd] at hat
    unfold Record.encode sizeofEvent
    simpa only [List.append_assoc] using hat
  have hnext : advance front.length e.name.length = some (front.length + e.encode.length) := by
    rw [List.length_append, List.length_append] at h
    unfold advance
    rw [int32_of_lt (by omega)]
    dsimp only
    rw [if_pos (by omega), Int.toNat_natCast, hlen, Nat.add_comm e.name.length]
  have hint : (UInt32.ofNat e.wd.toUInt32.toNat).toInt32 = e.wd := by
    rw [UInt32.ofNat_toNat, Int32.toInt32_toUInt32]
  unfold readRecord
  rw [hwd, hmask, hnameLen, hname, Option.bind_some, Option.bind_some, Option.bind_some, hnext,
    Option.bind_some, hint, UInt32.ofNat_toNat]
  split <;> rfl

/-- A record with a name of its own is read with that name. -/
theorem cStr_name_append {e : Record} (h : e.name ≠ []) (back : Bytes) :
    0 ∈ e.name ++ back ∧ cStr (e.name ++ back) = e.ownName := by
  have hmem : 0 ∈ e.name := e.ended.resolve_left h
  exact ⟨List.mem_append_left _ hmem, cStr_append hmem back⟩

/-! ## The name that is read -/

/-- Appending a name is told from appending none, but for the directory's own path. -/
theorem appendName_eq_iff (base name : Bytes) :
    appendName base name = appendName base [] ↔
      name = [] ∨ isAbsolute name = true ∧ name = appendName base [] := by
  constructor
  · intro h
    by_cases habs : isAbsolute name = true
    · refine Or.inr ⟨habs, ?_⟩
      rw [← h, appendName, habs, Bool.true_or, if_pos rfl]
    · refine Or.inl ?_
      have hfalse : isAbsolute name = false := by simpa using habs
      have hnil : isAbsolute [] = false := rfl
      unfold appendName at h
      rw [hfalse, hnil, Bool.false_or] at h
      split at h
      · exact h
      · split at h
        · exact List.append_cancel_left h
        · exact (List.cons.inj (List.append_cancel_left h)).2
  · intro h
    rcases h with rfl | ⟨habs, h⟩
    · rfl
    · rw [← h, appendName, habs, Bool.true_or, if_pos rfl]

theorem silent_iff (base following : Bytes) :
    Silent base following ↔
      0 ∈ following ∧ appendName base (cStr following) = appendName base [] := by
  rw [appendName_eq_iff]
  constructor
  · intro h
    rcases h with h | ⟨hmem, habs, h⟩
    · have hmem : 0 ∈ following := List.mem_of_mem_head? h
      exact ⟨hmem, Or.inl ((cStr_eq_nil_iff hmem).mpr h)⟩
    · exact ⟨hmem, Or.inr ⟨habs, h⟩⟩
  · intro ⟨hmem, h⟩
    rcases h with h | h
    · exact Or.inl ((cStr_eq_nil_iff hmem).mp h)
    · exact Or.inr ⟨hmem, h⟩

/-- The record is read with a name that gives the path of its own name. -/
def ReadsOwn (s : ReadState σ) (e : Record) (back : Bytes) : Prop :=
  0 ∈ e.name ++ back ∧
    appendName (s.lookup e.wd) (cStr (e.name ++ back)) = appendName (s.lookup e.wd) e.ownName

theorem readsOwn_iff (s : ReadState σ) (e : Record) (back : Bytes) :
    ReadsOwn s e back ↔ (e.name = [] → Silent (s.lookup e.wd) back) := by
  unfold ReadsOwn
  by_cases hname : e.name = []
  · have hown : e.ownName = [] := by
      unfold Record.ownName
      rw [hname]
      rfl
    rw [hown, hname, List.nil_append, ← silent_iff]
    exact ⟨fun h _ => h, fun h => h rfl⟩
  · obtain ⟨hmem, hstr⟩ := cStr_name_append hname back
    rw [hstr]
    exact ⟨fun _ h => absurd h hname, fun _ => ⟨hmem, rfl⟩⟩

/-! ## The calls of `onchange` -/

theorem seen_foldl_assign (entries : List (Int32 × Bytes)) (s : ReadState σ) :
    (entries.foldl ReadState.assign s).seen = s.seen := by
  induction entries generalizing s with
  | nil => rfl
  | cons entry entries ih => rw [List.foldl_cons, ih]; rfl

theorem seen_descend (w : World σ) (s : ReadState σ) (p : Bytes) :
    (s.descend w p).seen = s.seen := by
  unfold ReadState.descend
  split
  · rfl
  · exact seen_foldl_assign _ _

/-- One record, one report. -/
theorem seen_handle (w : World σ) (s : ReadState σ) (wd : Int32) (mask : UInt32) (name : Bytes) :
    (s.handle w wd mask name).seen = s.seen ++ [s.changeOf wd mask name] := by
  unfold ReadState.handle
  dsimp only
  rw [seen_descend]
  rfl

/-- What is done for a record depends on its name through the path only. -/
theorem handle_congr (w : World σ) {s : ReadState σ} {wd : Int32} (mask : UInt32)
    {name name' : Bytes} (h : appendName (s.lookup wd) name = appendName (s.lookup wd) name') :
    s.handle w wd mask name = s.handle w wd mask name' := by
  have hchange : s.changeOf wd mask name = s.changeOf wd mask name' := by
    unfold ReadState.changeOf
    rw [h]
  unfold ReadState.handle
  rw [hchange]

/-! ## The records -/

theorem allSilent_cons {w : World σ} {s : ReadState σ} {e : Record} {rest : List Record}
    {beyond : Bytes} :
    AllSilent w s (e :: rest) beyond ↔
      ReadsOwn s e (rest.flatMap Record.encode ++ beyond) ∧
        AllSilent w (s.process w e) rest beyond := by
  rw [readsOwn_iff]
  constructor
  · intro h
    refine ⟨fun hname => h [] e rest rfl hname, ?_⟩
    intro front e' back hsplit hname
    exact h (e :: front) e' back (by rw [hsplit]; rfl) hname
  · intro ⟨hfirst, hrest⟩ front e' back hsplit hname
    cases front with
    | nil =>
      obtain ⟨rfl, rfl⟩ := List.cons.inj hsplit
      exact hfirst hname
    | cons e₀ front =>
      obtain ⟨rfl, htail⟩ := List.cons.inj hsplit
      exact hrest front e' back htail hname

/-! ## The loop, record by record -/

/-- What the loop does: each record in turn, with the name that is read there. -/
def walk (w : World σ) : ReadState σ → List Record → Bytes → Option (ReadState σ)
  | s, [], _ => some s
  | s, e :: rest, beyond =>
    let following := e.name ++ (rest.flatMap Record.encode ++ beyond)
    if 0 ∈ following then walk w (s.handle w e.wd e.mask (cStr following)) rest beyond else none

/-- The loop on the bytes is the walk along the records, `front` being what is behind it. -/
theorem readLoop_eq_walk (w : World σ) (records : List Record) (front beyond : Bytes)
    (s s' : ReadState σ) {r : Nat} (hr : front.length + (records.flatMap Record.encode).length = r)
    (hfit : (front ++ (records.flatMap Record.encode ++ beyond)).length < 2147483648) :
    (∃ fuel, readLoop w (front ++ (records.flatMap Record.encode ++ beyond)) r fuel
        front.length s = some (r, s')) ↔ walk w s records beyond = some s' := by
  induction records generalizing front s with
  | nil =>
    rw [List.flatMap_nil, List.length_nil, Nat.add_zero] at hr
    constructor
    · intro ⟨fuel, hloop⟩
      cases fuel with
      | zero => cases hloop
      | succ fuel =>
        rw [readLoop, hr, if_neg (Nat.lt_irrefl _)] at hloop
        cases hloop
        rfl
    · intro hwalk
      cases hwalk
      exact ⟨1, by rw [readLoop, hr, if_neg (Nat.lt_irrefl _)]⟩
  | cons e rest ih =>
    -- the record behind `front` is read, and then `front` ends behind it
    have hbuffer : front ++ ((e :: rest).flatMap Record.encode ++ beyond)
        = front ++ (e.encode ++ (rest.flatMap Record.encode ++ beyond)) := by
      rw [List.flatMap_cons, List.append_assoc]
    have hbuffer' : front ++ (e.encode ++ (rest.flatMap Record.encode ++ beyond))
        = (front ++ e.encode) ++ (rest.flatMap Record.encode ++ beyond) :=
      (List.append_assoc _ _ _).symm
    have hlen := length_encode e
    unfold sizeofEvent at hlen
    rw [List.flatMap_cons, List.length_append] at hr
    have hlt : front.length < r := by omega
    have hr' : (front ++ e.encode).length + (rest.flatMap Record.encode).length = r := by
      rw [List.length_append]
      omega
    rw [hbuffer] at hfit ⊢
    have hread := readRecord_append w s e front _ hfit
    rw [hbuffer'] at hfit hread
    rw [hbuffer', walk]
    split
    · next hmem =>
      rw [if_pos hmem, ← List.length_append] at hread
      rw [← ih (front ++ e.encode) _ hr' hfit]
      constructor
      · intro ⟨fuel, hloop⟩
        cases fuel with
        | zero => cases hloop
        | succ fuel =>
          rw [readLoop, if_pos hlt, hread, Option.bind_some] at hloop
          exact ⟨fuel, hloop⟩
      · intro ⟨fuel, hloop⟩
        exact ⟨fuel + 1, by rw [readLoop, if_pos hlt, hread, Option.bind_some]; exact hloop⟩
    · next hmem =>
      rw [if_neg hmem] at hread
      constructor
      · intro ⟨fuel, hloop⟩
        cases fuel with
        | zero => cases hloop
        | succ fuel =>
          rw [readLoop, if_pos hlt, hread] at hloop
          cases hloop
      · intro hwalk
        cases hwalk

/-- The walk only adds to the reports. -/
theorem seen_walk {w : World σ} {records : List Record} {beyond : Bytes} {s s' : ReadState σ}
    (h : walk w s records beyond = some s') : s.seen <+: s'.seen := by
  induction records generalizing s with
  | nil =>
    cases h
    exact List.prefix_refl _
  | cons e rest ih =>
    rw [walk] at h
    split at h
    · have hgrow := ih h
      rw [seen_handle] at hgrow
      exact (List.prefix_append _ _).trans hgrow
    · cases h

theorem walk_iff (w : World σ) (records : List Record) (beyond : Bytes) (s : ReadState σ) :
    (∃ s', walk w s records beyond = some s' ∧ s'.seen = s.seen ++ reports w s records) ↔
      AllSilent w s records beyond := by
  induction records generalizing s with
  | nil =>
    constructor
    · intro _ before e back hsplit
      simp at hsplit
    · intro _
      exact ⟨s, rfl, (List.append_nil _).symm⟩
  | cons e rest ih =>
    rw [allSilent_cons, ← ih (s.process w e), walk]
    constructor
    · intro ⟨s', hwalk, hseen⟩
      split at hwalk
      · next hmem =>
        -- the first report tells which path the first name gave
        obtain ⟨more, hmore⟩ := seen_walk hwalk
        rw [seen_handle, hseen, List.append_assoc, reports] at hmore
        have hfirst := (List.cons.inj (List.append_cancel_left hmore)).1
        have hpath : appendName (s.lookup e.wd) (cStr (e.name ++ _))
            = appendName (s.lookup e.wd) e.ownName := congrArg Change.path hfirst
        rw [handle_congr w e.mask hpath] at hwalk
        refine ⟨⟨hmem, hpath⟩, s', hwalk, ?_⟩
        rw [hseen, reports, ReadState.process, seen_handle, List.append_assoc]
        rfl
      · cases hwalk
    · intro ⟨⟨hmem, hpath⟩, s', hwalk, hseen⟩
      refine ⟨s', ?_, ?_⟩
      · rw [if_pos hmem, handle_congr w e.mask hpath]
        exact hwalk
      · rw [hseen, reports, ReadState.process, seen_handle, List.append_assoc]
        rfl

theorem readLoop_iff_walk (w : World σ) (s s' : ReadState σ) (f : Filled) :
    (∃ fuel, readLoop w f.buffer f.r fuel 0 s = some (f.r, s')) ↔
      walk w s f.records f.beyond = some s' :=
  readLoop_eq_walk w f.records [] f.beyond s s' (Nat.zero_add _) (f.fits ▸ by decide)

/-- A read is decoded if the walk along its records reports them. -/
theorem decoded_iff_walk (w : World σ) (s : ReadState σ) (f : Filled) :
    Decoded w s f ↔ ∃ s', walk w s f.records f.beyond = some s' ∧
      s'.seen = s.seen ++ reports w s f.records := by
  unfold Decoded
  rw [exists_comm]
  refine exists_congr fun s' => ?_
  rw [exists_and_right, readLoop_iff_walk]

/-- **When a read is decoded.** For every content of the buffer, every `wd_map` and
every answer of the file system: the loop stops with offset `r` after one call of
`onchange` for each record, in order, with the type of the record's mask and the
directory's path with the record's own name appended, if and only if every record
with `len = 0` is followed by a NUL, or by a C string that is the path to be
reported itself. -/
theorem decoded_iff (w : World σ) (s : ReadState σ) (f : Filled) :
    Decoded w s f ↔ AllSilent w s f.records f.beyond := by
  rw [decoded_iff_walk]
  exact walk_iff w f.records f.beyond s

/-- A directory's watch has gone, and an entry was made in another: `IN_IGNORED`
without a name, then `IN_CREATE` with one. -/
def ignoredThenCreated : Filled where
  records :=
    [⟨1, IN_IGNORED, 0, [], Or.inl rfl, by decide⟩,
      ⟨2, IN_CREATE, 0, ascii "f" ++ List.replicate 15 0, Or.inr (by decide), by decide⟩]
  beyond := List.replicate 271952 0
  fits := by
    rw [List.length_append, List.length_replicate]
    rfl

/-- The first is reported with the bytes of the second's descriptor for a name. -/
theorem ignored_misread :
    ¬ ∀ (w : World Unit) (s : ReadState Unit) (f : Filled), Decoded w s f := by
  intro h
  have hdec := h ⟨fun _ _ => (false, ()), fun _ _ => ([], ())⟩
    ⟨fun _ => some (ascii "/r"), (), []⟩ ignoredThenCreated
  have hall := (walk_iff _ _ _ _).mp ((decoded_iff_walk _ _ _).mp hdec)
  rcases hall [] _ _ rfl rfl with hsilent | ⟨-, habs, -⟩
  · revert hsilent
    decide
  · revert habs
    decide

end CommonCpp.Monitor
