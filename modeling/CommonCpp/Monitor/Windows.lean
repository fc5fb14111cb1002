import CommonCpp.Lib.Field
import CommonCpp.Monitor.Event
import Mathlib.Data.List.Forall2

/-!
# The Windows monitor's completion routine

`LpoverlappedCompletionRoutine` walks a chain of `FILE_NOTIFY_INFORMATION`
records through `NextEntryOffset` and calls `onchange_cb` once for each. The walk
is right: it meets every record, in order, and ends (`infoLoop_chain`). But the
change is passed on before anything of the record has gone into it: the file
name is read and dropped, and the `switch` on `Action` stands behind the call
and is empty. `reported_iff` says for which chains that makes no difference.

How a narrow path is converted, and what `append` makes of a wide file name,
depends on the machine's code page, so both are left open.
-/

namespace CommonCpp.Monitor

open CommonCpp.Lib

/-- `std::filesystem::path` on the machine. -/
structure WinPaths where
  /-- `path(s).string()` -/
  string : Bytes → Bytes
  /-- `path(s).append(name).string()` -/
  join : Bytes → List UInt16 → Bytes

/-! ## Records -/

/-- A `FILE_NOTIFY_INFORMATION` with what follows it up to the next. -/
structure Notification where
  action : UInt32
  fileName : List UInt16
  padding : Bytes

def unitBytes (name : List UInt16) : Bytes := name.flatMap fun u => littleEndian 2 u.toNat

/-- Where the next record starts, seen from this one. -/
def Notification.span (e : Notification) : Nat := 12 + 2 * e.fileName.length + e.padding.length

/-- A record in memory. -/
def Notification.encode (e : Notification) (nextEntryOffset : Nat) : Bytes :=
  littleEndian 4 nextEntryOffset ++ (littleEndian 4 e.action.toNat ++
    (littleEndian 4 (2 * e.fileName.length) ++ (unitBytes e.fileName ++ e.padding)))

/-- A chain in memory: `NextEntryOffset` is zero in the last record only. -/
def encodeChain : Notification → List Notification → Bytes
  | e, [] => e.encode 0
  | e, e' :: rest => e.encode e.span ++ encodeChain e' rest

/-- `buffer_len` -/
def bufferLen : Nat := 64 * 1024

/-- `lpBuffer` when the routine is called: a chain, and whatever stands behind it. -/
structure Completed where
  first : Notification
  rest : List Notification
  beyond : Bytes
  fits : (encodeChain first rest ++ beyond).length = bufferLen

def Completed.records (f : Completed) : List Notification := f.first :: f.rest

def Completed.buffer (f : Completed) : Bytes := encodeChain f.first f.rest ++ f.beyond

/-! ## The loop -/

/-- `std::wstring(info->FileName, info->FileNameLength / 2)`; `none` past the buffer. -/
def readUnits (buffer : Bytes) (offset count : Nat) : Option (List UInt16) :=
  (List.range count).mapM fun i => (field 2 buffer (offset + 2 * i)).map UInt16.ofNat

/-- `new common::monitor::change()`: value-initialised, so `ct` is the first enumerator. -/
def newChange : Change Bytes := ⟨.added, []⟩

/-- One round of the loop: the record's `NextEntryOffset`, and the change the callback
is called with. -/
def readInfo (paths : WinPaths) (pathToWatch buffer : Bytes) (offset : Nat) :
    Option (Nat × Change Bytes) :=
  (field 4 buffer (offset + 8)).bind fun fileNameLength =>
  (readUnits buffer (offset + 12) (fileNameLength / 2)).bind fun _filename =>
  let c := { newChange with path := paths.string pathToWatch }
  -- monitor->onchange_cb(c, monitor->obj), then the switch, which does nothing
  (field 4 buffer (offset + 4)).bind fun _action =>
  (field 4 buffer offset).map fun nextEntryOffset => (nextEntryOffset, c)

/-- `while (1)`, for at most `fuel` rounds; `seen` are the calls of `onchange_cb`. -/
def infoLoop (paths : WinPaths) (pathToWatch buffer : Bytes) :
    Nat → Nat → List (Change Bytes) → Option (List (Change Bytes))
  | 0, _, _ => none
  | fuel + 1, offset, seen =>
    (readInfo paths pathToWatch buffer offset).bind fun (nextEntryOffset, c) =>
      if nextEntryOffset ≠ 0 then
        infoLoop paths pathToWatch buffer fuel (offset + nextEntryOffset) (seen ++ [c])
      else some (seen ++ [c])

/-! ## What it should do -/

/-- The change types that say what an action says, as the Linux monitor has them. -/
def Corresponds (action : UInt32) (ct : ChangeType) : Prop :=
  if action = 1 then ct = .added
  else if action = 2 then ct = .removed
  else if action = 3 then ct = .modified
  else if action = 4 then ct = .renamed ∨ ct = .INMOVEDFROM
  else if action = 5 then ct = .renamed ∨ ct = .INMOVEDTO
  else ct = .unknown

/-- The loop ends after one call for each record, in order, each with the record's
path and action. -/
def Reported (paths : WinPaths) (pathToWatch : Bytes) (f : Completed) : Prop :=
  ∃ fuel seen, infoLoop paths pathToWatch f.buffer fuel 0 [] = some seen ∧
    List.Forall₂ (fun e c => Corresponds e.action c.ct ∧ c.path = paths.join pathToWatch e.fileName)
      f.records seen

/-! ## One record -/

@[simp] theorem length_unitBytes (name : List UInt16) : (unitBytes name).length = 2 * name.length := by
  induction name with
  | nil => rfl
  | cons u name ih =>
    show (littleEndian 2 u.toNat ++ unitBytes name).length = _
    rw [List.length_append, length_littleEndian, ih, List.length_cons]
    omega

@[simp] theorem length_encode_notification (e : Notification) (next : Nat) :
    (e.encode next).length = e.span := by
  unfold Notification.encode Notification.span
  simp only [List.length_append, length_littleEndian, length_unitBytes]
  omega

/-- The units of a name stand one behind the other. -/
theorem readUnits_append (name : List UInt16) (front back : Bytes) :
    (readUnits (front ++ (unitBytes name ++ back)) front.length name.length).isSome = true := by
  have hall : ∀ i ∈ List.range name.length, ((field 2 (front ++ (unitBytes name ++ back))
      (front.length + 2 * i)).map UInt16.ofNat).isSome = true := by
    intro i hi
    have hlt := List.mem_range.mp hi
    unfold field
    dsimp only
    have hlen : ((front ++ (unitBytes name ++ back)).drop (front.length + 2 * i)).length ≥ 2 := by
      simp only [List.length_drop, List.length_append, length_unitBytes]
      omega
    rw [List.length_take, if_pos (by omega)]
    rfl
  have hmap : ∀ is : List Nat, (∀ i ∈ is, ((field 2 (front ++ (unitBytes name ++ back))
      (front.length + 2 * i)).map UInt16.ofNat).isSome = true) →
      (is.mapM fun i => (field 2 (front ++ (unitBytes name ++ back))
        (front.length + 2 * i)).map UInt16.ofNat).isSome = true := by
    intro is
    induction is with
    | nil => intro _; rfl
    | cons i is ih =>
      intro h
      obtain ⟨u, hu⟩ := Option.isSome_iff_exists.mp (h i (List.mem_cons_self ..))
      obtain ⟨us, hus⟩ := Option.isSome_iff_exists.mp
        (ih fun j hj => h j (List.mem_cons_of_mem _ hj))
      rw [List.mapM_cons, hu, hus]
      rfl
  exact hmap _ hall

/-- Reading a record that stands behind `front`. -/
theorem readInfo_append (paths : WinPaths) (pathToWatch : Bytes) (e : Notification) {next : Nat}
    (front back : Bytes) (hnext : next < 2 ^ 32) (hname : 2 * e.fileName.length < 2 ^ 32) :
    readInfo paths pathToWatch (front ++ (e.encode next ++ back)) front.length
      = some (next, ⟨.added, paths.string pathToWatch⟩) := by
  have hoffset : field 4 (front ++ (e.encode next ++ back)) front.length = some next := by
    unfold Notification.encode
    rw [List.append_assoc]
    exact field_append hnext front _
  have haction : field 4 (front ++ (e.encode next ++ back)) (front.length + 4)
      = some e.action.toNat := by
    have hat := @field_append 4 _ e.action.toNat_lt (front ++ littleEndian 4 next)
      (littleEndian 4 (2 * e.fileName.length) ++ (unitBytes e.fileName ++ e.padding) ++ back)
    rw [List.length_append, length_littleEndian] at hat
    unfold Notification.encode
    simpa only [List.append_assoc] using hat
  have hlength : field 4 (front ++ (e.encode next ++ back)) (front.length + 8)
      = some (2 * e.fileName.length) := by
    have hat := @field_append 4 _ hname
      (front ++ (littleEndian 4 next ++ littleEndian 4 e.action.toNat))
      ((unitBytes e.fileName ++ e.padding) ++ back)
    simp only [List.length_append, length_littleEndian, Nat.reduceAdd] at hat
    unfold Notification.encode
    simpa only [List.append_assoc] using hat
  have hunits : (readUnits (front ++ (e.encode next ++ back)) (front.length + 12)
      (2 * e.fileName.length / 2)).isSome = true := by
    have hat := readUnits_append e.fileName
      (front ++ (littleEndian 4 next ++ (littleEndian 4 e.action.toNat ++
        littleEndian 4 (2 * e.fileName.length)))) (e.padding ++ back)
    simp only [List.length_append, length_littleEndian, Nat.reduceAdd] at hat
    rw [Nat.mul_div_cancel_left _ (Nat.two_pos)]
    unfold Notification.encode
    simpa only [List.append_assoc] using hat
  obtain ⟨units, hunits⟩ := Option.isSome_iff_exists.mp hunits
  unfold readInfo
  rw [hlength, Option.bind_some, hunits, Option.bind_some, haction, Option.bind_some, hoffset]
  rfl

/-! ## The chain -/

/-- The loop meets every record of a chain that stands behind `front`, and ends. -/
theorem infoLoop_chain (paths : WinPaths) (pathToWatch : Bytes) (e : Notification)
    (rest : List Notification) (front beyond : Bytes) (seen : List (Change Bytes))
    (hfit : (front ++ (encodeChain e rest ++ beyond)).length < 2 ^ 32) :
    infoLoop paths pathToWatch (front ++ (encodeChain e rest ++ beyond)) (rest.length + 1)
        front.length seen
      = some (seen ++ (e :: rest).map fun _ => ⟨.added, paths.string pathToWatch⟩) := by
  induction rest generalizing e front seen with
  | nil =>
    have hlen : (e.encode 0).length ≤ (front ++ (encodeChain e [] ++ beyond)).length := by
      simp only [encodeChain, List.length_append]
      omega
    rw [length_encode_notification] at hlen
    unfold Notification.span at hlen
    have hread := @readInfo_append paths pathToWatch e 0 front beyond (by omega) (by omega)
    rw [infoLoop, encodeChain, hread]
    rfl
  | cons e' rest ih =>
    have hsplit : front ++ (encodeChain e (e' :: rest) ++ beyond)
        = front ++ (e.encode e.span ++ (encodeChain e' rest ++ beyond)) := by
      rw [encodeChain, List.append_assoc]
    have hjoin : front ++ (e.encode e.span ++ (encodeChain e' rest ++ beyond))
        = (front ++ e.encode e.span) ++ (encodeChain e' rest ++ beyond) :=
      (List.append_assoc _ _ _).symm
    rw [hsplit] at hfit ⊢
    have hspan : e.span < 2 ^ 32 := by
      simp only [List.length_append, length_encode_notification] at hfit
      omega
    have hpos : e.span ≠ 0 := by
      unfold Notification.span
      omega
    have hname : 2 * e.fileName.length < 2 ^ 32 := by
      unfold Notification.span at hspan
      omega
    have hread := readInfo_append paths pathToWatch e front (encodeChain e' rest ++ beyond) hspan hname
    have hnext : front.length + e.span = (front ++ e.encode e.span).length := by
      rw [List.length_append, length_encode_notification]
    rw [List.length_cons, infoLoop, hread, Option.bind_some]
    dsimp only
    rw [if_pos hpos, hnext, hjoin, ih e' _ _ (hjoin ▸ hfit), List.append_assoc]
    rfl

/-- More fuel does not change how the loop ends. -/
theorem infoLoop_mono {paths : WinPaths} {pathToWatch buffer : Bytes} {fuel more offset : Nat}
    {seen result : List (Change Bytes)} (hle : fuel ≤ more)
    (h : infoLoop paths pathToWatch buffer fuel offset seen = some result) :
    infoLoop paths pathToWatch buffer more offset seen = some result := by
  induction fuel generalizing more offset seen with
  | zero => cases h
  | succ fuel ih =>
    obtain ⟨more, rfl⟩ : ∃ k, more = k + 1 := ⟨more - 1, by omega⟩
    rw [infoLoop] at h ⊢
    obtain ⟨⟨next, c⟩, hread, h⟩ := Option.bind_eq_some_iff.mp h
    rw [hread, Option.bind_some]
    dsimp only at h ⊢
    by_cases hnext : next ≠ 0
    · rw [if_pos hnext] at h ⊢
      exact ih (Nat.le_of_succ_le_succ hle) h
    · rw [if_neg hnext] at h ⊢
      exact h

/-- The loop over a completed buffer: one call for each record, all alike. -/
theorem infoLoop_completed (paths : WinPaths) (pathToWatch : Bytes) (f : Completed) :
    infoLoop paths pathToWatch f.buffer (f.rest.length + 1) 0 []
      = some (f.records.map fun _ => ⟨.added, paths.string pathToWatch⟩) := by
  have hfit : ([] ++ (encodeChain f.first f.rest ++ f.beyond)).length < 2 ^ 32 := by
    rw [List.nil_append, f.fits]
    decide
  exact infoLoop_chain paths pathToWatch f.first f.rest [] f.beyond [] hfit

theorem infoLoop_unique {paths : WinPaths} {pathToWatch : Bytes} {f : Completed} {fuel : Nat}
    {seen : List (Change Bytes)}
    (h : infoLoop paths pathToWatch f.buffer fuel 0 [] = some seen) :
    seen = f.records.map fun _ => ⟨.added, paths.string pathToWatch⟩ := by
  have hmine := infoLoop_mono (Nat.le_max_left fuel (f.rest.length + 1)) h
  have hthat := infoLoop_mono (Nat.le_max_right fuel (f.rest.length + 1))
    (infoLoop_completed paths pathToWatch f)
  exact Option.some.inj (hmine.symm.trans hthat)

/-! ## What the callback is told -/

@[simp] theorem corresponds_added {action : UInt32} : Corresponds action .added ↔ action = 1 := by
  unfold Corresponds
  split <;> simp_all

/-- What a list of calls that are all alike says of the records. -/
theorem forall₂_map_const {α β : Type} {R : α → β → Prop} {c : β} {l : List α} :
    List.Forall₂ R l (l.map fun _ => c) ↔ ∀ x ∈ l, R x c := by
  rw [List.forall₂_map_right_iff, List.forall₂_same]

theorem reported_iff_forall {paths : WinPaths} {pathToWatch : Bytes} {f : Completed} :
    Reported paths pathToWatch f ↔ ∀ e ∈ f.records,
      Corresponds e.action .added ∧ paths.string pathToWatch = paths.join pathToWatch e.fileName := by
  constructor
  · rintro ⟨fuel, seen, hloop, hall⟩
    rw [infoLoop_unique hloop] at hall
    exact forall₂_map_const.mp hall
  · intro hall
    exact ⟨_, _, infoLoop_completed paths pathToWatch f, forall₂_map_const.mpr hall⟩

/-- Every chain ends the loop after one call for each record. The calls say what the
records say exactly when every record is an addition whose file name leaves the
watched path as it is. -/
theorem reported_iff (paths : WinPaths) (pathToWatch : Bytes) (f : Completed) :
    (∃ fuel seen, infoLoop paths pathToWatch f.buffer fuel 0 [] = some seen ∧
      seen.length = f.records.length) ∧
    (Reported paths pathToWatch f ↔ ∀ e ∈ f.records,
      e.action = 1 ∧ paths.join pathToWatch e.fileName = paths.string pathToWatch) := by
  refine ⟨⟨_, _, infoLoop_completed paths pathToWatch f, List.length_map ..⟩, ?_⟩
  rw [reported_iff_forall]
  refine forall₂_congr fun e _ => ?_
  rw [corresponds_added, eq_comm (a := paths.string pathToWatch)]

/-- `append` where every unit of a name is one byte. -/
def plainPaths : WinPaths where
  string := id
  join s name := s ++ [92] ++ name.map fun u => u.toUInt8

/-- `C:\d`, and a buffer that says its file `f` was removed. -/
def removedFile : Completed where
  first := ⟨2, [102], [0, 0]⟩
  rest := []
  beyond := List.replicate (bufferLen - 16) 0
  fits := by
    rw [List.length_append, List.length_replicate, encodeChain, length_encode_notification]
    rfl

/-- A removal reaches the callback as an addition of the watched directory. -/
theorem removal_reported_as_addition :
    ¬ ∀ (paths : WinPaths) (pathToWatch : Bytes) (f : Completed), Reported paths pathToWatch f := by
  intro h
  have hone := reported_iff_forall.mp (h plainPaths [67, 58, 92, 100] removedFile) _
    (List.mem_cons_self ..)
  exact absurd (corresponds_added.mp hone.1) (by decide)

end CommonCpp.Monitor
