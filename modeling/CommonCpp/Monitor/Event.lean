import CommonCpp.Fs.Tree

/-!
# inotify events and reported changes

The mask bits of `<sys/inotify.h>` the monitor tests, the `change_type` it
derives from a mask, and the event record as the reader sees it.
-/

namespace CommonCpp.Monitor

open CommonCpp.Fs

/-- `change_type` of monitor.h. -/
inductive ChangeType where
  | added
  | removed
  | modified
  | renamed
  | INMOVEDFROM
  | INMOVEDTO
  | unknown
deriving DecidableEq

/-- `change` of monitor.h: what `onchange` is called with. -/
structure Change (π : Type) where
  ct : ChangeType
  path : π
deriving DecidableEq

def IN_MODIFY : UInt32 := 0x2
def IN_MOVED_FROM : UInt32 := 0x40
def IN_MOVED_TO : UInt32 := 0x80
def IN_CREATE : UInt32 := 0x100
def IN_DELETE : UInt32 := 0x200
def IN_IGNORED : UInt32 := 0x8000
def IN_ISDIR : UInt32 := 0x40000000

/-- The `if (event->mask & ...)` chain of `_read_async`. -/
def changeType (mask : UInt32) : ChangeType :=
  if mask &&& IN_CREATE ≠ 0 then .added
  else if mask &&& IN_DELETE ≠ 0 then .removed
  else if mask &&& IN_MODIFY ≠ 0 then .modified
  else if mask &&& IN_MOVED_FROM ≠ 0 then .INMOVEDFROM
  else if mask &&& IN_MOVED_TO ≠ 0 then .INMOVEDTO
  else .unknown

/-- One queued event. A record with `len = 0` has no name of its own; reading
`event->name` then yields whatever the buffer holds behind the record, spelled
by `behind`. -/
structure Event where
  wd : Int
  mask : UInt32
  name : Option Name
  behind : Spelling
deriving DecidableEq

/-- An event about the entry `n` of the watched directory. -/
def Event.named (wd : Int) (mask : UInt32) (n : Name) : Event := ⟨wd, mask, some n, ⟨false, []⟩⟩

/-- `std::filesystem::path(base).append(event->name)`. -/
def Event.fullPath (e : Event) (base : Path) : Path :=
  match e.name with
  | some n => base ++ [n]
  | none => e.behind.under base

/-- The same with what `wd_map` holds, where `none` is the empty path: it stays empty if
the record adds nothing. -/
def Event.pathFrom (e : Event) : Option Path → Option Path
  | some base => some (e.fullPath base)
  | none => if e.name = none ∧ e.behind = ⟨false, []⟩ then none else some (e.fullPath [])

end CommonCpp.Monitor
