import CommonCpp.Fs.Access
import CommonCpp.Monitor.System

/-!
# What ends the reader thread

The loop of `_read_async` one call into the kernel at a time: `read`, the `stat`
behind `is_directory`, each `opendir` of `find_files`, each `inotify_add_watch`.
Between any two of them the rest of the machine may leave the kernel in any
state whatever (`Turn.others`): trees, permissions, watches and queued events;
and the application may have entered anything in `wd_map`.

All four calls throw when the kernel refuses, and nothing in the thread catches
it, so `std::terminate` is called and the event in hand is never passed on.
`survived_iff` says that this happens at the first refused call and at no other.
-/

namespace CommonCpp.Monitor

open CommonCpp.Fs CommonCpp.Lib

/-- What the reader deals with in the kernel. -/
structure Kernel where
  disk : Disk
  wdOf : Ino → Option Int
  nextWd : Int
  queue : List Event

/-- An event in hand, and the change made for it. A path that is `none` is the empty one. -/
abbrev Taken := Event × Change (Option Path)

/-- Where the loop stands. -/
inductive Position where
  /-- In front of the next event, or at `read`. -/
  | next
  /-- At `is_directory(fullpath)`. -/
  | taken (x : Taken)
  /-- In `find_files`, with the paths it has found. -/
  | listing (x : Taken) (files : List Path) (stack : List Item)
  /-- At `inotify_add_watch`, with the paths that have to be registered. -/
  | adding (x : Taken) (paths : List Path)
  /-- At `onchange(c, obj)`. -/
  | notify (x : Taken)
  /-- An exception left the thread. -/
  | terminated

/-- The event in hand. -/
def Position.inHand : Position → List Taken
  | .next | .terminated => []
  | .taken x | .listing x _ _ | .adding x _ | .notify x => [x]

/-- The reader thread and what it works on. -/
structure Loop where
  kernel : Kernel
  wdMap : Int → Option Path
  /-- The events in the buffer that have not been taken. -/
  batch : List Event
  position : Position
  /-- The events taken from the buffer. -/
  taken : List Taken
  /-- The events `onchange` was called for. -/
  seen : List Taken

/-- The thread starts. -/
def Loop.start (kernel : Kernel) (wdMap : Int → Option Path) : Loop :=
  ⟨kernel, wdMap, [], .next, [], []⟩

/-! ## The calls -/

/-- `inotify_add_watch` on an inode. -/
def Kernel.addWatch (k : Kernel) (ino : Ino) : Int × Kernel :=
  match k.wdOf ino with
  | some wd => (wd, k)
  | none =>
    (k.nextWd,
      { k with wdOf := Function.update k.wdOf ino (some k.nextWd), nextWd := k.nextWd + 1 })

/-- The body of `watch`'s loop; `none` is its exception. -/
def Loop.register (s : Loop) (p : Path) : Option Loop :=
  (s.kernel.disk.watchIno p).map fun ino =>
    let (wd, kernel) := s.kernel.addWatch ino
    { s with kernel := kernel, wdMap := Function.update s.wdMap wd (some p) }

/-- The change made for an event. -/
def Loop.changeOf (s : Loop) (e : Event) : Change (Option Path) :=
  ⟨changeType e.mask, e.pathFrom (s.wdMap e.wd)⟩

/-- The next step of the loop's body. -/
def Loop.advance (s : Loop) : Option Loop :=
  match s.position with
  | .next =>
    match s.batch with
    | [] => none
    | e :: rest =>
      -- a key `operator[]` enters has the empty path, like one that is not there
      let x := (e, s.changeOf e)
      some { s with
        batch := rest
        position := .taken x
        taken := s.taken ++ [x] }
  | .taken x =>
    some { s with
      position := match x.2.path with
        | none => .notify x
        | some p =>
          match s.kernel.disk.isDirectory p with
          | none => .terminated
          | some true => .listing x [p] [.directory p]
          | some false => .notify x }
  | .listing x files [] => some { s with position := .adding x files }
  | .listing x files (item :: stack) =>
    some { s with
      position := match s.kernel.disk.listStep files item stack with
        | none => .terminated
        | some (files, stack) => .listing x files stack }
  | .adding x [] => some { s with position := .notify x }
  | .adding x (p :: ps) =>
    match s.register p with
    | none => some { s with position := .terminated }
    | some s' => some { s' with position := .adding x ps }
  | .notify x => some { s with position := .next, seen := s.seen ++ [x] }
  | .terminated => none

/-- What can happen next. -/
inductive Turn where
  /-- The rest of the machine, and the application's own calls of `watch`. -/
  | others (kernel : Kernel) (wdMap : Int → Option Path)
  /-- `read` returns `n` events. -/
  | read (n : Nat)
  /-- A signal interrupts `read`. -/
  | interrupt
  /-- The thread goes on behind `read`. -/
  | advance

/-- The thread waits in `read`. -/
def Loop.AtRead (s : Loop) : Prop :=
  match s.position with
  | .next => s.batch = []
  | _ => False

instance (s : Loop) : Decidable s.AtRead := by
  unfold Loop.AtRead
  cases s.position <;> infer_instance

def Loop.step (s : Loop) : Turn → Option Loop
  | .others kernel wdMap => some { s with kernel := kernel, wdMap := wdMap }
  | .read n =>
    if s.AtRead ∧ 0 < n ∧ n ≤ s.kernel.queue.length then
      some { s with
        kernel := { s.kernel with queue := s.kernel.queue.drop n }
        batch := s.kernel.queue.take n }
    else none
  | .interrupt =>
    -- if (r == -1) throw, whatever errno says
    if s.AtRead then some { s with position := .terminated } else none
  | .advance => s.advance

/-! ## What has to hold, and when it does -/

/-- The thread lives, every event taken was passed to `onchange` or is in hand, and the
thread goes on unless it waits for events. -/
structure Loop.Alive (s : Loop) : Prop where
  running : s.position ≠ .terminated
  accounted : s.taken = s.seen ++ s.position.inHand
  ready : s.AtRead ∨ (s.step .advance).isSome = true

/-- The kernel does not refuse the call the loop stands at: `stat` says what there is or
that there is nothing, a directory that was listed can be opened, and a path that was
found can be watched. -/
def Position.Granted (d : Disk) : Position → Prop
  | .taken x => ∀ p ∈ x.2.path, d.sight p ≠ .refused
  | .listing _ _ (.directory p :: _) => (d.openDir p).isSome = true
  | .adding _ (p :: _) => (d.watchIno p).isSome = true
  | _ => True

instance (d : Disk) : ∀ position : Position, Decidable (position.Granted d)
  | .taken x => inferInstanceAs (Decidable (∀ p ∈ x.2.path, d.sight p ≠ .refused))
  | .listing _ _ (.directory p :: _) => inferInstanceAs (Decidable ((d.openDir p).isSome = true))
  | .adding _ (p :: _) => inferInstanceAs (Decidable ((d.watchIno p).isSome = true))
  | .next | .listing _ _ [] | .listing _ _ (.entries .. :: _) | .adding _ [] | .notify _
  | .terminated => isTrue trivial

/-- The kernel refuses nothing, and no `read` is interrupted. -/
def Granted (s : Loop) : Turn → Prop
  | .others .. | .read _ => True
  | .interrupt => False
  | .advance => s.position.Granted s.kernel.disk

instance (s : Loop) : ∀ turn, Decidable (Granted s turn)
  | .others .. | .read _ => isTrue trivial
  | .interrupt => isFalse id
  | .advance => inferInstanceAs (Decidable (s.position.Granted s.kernel.disk))

/-! ## One step -/

variable {s s' : Loop}

/-- Behind an event the loop always has something to do. -/
theorem ready_of_running (h : s.position ≠ .terminated) :
    s.AtRead ∨ (s.step .advance).isSome = true := by
  obtain ⟨kernel, wdMap, batch, position, taken, seen⟩ := s
  cases position with
  | next =>
    cases batch with
    | nil => exact .inl rfl
    | cons e rest => exact .inr rfl
  | taken x => exact .inr rfl
  | listing x files stack => cases stack <;> exact .inr rfl
  | adding x paths =>
    cases paths with
    | nil => exact .inr rfl
    | cons p ps =>
      refine .inr ?_
      unfold Loop.step Loop.advance
      dsimp only
      cases Loop.register ⟨kernel, wdMap, batch, .adding x (p :: ps), taken, seen⟩ p <;> rfl
  | notify x => exact .inr rfl
  | terminated => exact absurd rfl h

/-- `find_files` only throws where a directory cannot be opened. -/
theorem listStep_isSome {d : Disk} {files : List Path} {item : Item} {stack : List Item} :
    (d.listStep files item stack).isSome = true ↔
      ∀ p, item = .directory p → (d.openDir p).isSome = true := by
  cases item with
  | directory p =>
    rw [Disk.listStep, Option.isSome_map]
    exact ⟨fun h q hq => by cases hq; exact h, fun h => h p rfl⟩
  | entries p d =>
    have hsome : ∀ (b : Bool) (x y : List Path × List Item),
        (if b then some x else some y).isSome = true := by
      intro b x y
      cases b <;> rfl
    refine ⟨by rintro _ _ ⟨⟩, fun _ => ?_⟩
    cases d with
    | nil => rfl
    | leaf => rfl
    | dir n ino sub rest => exact hsome _ _ _

/-- What is in hand stays in hand until `onchange` is called, and the thread lives on
exactly if the step is granted. -/
theorem advance_spec (hstep : s.advance = some s') :
    (s'.position ≠ .terminated ↔ Granted s .advance) ∧
      (s'.position ≠ .terminated → s.taken = s.seen ++ s.position.inHand →
        s'.taken = s'.seen ++ s'.position.inHand) := by
  obtain ⟨kernel, wdMap, batch, position, taken, seen⟩ := s
  cases position with
  | next =>
    cases batch with
    | nil => cases hstep
    | cons e rest =>
      cases hstep
      refine ⟨⟨fun _ => trivial, fun _ => nofun⟩, fun _ h => ?_⟩
      have hprev : taken = seen := h.trans (List.append_nil seen)
      exact congrArg (fun l => l ++ _) hprev
  | taken x =>
    obtain ⟨e, ct, path⟩ := x
    cases hstep
    cases path with
    | none => exact ⟨⟨fun _ => nofun, fun _ => nofun⟩, fun _ h => h⟩
    | some p =>
      have hgranted : Granted ⟨kernel, wdMap, batch, .taken (e, ⟨ct, some p⟩), taken, seen⟩
          .advance ↔ kernel.disk.isDirectory p ≠ none := by
        rw [Ne, isDirectory_eq_none]
        exact ⟨fun h => h p rfl, fun h q hq => Option.some.inj hq ▸ h⟩
      rw [hgranted]
      dsimp only
      cases kernel.disk.isDirectory p with
      | none => exact ⟨⟨fun h => absurd rfl h, fun h => absurd rfl h⟩, fun h => absurd rfl h⟩
      | some b =>
        cases b with
        | true => exact ⟨⟨fun _ => nofun, fun _ => nofun⟩, fun _ h => h⟩
        | false => exact ⟨⟨fun _ => nofun, fun _ => nofun⟩, fun _ h => h⟩
  | listing x files stack =>
    cases stack with
    | nil =>
      cases hstep
      exact ⟨⟨fun _ => trivial, fun _ => nofun⟩, fun _ h => h⟩
    | cons item stack =>
      -- of the steps of a listing only `opendir` can fail
      have hsome := @listStep_isSome kernel.disk files item stack
      have hgranted : Granted ⟨kernel, wdMap, batch, .listing x files (item :: stack), taken, seen⟩
          .advance ↔ ∀ p, item = .directory p → (kernel.disk.openDir p).isSome = true := by
        cases item with
        | directory p => exact ⟨fun h q hq => by cases hq; exact h, fun h => h p rfl⟩
        | entries p d => exact ⟨fun _ => nofun, fun _ => trivial⟩
      cases hstep
      rw [hgranted, ← hsome]
      dsimp only
      cases kernel.disk.listStep files item stack with
      | none => exact ⟨⟨fun h => absurd rfl h, nofun⟩, fun h => absurd rfl h⟩
      | some y => exact ⟨⟨fun _ => rfl, fun _ => nofun⟩, fun _ h => h⟩
  | adding x paths =>
    cases paths with
    | nil =>
      cases hstep
      exact ⟨⟨fun _ => trivial, fun _ => nofun⟩, fun _ h => h⟩
    | cons p ps =>
      -- and here only `inotify_add_watch`
      unfold Loop.advance Loop.register at hstep
      unfold Granted Position.Granted
      dsimp only at hstep ⊢
      cases hino : kernel.disk.watchIno p with
      | none =>
        simp only [hino, Option.map_none] at hstep
        cases hstep
        exact ⟨⟨fun h => absurd rfl h, nofun⟩, fun h => absurd rfl h⟩
      | some ino =>
        simp only [hino, Option.map_some] at hstep
        cases hstep
        exact ⟨⟨fun _ => rfl, fun _ => nofun⟩, fun _ h => h⟩
  | notify x =>
    cases hstep
    exact ⟨⟨fun _ => trivial, fun _ => nofun⟩, fun _ h => h.trans (List.append_nil _).symm⟩
  | terminated => cases hstep

/-- At `is_directory` the loop goes where its answer leads. -/
theorem advance_taken {x : Taken} {p : Path} (hpos : s.position = .taken x)
    (hpath : x.2.path = some p) :
    s.advance = some { s with
      position := match s.kernel.disk.isDirectory p with
        | none => .terminated
        | some true => .listing x [p] [.directory p]
        | some false => .notify x } := by
  rw [Loop.advance, hpos]
  dsimp only
  rw [hpath]

/-- A link to itself in a watched directory ends the thread as soon as its event is taken,
whatever else there is and whatever is permitted. -/
theorem terminated_of_selfLink {x : Taken} {q : Path} {n : Name} {link : Spelling} {ino : Ino}
    (hpos : s.position = .taken x) (hpath : x.2.path = some (q ++ [n]))
    (hlink : s.kernel.disk.tree.stat (q ++ [n]) = some (.leaf ino (some link)))
    (hself : link.under q = q ++ [n]) : s.advance = some { s with position := .terminated } := by
  rw [advance_taken hpos hpath, isDirectory_eq_none.mpr (selfLink_refused _ hlink hself)]

/-! ## An event in hand is passed on -/

/-- The thread goes on while everything else stands still. -/
def Loop.Runs : Loop → Loop → Prop := Relation.ReflTransGen fun s s' => s.step .advance = some s'

theorem Loop.Runs.step {s₁ : Loop} (h : s.advance = some s₁) (hrun : s₁.Runs s') : s.Runs s' :=
  Relation.ReflTransGen.head h hrun

/-- All listed paths are registered. -/
theorem adding_runs {x : Taken} {ps : List Path} (hpos : s.position = .adding x ps)
    (hps : ∀ p ∈ ps, (s.kernel.disk.watchIno p).isSome = true) :
    ∃ s', s.Runs s' ∧ s'.position = .notify x ∧ s'.seen = s.seen ∧ s'.batch = s.batch := by
  induction ps generalizing s with
  | nil =>
    have hstep : s.advance = some { s with position := .notify x } := by
      rw [Loop.advance, hpos]
    exact ⟨{ s with position := .notify x }, .step hstep .refl, rfl, rfl, rfl⟩
  | cons p ps ih =>
    obtain ⟨ino, hino⟩ := Option.isSome_iff_exists.mp (hps p (List.mem_cons_self ..))
    obtain ⟨t, hreg, hdisk, hseen, hbatch⟩ : ∃ t, s.register p = some t ∧
        t.kernel.disk = s.kernel.disk ∧ t.seen = s.seen ∧ t.batch = s.batch := by
      refine ⟨_, Option.map_eq_some_iff.mpr ⟨ino, hino, rfl⟩, ?_, rfl, rfl⟩
      dsimp only
      unfold Kernel.addWatch
      cases s.kernel.wdOf ino <;> rfl
    have hstep : s.advance = some { t with position := .adding x ps } := by
      rw [Loop.advance, hpos]
      dsimp only
      rw [hreg]
    obtain ⟨s', hrun, hnotify, hseen', hbatch'⟩ := @ih { t with position := .adding x ps } rfl
      fun q hq => hdisk ▸ hps q (List.mem_cons_of_mem _ hq)
    exact ⟨s', .step hstep hrun, hnotify, hseen'.trans hseen, hbatch'.trans hbatch⟩

/-- The steps of `find_files` are steps of the thread. -/
theorem listing_runs (s : Loop) (x : Taken) {a b : List Path × List Item}
    (h : s.kernel.disk.ListRun a b) :
    Loop.Runs { s with position := .listing x a.1 a.2 } { s with position := .listing x b.1 b.2 } := by
  induction h using Relation.ReflTransGen.head_induction_on with
  | refl => exact .refl
  | head hone _ ih =>
    obtain ⟨item, stack, hstack, hlist⟩ := hone
    refine .step ?_ ih
    unfold Loop.advance
    dsimp only
    rw [hstack]
    dsimp only
    rw [hlist]

/-- **Progress.** Where everything may be read and nothing changes meanwhile, an event whose
path is not refused is passed on, and the loop is back in front of the next. -/
theorem passed_on {x : Taken} (hopen : s.kernel.disk.Open) (hwf : s.kernel.disk.tree.WF)
    (hpos : s.position = .taken x) (hsight : ∀ p ∈ x.2.path, s.kernel.disk.sight p ≠ .refused) :
    ∃ s', s.Runs s' ∧ s'.position = .next ∧ s'.seen = s.seen ++ [x] ∧ s'.batch = s.batch := by
  have hnotify : ∀ t : Loop, t.position = .notify x →
      t.Runs { t with position := .next, seen := t.seen ++ [x] } := by
    intro t ht
    refine .step ?_ .refl
    rw [Loop.advance, ht]
  have hplain : s.advance = some { s with position := .notify x } →
      ∃ s', s.Runs s' ∧ s'.position = .next ∧ s'.seen = s.seen ++ [x] ∧ s'.batch = s.batch :=
    fun hstep => ⟨_, .step hstep (hnotify _ rfl), rfl, rfl, rfl⟩
  cases hpath : x.2.path with
  | none =>
    refine hplain ?_
    rw [Loop.advance, hpos]
    dsimp only
    rw [hpath]
  | some p =>
    cases hd : s.kernel.disk.isDirectory p with
    | none => exact absurd (isDirectory_eq_none.mp hd) (hsight p hpath)
    | some r =>
      cases r with
      | false =>
        refine hplain ?_
        rw [advance_taken hpos hpath, hd]
      | true =>
        have hstep : s.advance = some { s with position := .listing x [p] [.directory p] } := by
          rw [advance_taken hpos hpath, hd]
        obtain ⟨paths, hlist, hwatch⟩ := listed_of_open hopen hwf hd
        have hlisted := listing_runs s x hlist
        obtain ⟨s', hadd, hpos', hseen, hbatch⟩ :=
          @adding_runs { s with position := .adding x paths } x paths rfl hwatch
        have hafter : Loop.Runs { s with position := .listing x paths [] }
            { s' with position := .next, seen := s'.seen ++ [x] } :=
          .step rfl (hadd.trans (hnotify s' hpos'))
        refine ⟨_, .step hstep (hlisted.trans hafter), rfl, ?_, hbatch⟩
        exact congrArg (fun l => l ++ [x]) hseen

/-! ## Runs -/

/-- While the thread runs no event is lost. -/
def Loop.Accounted (s : Loop) : Prop :=
  s.position ≠ .terminated → s.taken = s.seen ++ s.position.inHand

theorem alive_iff (h : s.Accounted) : s.Alive ↔ s.position ≠ .terminated :=
  ⟨Loop.Alive.running, fun hrun => ⟨hrun, h hrun, ready_of_running hrun⟩⟩

theorem running_of_advance (hstep : s.advance = some s') : s.position ≠ .terminated := by
  intro h
  rw [Loop.advance, h] at hstep
  cases hstep

theorem accounted_step {turn : Turn} (h : s.Accounted) (hstep : s.step turn = some s') :
    s'.Accounted := by
  cases turn with
  | others kernel wdMap =>
    cases hstep
    exact h
  | read n =>
    obtain ⟨-, hstep⟩ := Option.ite_none_right_eq_some.mp hstep
    cases hstep
    exact h
  | interrupt =>
    obtain ⟨-, hstep⟩ := Option.ite_none_right_eq_some.mp hstep
    cases hstep
    exact fun hrun => absurd rfl hrun
  | advance => exact fun hrun => (advance_spec hstep).2 hrun (h (running_of_advance hstep))

/-- The thread runs on exactly if the step is granted. -/
theorem running_step {turn : Turn} (hstep : s.step turn = some s') :
    s'.position ≠ .terminated ↔ s.position ≠ .terminated ∧ Granted s turn := by
  cases turn with
  | others kernel wdMap =>
    cases hstep
    exact ⟨fun h => ⟨h, trivial⟩, And.left⟩
  | read n =>
    obtain ⟨-, hstep⟩ := Option.ite_none_right_eq_some.mp hstep
    cases hstep
    exact ⟨fun h => ⟨h, trivial⟩, And.left⟩
  | interrupt =>
    obtain ⟨-, hstep⟩ := Option.ite_none_right_eq_some.mp hstep
    cases hstep
    exact ⟨fun h => absurd rfl h, fun h => h.2.elim⟩
  | advance =>
    rw [(advance_spec hstep).1]
    exact ⟨fun h => ⟨running_of_advance hstep, h⟩, And.right⟩

/-- **Survival.** In every run, whatever the rest of the machine does in between, the
reader lives, has passed on every event but the one in hand and can go on, if and
only if the kernel refused it nothing. -/
theorem survived_iff (kernel : Kernel) (wdMap : Int → Option Path) (turns : List Turn) (s : Loop)
    (hrun : run Loop.step (.start kernel wdMap) turns = some s) :
    s.Alive ↔ Along Loop.step Granted (.start kernel wdMap) turns := by
  have hstart : (Loop.start kernel wdMap).Accounted := fun _ => rfl
  have hacc := run_invariant accounted_step hstart hrun
  have hpos : s.position ≠ .terminated ↔ (Loop.start kernel wdMap).position ≠ .terminated ∧
      Along Loop.step Granted (.start kernel wdMap) turns :=
    @run_along_iff _ _ Loop.step (fun _ => True) (fun s => s.position ≠ .terminated) Granted
      (fun _ _ => trivial) (fun _ => running_step) _ _ _ trivial hrun
  rw [alive_iff hacc, hpos]
  exact and_iff_right nofun

/-- `/r`, which is watched as 1, with one entry in it whose event is queued. -/
def oneEntry (link : Option Spelling) : Kernel where
  disk := {
    tree := .dir 1 (.dir (ascii "r") 2 (.leaf (ascii "l") 3 link .nil) .nil)
    readable := fun _ => true
    searchable := fun _ => true
    tooLong := fun _ => false }
  wdOf := fun ino => if ino = 2 then some 1 else none
  nextWd := 2
  queue := [.named 1 IN_CREATE (ascii "l")]

/-- `wd_map` after `watch("/r")`. -/
def watchedR : Int → Option Path := fun wd => if wd = 1 then some [ascii "r"] else none

/-- The entry is a link to itself: `is_directory` throws. -/
theorem link_to_itself_kills : ¬ ∀ (kernel : Kernel) (wdMap : Int → Option Path)
    (turns : List Turn) (s : Loop), run Loop.step (.start kernel wdMap) turns = some s → s.Alive := by
  intro h
  have halive := h (oneEntry (some ⟨false, [ascii "l"]⟩)) watchedR [.read 1, .advance, .advance] _ rfl
  exact halive.running rfl

/-- The entry is a directory with another one in it. -/
def newDirectory : Kernel where
  disk := {
    tree := .dir 1 (.dir (ascii "r") 2 (.dir (ascii "d") 3 (.dir (ascii "e") 4 .nil .nil) .nil) .nil)
    readable := fun _ => true
    searchable := fun _ => true
    tooLong := fun _ => false }
  wdOf := fun ino => if ino = 2 then some 1 else none
  nextWd := 2
  queue := [.named 1 (IN_CREATE ||| IN_ISDIR) (ascii "d")]

/-- Both directories are opened and watched, and the event is passed on. -/
theorem survived_iff_directory : ∃ s, run Loop.step (.start newDirectory watchedR)
    (.read 1 :: List.replicate 12 .advance) = some s ∧
      [2, 3].map s.wdMap = [some [ascii "r", ascii "d"], some [ascii "r", ascii "d", ascii "e"]] ∧
      s.seen.map (fun x => x.2.path) = [some [ascii "r", ascii "d"]] ∧ s.Alive :=
  ⟨_, rfl, rfl, rfl, (survived_iff newDirectory watchedR (.read 1 :: List.replicate 12 .advance) _
    rfl).mpr (by decide)⟩

end CommonCpp.Monitor
