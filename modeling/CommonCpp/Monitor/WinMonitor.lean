import CommonCpp.Lib.Run
import CommonCpp.Monitor.Windows

/-!
# The Windows monitor at work

`read_async` asks for the changes in a directory once; from then on the completion
routine asks again at its end, behind the calls of `onchange_cb`. Between two requests
Windows keeps what happens in a buffer of its own, which can overflow: a request then
completes with nothing in `lpBuffer`, and the routine, which looks at neither of its
first two arguments, finds the blank record `ZeroMemory` left there.

The calls do not say what happened (`reported_iff`). They do say that something did: a
listener that looks at the directory in every call never misses anything for good
(`signalled`). This is about one `win_monitor`, read once; a second one would share
the buffer, the handle and the `OVERLAPPED`.
-/

namespace CommonCpp.Monitor

open CommonCpp.Lib

/-! ## The directory and its reader -/

/-- What a notification says. -/
structure Happening where
  action : UInt32
  fileName : List UInt16
deriving DecidableEq

def Notification.happening (e : Notification) : Happening := ⟨e.action, e.fileName⟩

/-- The request of `::ReadDirectoryChangesW`. -/
inductive Request where
  | idle
  | outstanding
  /-- The completion routine is queued. -/
  | completed
deriving DecidableEq

/-- Where the thread is that called `read_async`. -/
inductive WinThread where
  /-- Back in the program, which waits so that the completion routine can run. -/
  | waiting
  /-- In the routine's loop, with `info` at this offset. -/
  | walking (offset : Nat)
  /-- Behind the loop, in front of `ReadDirectoryChangesW`. -/
  | arming
  | threw
  /-- It has read past `lpBuffer`. -/
  | outside
deriving DecidableEq

structure WinSys where
  /-- What has happened in the directory since the first request. -/
  happened : List Happening
  /-- What Windows has kept of it for the next completion. -/
  kept : List Happening
  /-- There was no room for some of it. -/
  lost : Bool
  request : Request
  lpBuffer : Bytes
  thread : WinThread
  /-- The calls of `onchange_cb`. -/
  calls : List (Change Bytes)
  /-- How much of what has happened the listener has seen. It looks at the directory in
  every call. -/
  scanned : Nat

/-- `ZeroMemory(lpBuffer, buffer_len)` -/
def zeroed : Bytes := List.replicate bufferLen 0

/-- `win_monitor::ReadDirectoryChangesW`; it throws where the call fails. -/
def WinSys.readDirectoryChangesW (s : WinSys) (ok : Bool) : WinSys :=
  let s := { s with lpBuffer := zeroed }
  if ok then { s with request := .outstanding, thread := .waiting } else { s with thread := .threw }

/-- `read_async`, with how `CreateFileA` and the first request go. -/
def winReadAsync (opened ok : Bool) : WinSys :=
  let s : WinSys := ⟨[], [], false, .idle, zeroed, .waiting, [], 0⟩
  if opened then s.readDirectoryChangesW ok else { s with thread := .threw }

/-- `monitor->onchange_cb(c, monitor->obj)`, and where the loop goes behind it. -/
def WinSys.callback (s : WinSys) (c : Change Bytes) (behind : WinThread) : WinSys :=
  { s with calls := s.calls ++ [c], scanned := s.happened.length, thread := behind }

section

variable (paths : WinPaths) (pathToWatch : Bytes)

/-- The thread's next step. The routine runs when it is queued and the thread waits. -/
def WinSys.threadStep (s : WinSys) (ok : Bool) : Option WinSys :=
  match s.thread with
  | .waiting =>
    if s.request = .completed then some { s with request := .idle, thread := .walking 0 }
    else none
  | .walking offset =>
    match readInfo paths pathToWatch s.lpBuffer offset with
    | none => some { s with thread := .outside }
    | some (nextEntryOffset, c) =>
      some (s.callback c
        (if nextEntryOffset ≠ 0 then .walking (offset + nextEntryOffset) else .arming))
  | .arming => some (s.readDirectoryChangesW ok)
  | .threw | .outside => none

/-- Something happens in the directory; `room` says whether Windows can keep it. -/
def WinSys.happen (s : WinSys) (x : Happening) (room : Bool) : WinSys :=
  let s := { s with happened := s.happened ++ [x] }
  if room && !s.lost then { s with kept := s.kept ++ [x] } else { s with kept := [], lost := true }

/-- The request completes with the first of what was kept. -/
def WinSys.complete (s : WinSys) (f : Completed) : Option WinSys :=
  let said := f.records.map Notification.happening
  if s.request = .outstanding ∧ s.lost = false ∧ said.isPrefixOf s.kept then
    some { s with request := .completed, lpBuffer := f.buffer, kept := s.kept.drop said.length }
  else none

/-- The request completes with zero bytes, since something was lost or does not fit. -/
def WinSys.discard (s : WinSys) : Option WinSys :=
  if s.request = .outstanding ∧ (s.lost = true ∨ s.kept ≠ []) then
    some { s with request := .completed, kept := [], lost := false }
  else none

inductive WinAct where
  | happen (x : Happening) (room : Bool)
  /-- The program looks at the directory by itself. -/
  | scan
  | complete (f : Completed)
  | discard
  | thread (ok : Bool)

def winStep (s : WinSys) : WinAct → Option WinSys
  | .happen x room => some (s.happen x room)
  | .scan => some { s with scanned := s.happened.length }
  | .complete f => s.complete f
  | .discard => s.discard
  | .thread ok => s.threadStep paths pathToWatch ok

/-- The steps of Windows and of the thread that follow from what has happened. -/
def WinAct.serves : WinAct → Bool
  | .happen _ _ | .scan => false
  | .complete _ | .discard | .thread _ => true

/-- Nothing is dropped in this step. -/
def WinAct.keeps : WinAct → Bool
  | .happen _ room => room
  | .discard => false
  | .scan | .complete _ | .thread _ => true

/-- The request waits for something to happen. -/
structure WinSys.AtRest (s : WinSys) : Prop where
  thread : s.thread = .waiting
  request : s.request = .outstanding
  kept : s.kept = []
  lost : s.lost = false

/-! ## What is still to come -/

/-- The calls of the loop from `offset` on. -/
def WinSys.ahead (s : WinSys) (offset : Nat) : Nat :=
  ((infoLoop paths pathToWatch s.lpBuffer bufferLen offset s.calls).map fun seen =>
    seen.length - s.calls.length).getD 0

/-- The calls that what is in `lpBuffer` still leads to. -/
def WinSys.rounds (s : WinSys) : Nat :=
  match s.thread, s.request with
  | .waiting, .completed => s.ahead paths pathToWatch 0
  | .walking offset, _ => s.ahead paths pathToWatch offset
  | _, _ => 0

/-- The calls owed for what was not handed over, one for all that was lost, and those
under way. -/
def WinSys.backlog (s : WinSys) : Nat :=
  s.kept.length + s.lost.toNat + s.rounds paths pathToWatch

/-- The steps left at most. -/
def WinSys.work (s : WinSys) : Nat :=
  4 * (s.kept.length + s.lost.toNat) + s.rounds paths pathToWatch +
    match s.thread, s.request with
    | .waiting, .completed => 2
    | .walking _, _ | .arming, _ => 1
    | _, _ => 0

/-! ## The loop from where it stands -/

/-- What every call says. -/
def signal : Change Bytes := ⟨.added, paths.string pathToWatch⟩

/-- From `offset` on the loop makes `n` more calls and ends. -/
def WinSys.Walk (s : WinSys) (offset n : Nat) : Prop :=
  ∃ fuel ≤ bufferLen, ∃ seen,
    infoLoop paths pathToWatch s.lpBuffer fuel offset s.calls = some seen ∧
      seen.length = s.calls.length + n

/-- Where the thread is, the request and the buffer fit together. -/
def WinSys.Stage (s : WinSys) : Prop :=
  match s.thread, s.request with
  | .waiting, .outstanding => s.lpBuffer = zeroed
  | .waiting, .completed => ∃ n, s.Walk paths pathToWatch 0 n
  | .walking offset, .idle => ∃ n, s.Walk paths pathToWatch offset n
  | .arming, .idle | .threw, .idle => True
  | _, _ => False

end

variable {paths : WinPaths} {pathToWatch : Bytes} {s s' : WinSys} {a : WinAct}

/-- The record that `ZeroMemory` leaves. -/
def blank : Completed where
  first := ⟨0, [], []⟩
  rest := []
  beyond := List.replicate (bufferLen - 12) 0
  fits := by
    rw [List.length_append, List.length_replicate, encodeChain, length_encode_notification]
    rfl

theorem buffer_blank : blank.buffer = zeroed := by
  have hhead : encodeChain blank.first blank.rest = List.replicate 12 0 := by decide
  unfold Completed.buffer zeroed
  rw [hhead]
  exact List.replicate_append_replicate

theorem length_encodeChain (e : Notification) (rest : List Notification) :
    rest.length < (encodeChain e rest).length := by
  induction rest generalizing e with
  | nil =>
    rw [encodeChain, length_encode_notification, Notification.span, List.length_nil]
    omega
  | cons e' rest ih =>
    have hrest := ih e'
    rw [encodeChain, List.length_append, length_encode_notification, Notification.span,
      List.length_cons]
    omega

/-- The routine finds a call for every record. -/
theorem walk_completed (s : WinSys) (f : Completed) (hbuffer : s.lpBuffer = f.buffer) :
    s.Walk paths pathToWatch 0 f.records.length := by
  have hfits := f.fits
  have hlen := length_encodeChain f.first f.rest
  rw [List.length_append] at hfits
  have hfit : ([] ++ (encodeChain f.first f.rest ++ f.beyond)).length < 2 ^ 32 := by
    rw [List.nil_append, f.fits]
    decide
  have hloop := infoLoop_chain paths pathToWatch f.first f.rest [] f.beyond s.calls hfit
  rw [List.nil_append, List.length_nil] at hloop
  change infoLoop paths pathToWatch f.buffer _ 0 _ = _ at hloop
  rw [← hbuffer] at hloop
  refine ⟨f.rest.length + 1, by omega, _, hloop, ?_⟩
  rw [List.length_append, List.length_map]
  rfl

theorem infoLoop_longer {buffer : Bytes} {fuel offset : Nat} {seen all : List (Change Bytes)}
    (h : infoLoop paths pathToWatch buffer fuel offset seen = some all) :
    seen.length < all.length := by
  induction fuel generalizing offset seen with
  | zero => cases h
  | succ fuel ih =>
    rw [infoLoop] at h
    obtain ⟨⟨next, c⟩, -, h⟩ := Option.bind_eq_some_iff.mp h
    dsimp only at h
    split at h
    · have hlen := ih h
      rw [List.length_append, List.length_singleton] at hlen
      omega
    · cases h
      rw [List.length_append, List.length_singleton]
      omega

theorem readInfo_signal {buffer : Bytes} {offset next : Nat} {c : Change Bytes}
    (h : readInfo paths pathToWatch buffer offset = some (next, c)) :
    c = signal paths pathToWatch := by
  unfold readInfo at h
  obtain ⟨_, -, h⟩ := Option.bind_eq_some_iff.mp h
  obtain ⟨_, -, h⟩ := Option.bind_eq_some_iff.mp h
  obtain ⟨_, -, h⟩ := Option.bind_eq_some_iff.mp h
  obtain ⟨_, -, h⟩ := Option.map_eq_some_iff.mp h
  cases h
  rfl

theorem WinSys.Walk.pos {offset n : Nat} (h : s.Walk paths pathToWatch offset n) : 0 < n := by
  obtain ⟨fuel, -, seen, hloop, hlen⟩ := h
  have hlonger := infoLoop_longer hloop
  omega

/-- The next round is the last, or the walk goes on behind it. -/
theorem WinSys.Walk.round {offset n : Nat} (h : s.Walk paths pathToWatch offset n) :
    ∃ next, readInfo paths pathToWatch s.lpBuffer offset = some (next, signal paths pathToWatch) ∧
      if next ≠ 0 then ∃ m, n = m + 1 ∧
        ∀ behind, (s.callback (signal paths pathToWatch) behind).Walk paths pathToWatch
          (offset + next) m
      else n = 1 := by
  obtain ⟨fuel, hfuel, seen, hloop, hlen⟩ := h
  cases fuel with
  | zero => cases hloop
  | succ fuel =>
    rw [infoLoop] at hloop
    obtain ⟨⟨next, c⟩, hread, hloop⟩ := Option.bind_eq_some_iff.mp hloop
    cases readInfo_signal hread
    refine ⟨next, hread, ?_⟩
    dsimp only at hloop
    by_cases hnext : next ≠ 0
    · rw [if_pos hnext] at hloop ⊢
      have hlonger := infoLoop_longer hloop
      rw [List.length_append, List.length_singleton] at hlonger
      refine ⟨n - 1, by omega, fun behind => ⟨fuel, by omega, seen, hloop, ?_⟩⟩
      rw [WinSys.callback, List.length_append, List.length_singleton]
      omega
    · rw [if_neg hnext] at hloop ⊢
      cases hloop
      rw [List.length_append, List.length_singleton] at hlen
      omega

theorem WinSys.Walk.ahead {offset n : Nat} (h : s.Walk paths pathToWatch offset n) :
    s.ahead paths pathToWatch offset = n := by
  obtain ⟨fuel, hfuel, seen, hloop, hlen⟩ := h
  unfold WinSys.ahead
  rw [infoLoop_mono hfuel hloop, Option.map_some, Option.getD_some]
  omega

/-! ## What a step does -/

/-- The steps of a stage that fits together. -/
inductive WinDoes (paths : WinPaths) (pathToWatch : Bytes) (s : WinSys) : WinAct → WinSys → Prop
  | kept (x : Happening) (hlost : s.lost = false) :
    WinDoes paths pathToWatch s (.happen x true)
      { s with happened := s.happened ++ [x], kept := s.kept ++ [x] }
  | lost (x : Happening) (room : Bool) (hlost : room = true → s.lost = true) :
    WinDoes paths pathToWatch s (.happen x room)
      { s with happened := s.happened ++ [x], kept := [], lost := true }
  | scan : WinDoes paths pathToWatch s .scan { s with scanned := s.happened.length }
  | complete (f : Completed) (rest : List Happening) (ht : s.thread = .waiting)
      (hr : s.request = .outstanding) (hk : s.kept = f.records.map Notification.happening ++ rest) :
    WinDoes paths pathToWatch s (.complete f)
      { s with request := .completed, lpBuffer := f.buffer, kept := rest }
  | discard (ht : s.thread = .waiting) (hr : s.request = .outstanding)
      (hb : s.lpBuffer = blank.buffer) (howed : 0 < s.kept.length + s.lost.toNat) :
    WinDoes paths pathToWatch s .discard
      { s with request := .completed, kept := [], lost := false }
  | enter (ok : Bool) {n : Nat} (ht : s.thread = .waiting) (hr : s.request = .completed)
      (hw : s.Walk paths pathToWatch 0 n) :
    WinDoes paths pathToWatch s (.thread ok) { s with request := .idle, thread := .walking 0 }
  | call (ok : Bool) {offset next m : Nat} (ht : s.thread = .walking offset)
      (hr : s.request = .idle) (hw : s.Walk paths pathToWatch offset (m + 1))
      (hnext : (s.callback (signal paths pathToWatch) (.walking next)).Walk paths pathToWatch
        next m) :
    WinDoes paths pathToWatch s (.thread ok)
      (s.callback (signal paths pathToWatch) (.walking next))
  | last (ok : Bool) {offset : Nat} (ht : s.thread = .walking offset) (hr : s.request = .idle)
      (hw : s.Walk paths pathToWatch offset 1) :
    WinDoes paths pathToWatch s (.thread ok) (s.callback (signal paths pathToWatch) .arming)
  | arm (ok : Bool) (ht : s.thread = .arming) (hr : s.request = .idle) :
    WinDoes paths pathToWatch s (.thread ok) (s.readDirectoryChangesW ok)

/-- Only a waiting thread has a request. -/
theorem WinSys.Stage.waiting (hs : s.Stage paths pathToWatch) (hr : s.request ≠ .idle) :
    s.thread = .waiting := by
  unfold WinSys.Stage at hs
  cases ht : s.thread with
  | waiting => rfl
  | walking | arming | threw | outside =>
    cases hq : s.request with
    | idle => exact absurd hq hr
    | outstanding | completed =>
      rw [ht, hq] at hs
      exact hs.elim

theorem winStep_cases (hs : s.Stage paths pathToWatch)
    (h : winStep paths pathToWatch s a = some s') :
    WinDoes paths pathToWatch s a s' := by
  cases a with
  | happen x room =>
    cases h
    unfold WinSys.happen
    cases hlost : s.lost with
    | true => simpa using .lost x room fun _ => hlost
    | false =>
      cases room with
      | true => simpa [hlost] using WinDoes.kept x hlost
      | false => simpa using WinDoes.lost x false nofun
  | scan =>
    cases h
    exact .scan
  | complete f =>
    simp only [winStep, WinSys.complete] at h
    split at h
    · next hc =>
      cases h
      obtain ⟨hr, -, hpre⟩ := hc
      obtain ⟨rest, hk⟩ := List.isPrefixOf_iff_prefix.mp hpre
      rw [← hk, List.drop_left]
      exact .complete f rest (hs.waiting (by rw [hr]; nofun)) hr hk.symm
    · cases h
  | discard =>
    simp only [winStep, WinSys.discard] at h
    split at h
    · next hc =>
      cases h
      obtain ⟨hr, howed⟩ := hc
      have ht := hs.waiting (by rw [hr]; nofun)
      unfold WinSys.Stage at hs
      rw [ht, hr] at hs
      refine .discard ht hr (hs.trans buffer_blank.symm) ?_
      rcases howed with hlost | hkept
      · rw [hlost]
        exact Nat.succ_pos _
      · exact Nat.add_pos_left (List.length_pos_of_ne_nil hkept) _
    · cases h
  | thread ok =>
    unfold WinSys.Stage at hs
    simp only [winStep, WinSys.threadStep] at h
    cases ht : s.thread with
    | waiting =>
      rw [ht] at h hs
      dsimp only at h
      split at h
      · next hr =>
        cases h
        rw [hr] at hs
        exact .enter ok ht hr hs.choose_spec
      · cases h
    | walking offset =>
      rw [ht] at h hs
      cases hr : s.request with
      | outstanding | completed =>
        rw [hr] at hs
        exact hs.elim
      | idle =>
        rw [hr] at hs
        obtain ⟨n, hw⟩ := hs
        obtain ⟨next, hread, hround⟩ := hw.round
        dsimp only at h
        rw [hread] at h
        dsimp only at h
        by_cases hnext : next ≠ 0
        · rw [if_pos hnext] at h hround
          cases h
          obtain ⟨m, rfl, hall⟩ := hround
          exact .call ok ht hr hw (hall _)
        · rw [if_neg hnext] at h hround
          cases h
          exact .last ok ht hr (hround ▸ hw)
    | arming =>
      rw [ht] at h hs
      cases hr : s.request with
      | outstanding | completed =>
        rw [hr] at hs
        exact hs.elim
      | idle =>
        cases h
        exact .arm ok ht hr
    | threw | outside =>
      rw [ht] at h
      cases h

/-! ## Every step -/

theorem WinDoes.stage (h : WinDoes paths pathToWatch s a s') (hs : s.Stage paths pathToWatch) :
    s'.Stage paths pathToWatch := by
  cases h with
  | kept | lost | scan => exact hs
  | complete f rest ht hr hk =>
    unfold WinSys.Stage
    rw [ht]
    exact ⟨_, walk_completed _ f rfl⟩
  | discard ht hr hb howed =>
    unfold WinSys.Stage
    rw [ht]
    exact ⟨_, walk_completed _ blank hb⟩
  | enter ok ht hr hw => exact ⟨_, hw⟩
  | call ok ht hr hw hnext =>
    unfold WinSys.Stage WinSys.callback
    rw [hr]
    exact ⟨_, hnext⟩
  | last ok ht hr hw =>
    unfold WinSys.Stage WinSys.callback
    rw [hr]
    trivial
  | arm ok ht hr =>
    unfold WinSys.Stage WinSys.readDirectoryChangesW
    cases ok with
    | true => rfl
    | false =>
      dsimp only
      rw [hr]
      trivial

theorem rounds_walking {offset n : Nat} (ht : s.thread = .walking offset)
    (hw : s.Walk paths pathToWatch offset n) : s.rounds paths pathToWatch = n := by
  unfold WinSys.rounds
  rw [ht]
  exact hw.ahead

theorem rounds_completed {n : Nat} (ht : s.thread = .waiting) (hr : s.request = .completed)
    (hw : s.Walk paths pathToWatch 0 n) : s.rounds paths pathToWatch = n := by
  unfold WinSys.rounds
  rw [ht, hr]
  exact hw.ahead

theorem rounds_waiting (ht : s.thread = .waiting) (hr : s.request = .outstanding) :
    s.rounds paths pathToWatch = 0 := by
  unfold WinSys.rounds
  rw [ht, hr]

theorem rounds_arming (ht : s.thread = .arming) : s.rounds paths pathToWatch = 0 := by
  unfold WinSys.rounds
  rw [ht]

theorem rounds_complete (f : Completed) (rest : List Happening) (ht : s.thread = .waiting) :
    WinSys.rounds paths pathToWatch
      { s with request := .completed, lpBuffer := f.buffer, kept := rest } = f.records.length :=
  rounds_completed ht rfl (walk_completed _ f rfl)

theorem rounds_discard (ht : s.thread = .waiting) (hb : s.lpBuffer = blank.buffer) :
    WinSys.rounds paths pathToWatch
      { s with request := .completed, kept := [], lost := false } = 1 :=
  rounds_completed ht rfl (walk_completed _ blank hb)

theorem rounds_enter {n : Nat} (hw : s.Walk paths pathToWatch 0 n) :
    WinSys.rounds paths pathToWatch { s with request := .idle, thread := .walking 0 } = n :=
  rounds_walking rfl hw

theorem rounds_arm (ok : Bool) (hr : s.request = .idle) :
    (s.readDirectoryChangesW ok).rounds paths pathToWatch = 0 := by
  cases ok with
  | true => rfl
  | false =>
    simp only [WinSys.rounds, WinSys.readDirectoryChangesW, Bool.false_eq_true, if_false, hr]

/-- A call is made for what was owed. Owed is what happens; what is dropped counts once. -/
theorem WinDoes.owed (h : WinDoes paths pathToWatch s a s') :
    s'.calls.length + s'.backlog paths pathToWatch + s.happened.length
        ≤ s.calls.length + s.backlog paths pathToWatch + s'.happened.length ∧
      (a.keeps = true → s.lost = false → s'.lost = false ∧
        s'.calls.length + s'.backlog paths pathToWatch + s.happened.length
          = s.calls.length + s.backlog paths pathToWatch + s'.happened.length) := by
  unfold WinSys.backlog
  cases h with
  | kept x hlost =>
    have hrounds : WinSys.rounds paths pathToWatch
        { s with happened := s.happened ++ [x], kept := s.kept ++ [x] }
        = s.rounds paths pathToWatch := rfl
    simp only [List.length_append, List.length_singleton, hrounds]
    exact ⟨by omega, fun _ hlost => ⟨hlost, by omega⟩⟩
  | lost x room hlost =>
    have hrounds : WinSys.rounds paths pathToWatch
        { s with happened := s.happened ++ [x], kept := [], lost := true }
        = s.rounds paths pathToWatch := rfl
    simp only [List.length_append, List.length_singleton, List.length_nil, hrounds, Bool.toNat_true]
    refine ⟨by omega, fun hkeeps hnone => ?_⟩
    rw [hlost hkeeps] at hnone
    cases hnone
  | scan => exact ⟨Nat.le_refl _, fun _ hlost => ⟨hlost, rfl⟩⟩
  | complete f rest ht hr hk =>
    rw [rounds_complete f rest ht, rounds_waiting ht hr, hk]
    simp only [List.length_append, List.length_map]
    exact ⟨by omega, fun _ hlost => ⟨hlost, by omega⟩⟩
  | discard ht hr hb howed =>
    rw [rounds_discard ht hb, rounds_waiting ht hr]
    simp only [List.length_nil, Bool.toNat_false]
    exact ⟨by omega, nofun⟩
  | enter ok ht hr hw =>
    rw [rounds_enter hw, rounds_completed ht hr hw]
    exact ⟨Nat.le_refl _, fun _ hlost => ⟨hlost, rfl⟩⟩
  | call ok ht hr hw hnext =>
    rw [rounds_walking ht hw, rounds_walking rfl hnext]
    simp only [WinSys.callback, List.length_append, List.length_singleton]
    exact ⟨by omega, fun _ hlost => ⟨hlost, by omega⟩⟩
  | last ok ht hr hw =>
    rw [rounds_walking ht hw, @rounds_arming _ _ (s.callback _ .arming) rfl]
    simp only [WinSys.callback, List.length_append, List.length_singleton]
    exact ⟨by omega, fun _ hlost => ⟨hlost, by omega⟩⟩
  | arm ok ht hr =>
    rw [rounds_arming ht, rounds_arm ok hr]
    cases ok with
    | true | false => exact ⟨Nat.le_refl _, fun _ hlost => ⟨hlost, rfl⟩⟩

/-- Every step of Windows and of the thread leaves less to do. -/
theorem WinDoes.work (h : WinDoes paths pathToWatch s a s') (ha : a.serves = true) :
    s'.work paths pathToWatch < s.work paths pathToWatch := by
  unfold WinSys.work
  cases h with
  | kept | lost | scan => cases ha
  | complete f rest ht hr hk =>
    have hsome : 0 < f.records.length := Nat.succ_pos _
    rw [rounds_complete f rest ht, rounds_waiting ht hr, hk]
    simp only [List.length_append, List.length_map, ht, hr]
    omega
  | discard ht hr hb howed =>
    rw [rounds_discard ht hb, rounds_waiting ht hr]
    simp only [ht, hr, List.length_nil, Bool.toNat_false]
    omega
  | enter ok ht hr hw =>
    rw [rounds_enter hw, rounds_completed ht hr hw]
    simp only [ht, hr]
    omega
  | call ok ht hr hw hnext =>
    rw [rounds_walking ht hw, rounds_walking rfl hnext]
    simp only [WinSys.callback, ht]
    omega
  | last ok ht hr hw =>
    rw [rounds_walking ht hw, @rounds_arming _ _ (s.callback _ .arming) rfl]
    simp only [WinSys.callback, ht]
    omega
  | arm ok ht hr =>
    rw [rounds_arming ht, rounds_arm ok hr]
    unfold WinSys.readDirectoryChangesW
    cases ok with
    | true =>
      simp only [ht]
      exact Nat.lt_succ_self _
    | false =>
      simp only [ht]
      exact Nat.lt_succ_self _

/-! ## Every run -/

/-- What holds in every state that can be reached. -/
structure WinSys.Inv (paths : WinPaths) (pathToWatch : Bytes) (s : WinSys) : Prop where
  stage : s.Stage paths pathToWatch
  calls : ∀ c ∈ s.calls, c = signal paths pathToWatch
  /-- What the listener has not seen is owed a call. -/
  news : s.scanned = s.happened.length ∨ 0 < s.backlog paths pathToWatch
  count : s.calls.length + s.backlog paths pathToWatch ≤ s.happened.length

theorem WinDoes.calls (h : WinDoes paths pathToWatch s a s')
    (hs : ∀ c ∈ s.calls, c = signal paths pathToWatch) :
    ∀ c ∈ s'.calls, c = signal paths pathToWatch := by
  have hone : ∀ c ∈ s.calls ++ [signal paths pathToWatch], c = signal paths pathToWatch := by
    intro c hc
    rcases List.mem_append.mp hc with hc | hc
    · exact hs c hc
    · exact List.mem_singleton.mp hc
  cases h with
  | kept | lost | scan | complete | discard | enter => exact hs
  | call | last => exact hone
  | arm ok =>
    cases ok with
    | true | false => exact hs

/-- A call brings the listener up to date, and nothing else ends what is owed. -/
theorem WinDoes.news (h : WinDoes paths pathToWatch s a s')
    (hs : s.scanned = s.happened.length ∨ 0 < s.backlog paths pathToWatch) :
    s'.scanned = s'.happened.length ∨ 0 < s'.backlog paths pathToWatch := by
  unfold WinSys.backlog at *
  cases h with
  | kept x hlost =>
    right
    simp only [List.length_append, List.length_singleton]
    omega
  | lost x room hlost =>
    right
    simp only [Bool.toNat_true]
    omega
  | scan => exact Or.inl rfl
  | complete f rest ht hr hk =>
    right
    have hsome : 0 < f.records.length := Nat.succ_pos _
    rw [rounds_complete f rest ht]
    omega
  | discard ht hr hb howed =>
    right
    rw [rounds_discard ht hb]
    omega
  | enter ok ht hr hw =>
    right
    have hsome := hw.pos
    rw [rounds_enter hw]
    omega
  | call | last => exact Or.inl rfl
  | arm ok ht hr =>
    rw [rounds_arming ht] at hs
    rw [rounds_arm ok hr]
    cases ok with
    | true | false => exact hs

theorem winInv_step (hI : s.Inv paths pathToWatch) (h : winStep paths pathToWatch s a = some s') :
    s'.Inv paths pathToWatch := by
  have hdoes := winStep_cases hI.stage h
  have howed := hdoes.owed.1
  have hcount := hI.count
  exact ⟨hdoes.stage hI.stage, hdoes.calls hI.calls, hdoes.news hI.news, by omega⟩

theorem winInv_start (opened ok : Bool) : (winReadAsync opened ok).Inv paths pathToWatch := by
  cases opened with
  | false => exact ⟨trivial, nofun, Or.inl rfl, Nat.le_refl _⟩
  | true =>
    cases ok with
    | false => exact ⟨trivial, nofun, Or.inl rfl, Nat.le_refl _⟩
    | true => exact ⟨rfl, nofun, Or.inl rfl, Nat.le_refl _⟩

/-- Where nothing is dropped there is a call for everything. -/
theorem exact_run {acts : List WinAct} (hacts : ∀ a ∈ acts, a.keeps = true)
    (hI : s.Inv paths pathToWatch) (hlost : s.lost = false)
    (hcount : s.calls.length + s.backlog paths pathToWatch = s.happened.length)
    (h : run (winStep paths pathToWatch) s acts = some s') :
    s'.calls.length + s'.backlog paths pathToWatch = s'.happened.length := by
  induction acts generalizing s with
  | nil =>
    cases h
    exact hcount
  | cons a acts ih =>
    obtain ⟨t, ha, h⟩ := run_cons_eq_some.mp h
    obtain ⟨hfirst, hrest⟩ := List.forall_mem_cons.mp hacts
    obtain ⟨hlost', howed⟩ := (winStep_cases hI.stage ha).owed.2 hfirst hlost
    exact ih hrest (winInv_step hI ha) hlost' (by omega) h

theorem WinSys.AtRest.backlog (h : s.AtRest) : s.backlog paths pathToWatch = 0 := by
  unfold WinSys.backlog
  rw [h.kept, h.lost, rounds_waiting h.thread h.request]
  rfl

/-- Something can be done unless there is nothing to do, or the routine has thrown. -/
theorem winAtRest_iff (hI : s.Inv paths pathToWatch) :
    (∀ a, a.serves = true → winStep paths pathToWatch s a = none) ↔
      s.AtRest ∨ s.thread = .threw := by
  constructor
  · intro h
    have hthread := h (.thread true) rfl
    have hdiscard := h .discard rfl
    have hstage := hI.stage
    unfold WinSys.Stage at hstage
    simp only [winStep, WinSys.threadStep, WinSys.discard] at hthread hdiscard
    cases ht : s.thread with
    | waiting =>
      rw [ht] at hstage hthread
      cases hr : s.request with
      | idle =>
        rw [hr] at hstage
        exact hstage.elim
      | completed =>
        rw [hr] at hthread
        cases hthread
      | outstanding =>
        -- the system would discard if it owed anything
        have hquiet : ¬ (s.lost = true ∨ s.kept ≠ []) := by
          intro howed
          rw [if_pos ⟨hr, howed⟩] at hdiscard
          cases hdiscard
        obtain ⟨hlost, hkept⟩ := not_or.mp hquiet
        exact Or.inl ⟨ht, hr, not_not.mp hkept, Bool.eq_false_iff.mpr hlost⟩
    | walking offset =>
      rw [ht] at hthread
      dsimp only at hthread
      split at hthread <;> cases hthread
    | arming =>
      rw [ht] at hthread
      cases hthread
    | threw => exact Or.inr rfl
    | outside =>
      rw [ht] at hstage
      exact hstage.elim
  · intro h a ha
    have hstage := hI.stage
    unfold WinSys.Stage at hstage
    cases a with
    | happen | scan => cases ha
    | complete f =>
      -- nothing is kept that a completion could begin with, or nothing is asked for
      rcases h with h | ht
      · have hnot : ((f.records.map Notification.happening).isPrefixOf s.kept) = false := by
          rw [h.kept]
          rfl
        simp [winStep, WinSys.complete, hnot]
      · have hr : s.request ≠ .outstanding := by
          intro hr
          rw [ht, hr] at hstage
          exact hstage
        simp [winStep, WinSys.complete, hr]
    | discard =>
      rcases h with h | ht
      · simp [winStep, WinSys.discard, h.kept, h.lost]
      · have hr : s.request ≠ .outstanding := by
          intro hr
          rw [ht, hr] at hstage
          exact hstage
        simp [winStep, WinSys.discard, hr]
    | thread ok =>
      rcases h with h | ht
      · simp [winStep, WinSys.threadStep, h.thread, h.request]
      · simp [winStep, WinSys.threadStep, ht]

/-- **Nothing goes unsignalled.** However the calls of `read_async` go, whatever happens
in the directory and however Windows hands it over or drops it, between any two rounds of
the routine: it never reads past `lpBuffer`; every call says that the watched path was
added, and there are never more of them than there were happenings. When the request
waits with nothing kept, the listener has seen everything, and there has been one call for
each happening if none was dropped. Unless something more happens that state is reached,
or a failing request throws, within `s.work` steps in any order. -/
theorem signalled (paths : WinPaths) (pathToWatch : Bytes) (opened ok : Bool) (s : WinSys)
    (acts : List WinAct)
    (hrun : run (winStep paths pathToWatch) (winReadAsync opened ok) acts = some s) :
    s.thread ≠ .outside ∧
      (∀ c ∈ s.calls, c = ⟨.added, paths.string pathToWatch⟩) ∧
      s.calls.length ≤ s.happened.length ∧
      (s.AtRest → s.scanned = s.happened.length ∧
        ((∀ a ∈ acts, a.keeps = true) → s.calls.length = s.happened.length)) ∧
      (∀ bs s', (∀ b ∈ bs, b.serves = true) → run (winStep paths pathToWatch) s bs = some s' →
        bs.length ≤ s.work paths pathToWatch ∧
          ((∀ b, b.serves = true → winStep paths pathToWatch s' b = none) ↔
            s'.AtRest ∨ s'.thread = .threw)) ∧
      ∃ bs s', (∀ b ∈ bs, b.serves = true) ∧ run (winStep paths pathToWatch) s bs = some s' ∧
        (s'.AtRest ∨ s'.thread = .threw) := by
  have hstart : (winReadAsync opened ok).Inv paths pathToWatch := winInv_start opened ok
  have hI : s.Inv paths pathToWatch := run_invariant winInv_step hstart hrun
  have hlow : ∀ {t a t'}, WinSys.Inv paths pathToWatch t → a.serves = true →
      winStep paths pathToWatch t a = some t' →
        t'.work paths pathToWatch < t.work paths pathToWatch :=
    fun hI ha h => (winStep_cases hI.stage h).work ha
  refine ⟨?_, hI.calls, ?_, fun hrest => ⟨?_, fun hacts => ?_⟩, fun bs s' hbs hrun' => ⟨?_, ?_⟩, ?_⟩
  · intro ht
    have hstage := hI.stage
    unfold WinSys.Stage at hstage
    rw [ht] at hstage
    exact hstage
  · have hcount := hI.count
    omega
  · rcases hI.news with hseen | howed
    · exact hseen
    · rw [hrest.backlog] at howed
      exact absurd howed (Nat.lt_irrefl 0)
  · have hall := exact_run hacts hstart (by cases opened <;> cases ok <;> rfl)
      (by cases opened <;> cases ok <;> rfl) hrun
    rwa [hrest.backlog] at hall
  · have hlen := run_length_le winInv_step hlow hI hbs hrun'
    omega
  · exact winAtRest_iff (run_invariant winInv_step hI hrun')
  · obtain ⟨bs, s', hbs, hrun', hend⟩ := exists_run_to_rest winInv_step hlow hI
    exact ⟨bs, s', hbs, hrun', (winAtRest_iff (run_invariant winInv_step hI hrun')).mp hend⟩

/-- A file is removed; while the routine runs more happens than Windows has room for. -/
def removedAndMore : List WinAct :=
  [.happen ⟨2, [102]⟩ true, .complete removedFile, .thread true, .happen ⟨1, [103]⟩ false,
    .happen ⟨1, [104]⟩ true, .thread true, .thread true, .discard, .thread true, .thread true,
    .thread true]

theorem signalled_more : ∃ s, run (winStep plainPaths [67, 58, 92, 100]) (winReadAsync true true)
    removedAndMore = some s ∧ s.AtRest ∧ s.calls.length = 2 ∧ s.scanned = 3 := by
  refine ⟨_, rfl, ⟨rfl, rfl, rfl, rfl⟩, rfl, ?_⟩
  exact ((signalled plainPaths [67, 58, 92, 100] true true _ removedAndMore rfl).2.2.2.1
    ⟨rfl, rfl, rfl, rfl⟩).1

end CommonCpp.Monitor
