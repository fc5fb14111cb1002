import CommonCpp.Monitor.Coverage
import CommonCpp.Monitor.Creation

/-!
# The monitor catches up

Once nothing is created any more, the two threads have only so much to do:
`Sys.work` bounds it by what is queued and by how many directories there are, and
every step of either thread lowers it, in whatever order they take turns. There
is no state in which both are stuck before the work is done, since neither waits
for the other and no call of `watch` throws.
-/

namespace CommonCpp.Fs

/-- A directory found in a directory brings its inode numbers along. -/
theorem dirInos_of_find {e e' : Entry} {p : Path} (h : e.find p = some e') :
    e'.dirInos.Sublist e.dirInos := by
  induction p generalizing e with
  | nil =>
    rw [find_nil, Option.some.injEq] at h
    rw [h]
  | cons n p ih =>
    cases e with
    | leaf => cases h
    | dir i d =>
      obtain ⟨-, x, hx, h⟩ := find_cons_eq_some.mp h
      exact ((ih h).trans (dirInos_of_get hx)).cons _

/-- Only directories are listed, each once. -/
theorem length_listing_dirs {π : Type} (append : π → Name → π) (d : Dir) (path : π) :
    (listing append true 2 path d).length ≤ d.dirInos.length := by
  induction d generalizing path with
  | nil => exact Nat.le_refl _
  | leaf n ino link rest ih =>
    have hrest := ih path
    simpa [listing, Dir.dirInos] using hrest
  | dir n ino sub rest ihsub ih =>
    have hsub := ihsub (append path n)
    have hrest := ih path
    simp only [listing, Dir.dirInos, List.length_append, List.length_cons]
    cases isDot n with
    | true =>
      simp only [if_true, List.length_nil]
      omega
    | false =>
      simp
      omega

end CommonCpp.Fs

namespace CommonCpp.Monitor

open CommonCpp.Fs CommonCpp.Lib

/-- The steps left in a call of `watch`, with `n` directories in the tree. -/
def Call.work (n : Nat) : Call → Nat
  | .listing _ => n + 2
  | .adding ps => ps.length + 1
  | .threw => 0

/-- The steps left until the reader is back at `read`. -/
def Reader.work (n : Nat) : Reader Path → Nat
  | .idle => 0
  | .taken _ => n + 4
  | .watching _ call => call.work n + 1
  | .notify _ => 1
  | .terminated => 0

def Sys.directories (s : Sys) : Nat := s.fs.dirInos.length

/-- The steps left to both threads at most. -/
def Sys.work (s : Sys) : Nat :=
  s.queue.length * (s.directories + 5) + s.reader.work s.directories
    + (s.main.map (Call.work s.directories)).getD 0

/-- Nothing is left to do: `watch` has returned, and the reader waits at `read` with
nothing queued. -/
structure Sys.AtRest (s : Sys) : Prop where
  main : s.main = none
  reader : s.reader = .idle
  queue : s.queue = []

variable {root : Path} {s s' : Sys} {a : Act}

/-- A listing does not exceed the tree. -/
theorem work_listPaths (s : Sys) (p : Path) :
    (listPaths s.fs p).work s.directories < (Call.listing p).work s.directories := by
  cases hopen : s.fs.openDir p with
  | none =>
    rw [listPaths, hopen]
    exact Nat.succ_pos _
  | some x =>
    obtain ⟨i, d⟩ := x
    obtain ⟨q, -, hdir⟩ := Option.bind_eq_some_iff.mp hopen
    have hlen := length_listing_dirs Path.append d p
    have hsub := (dirInos_of_find (dirAt_eq_some.mp hdir)).length_le
    rw [Entry.dirInos, List.length_cons] at hsub
    rw [listPaths_of_openDir hopen]
    simp only [Call.work, Sys.directories, List.length_cons]
    omega

theorem MainDoes.work (h : MainDoes s s') (hI : Inv root s) : s'.work < s.work := by
  cases h with
  | @list p hm hl =>
    have hlist := work_listPaths s p
    simp only [Sys.work, Sys.directories, hm, Option.map_some, Option.getD_some] at hlist ⊢
    omega
  | add hm ha =>
    obtain ⟨i, wd, -, hreg⟩ := register_cases ha
    simp only [Sys.work, Sys.directories, hreg.fs, hreg.queue, hreg.reader, hm, Option.map_some,
      Option.getD_some, Call.work, List.length_cons]
    omega
  | leave hm =>
    simp only [Sys.work, Sys.directories, hm, Option.map_some, Option.map_none, Option.getD_some,
      Option.getD_none, Call.work]
    omega
  | die hm hc => exact absurd hc ((hI.main _ hm).not_throw hI.table)

theorem ReaderDoes.work (h : ReaderDoes s s') (hI : Inv root s) : s'.work < s.work := by
  have hr' := hI.reader
  cases h with
  | take hr hq =>
    simp only [Sys.work, Sys.directories, Sys.take, hr, hq, Reader.work, List.length_cons,
      Nat.succ_mul]
    omega
  | enter hr | pass hr =>
    simp only [Sys.work, Sys.directories, hr, Reader.work, Call.work]
    omega
  | @list c p hr hl =>
    have hlist := work_listPaths s p
    simp only [Sys.work, Sys.directories, hr, Reader.work] at hlist ⊢
    omega
  | add hr ha =>
    obtain ⟨i, wd, -, hreg⟩ := register_cases ha
    simp only [Sys.work, Sys.directories, hreg.fs, hreg.queue, hreg.main, hr, Reader.work, Call.work,
      List.length_cons]
    omega
  | leave hr =>
    simp only [Sys.work, Sys.directories, hr, Reader.work, Call.work]
    omega
  | die hr hc =>
    rw [hr] at hr'
    exact absurd hc (hr'.2.not_throw hI.table)
  | notify hr =>
    simp only [Sys.work, Sys.directories, hr, Reader.work]
    omega

/-- Every step of a thread leaves less to do. -/
theorem work_step (hI : Inv root s) (ha : a.makes = none) (h : step root s a = some s') :
    s'.work < s.work := by
  rcases step_cases h with ⟨dir, n, new, mask, hmk, -⟩ | ⟨-, hm⟩ | ⟨-, hr⟩
  · rw [hmk.makes] at ha
    cases ha
  · exact hm.work hI
  · exact hr.work hI

/-- A thread that is not done can go on. -/
theorem atRest_iff (hI : Inv root s) :
    (∀ a, a.makes = none → step root s a = none) ↔ s.AtRest := by
  constructor
  · intro h
    have hmain : s.mainStep = none := h .main rfl
    -- a call can always go on, and the reader unless it waits for an event
    have hreader : s.readerStep = none := h .reader rfl
    refine ⟨?_, ?_, ?_⟩
    · cases hm : s.main with
      | none => rfl
      | some call =>
        cases call with
        | threw => exact (hI.main _ hm).elim
        | listing | adding =>
          simp only [Sys.mainStep, hm] at hmain
          cases hmain
    · have hgood := hI.reader
      unfold Sys.readerStep at hreader
      cases hr : s.reader with
      | idle => rfl
      | terminated =>
        rw [hr] at hgood
        exact hgood.elim
      | taken | notify =>
        rw [hr] at hreader
        cases hreader
      | watching c call =>
        rw [hr] at hreader
        dsimp only at hreader
        split at hreader <;> cases hreader
    · cases hq : s.queue with
      | nil => rfl
      | cons e rest =>
        unfold Sys.readerStep at hreader
        split at hreader
        · rw [hq] at hreader
          cases hreader
        · cases hreader
        · split at hreader <;> cases hreader
        · cases hreader
        · next hr =>
          have hgood := hI.reader
          rw [hr] at hgood
          exact hgood.elim
  · intro h a ha
    cases a with
    | mkdir | create => cases ha
    | main => simp only [step, Sys.mainStep, h.main]
    | reader => simp only [step, Sys.readerStep, h.reader, h.queue]

/-- What the threads do adds nothing to what will be reported. -/
theorem log_threads {acts : List Act} (hI : Inv root s) (hacts : ∀ a ∈ acts, a.makes = none)
    (h : run (step root) s acts = some s') : s'.log = s.log := by
  have hnone : ∀ {acts : List Act} {s : Sys}, (∀ a ∈ acts, a.makes = none) →
      collect (step root) logged s acts = [] := by
    intro acts
    induction acts with
    | nil => exact fun _ => rfl
    | cons a acts ih =>
      intro s hacts
      have hfirst : logged s a = [] := by
        unfold logged
        rw [hacts a (List.mem_cons_self ..)]
      rw [collect, hfirst, List.nil_append]
      split
      · exact ih fun b hb => hacts b (List.mem_cons_of_mem _ hb)
      · rfl
  rw [log_run hI h, hnone hacts, List.append_nil]

/-- **The monitor catches up.** After a call of `watch(root)` on any tree, with
directories and files made at any time while it runs and while the reader works: from
every state that can be reached, the two threads can take at most `s.work` more steps
without a further creation, in any order; as long as there is work left one of them can
take a step; and when there is none, everything that was queued or being handled in that
state has been passed to `onchange`, in order, behind what was before. -/
theorem catches_up (fs : FileSystem) (root : Path) (i : Ino) (s : Sys) (acts : List Act)
    (hroot : fs.tree.stat root = some (.dir i))
    (hrun : run (step root) (Sys.called fs.tree root) acts = some s) :
    (∀ bs s', (∀ b ∈ bs, b.makes = none) → run (step root) s bs = some s' →
      bs.length ≤ s.work ∧ ((∀ b, b.makes = none → step root s' b = none) ↔ s'.AtRest) ∧
        (s'.AtRest → s'.seen = s.log)) ∧
      ∃ bs s', (∀ b ∈ bs, b.makes = none) ∧ run (step root) s bs = some s' ∧ s'.AtRest := by
  have hI : Inv root s := run_invariant inv_step (called_tracked hroot).1.1 hrun
  constructor
  · intro bs s' hbs hrun'
    have hI' : Inv root s' := run_invariant inv_step hI hrun'
    refine ⟨?_, atRest_iff hI', fun hrest => ?_⟩
    · have hlen := run_length_le inv_step work_step hI hbs hrun'
      omega
    · rw [← log_threads hI hbs hrun', Sys.log, hrest.reader, hrest.queue]
      simp [Reader.inflight]
  · obtain ⟨bs, s', hbs, hrun', hend⟩ := exists_run_to_rest inv_step work_step hI
    exact ⟨bs, s', hbs, hrun', (atRest_iff (run_invariant inv_step hI hrun')).mp hend⟩

/-- `watch` has registered the root and not returned when `r/a` and `r/a/b` are made. -/
def madeMeanwhile : List Act :=
  [.main, .main, .mkdir [ascii "r"] 0 (ascii "a") 3, .mkdir [ascii "r", ascii "a"] 0 (ascii "b") 4]

theorem catches_up_meanwhile :
    ∃ s, run (step [ascii "r"]) (Sys.called emptyRoot.tree [ascii "r"]) madeMeanwhile = some s ∧
      ∃ bs s', (∀ b ∈ bs, b.makes = none) ∧ run (step [ascii "r"]) s bs = some s' ∧ s'.AtRest :=
  ⟨_, rfl, (catches_up emptyRoot [ascii "r"] 2 _ madeMeanwhile rfl rfl).2⟩

end CommonCpp.Monitor
