import CommonCpp.Lib.Run
import Mathlib.Algebra.Ring.Nat
import Mathlib.Data.List.Basic

/-!
# Threads that write under a lock

Several threads write to one place, piece by piece. Each has a list of jobs; a
guarded job takes the lock before its first piece and gives it back behind its last,
any other job just writes. The threads take turns in any order, and the label of a
step is the thread that moves.

Whatever the order: the pieces of guarded jobs stand in the output as if the jobs had
been done one after the other in the order in which they took the lock
(`Inv.written`), which keeps every thread's own order (`Inv.order`); no piece is lost
(`Own`); and the threads cannot block each other for good (`exists_step`, `work_step`).
-/

namespace CommonCpp.Lib.Guard

variable {ι π : Type}

/-- What is left of the job under way, and the jobs behind it. -/
structure Thread (ι π : Type) where
  current : Option (Bool × List π)
  jobs : List ι

/-- A piece in the output: which thread wrote it, and whether under the lock. -/
structure Mark (π : Type) where
  thread : Nat
  guarded : Bool
  piece : π

structure State (ι π : Type) where
  threads : List (Thread ι π)
  /-- The thread that has the lock. -/
  holder : Option Nat
  written : List (Mark π)
  /-- The guarded jobs, in the order in which they took the lock. -/
  taken : List (Nat × ι)

/-- What a job writes, and whether it takes the lock. -/
structure Style (ι π : Type) where
  guarded : ι → Bool
  pieces : ι → List π

def start (jobs : List (List ι)) : State ι π := ⟨jobs.map fun js => ⟨none, js⟩, none, [], []⟩

variable (k : Style ι π)

/-- The step of thread `i`, which is `t`. -/
def move (s : State ι π) (i : Nat) (t : Thread ι π) : Option (State ι π) :=
  match t.current with
  | none =>
    match t.jobs with
    | [] => none
    | job :: jobs =>
      if k.guarded job then
        -- only one thread gets past this
        if s.holder = none then
          some { s with
            threads := s.threads.set i ⟨some (true, k.pieces job), jobs⟩
            holder := some i
            taken := s.taken ++ [(i, job)] }
        else none
      else some { s with threads := s.threads.set i ⟨some (false, k.pieces job), jobs⟩ }
  | some (g, p :: ps) =>
    some { s with
      threads := s.threads.set i ⟨some (g, ps), t.jobs⟩
      written := s.written ++ [⟨i, g, p⟩] }
  | some (g, []) =>
    some { s with
      threads := s.threads.set i ⟨none, t.jobs⟩
      holder := if g then none else s.holder }

def step (s : State ι π) (i : Nat) : Option (State ι π) := (s.threads[i]?).bind (move k s i)

/-- No thread has anything left to do. -/
def State.Done (s : State ι π) : Prop := ∀ t ∈ s.threads, t.current = none ∧ t.jobs = []

/-- What thread `i` has still to write of a guarded job. -/
def Thread.rest (t : Thread ι π) : List π :=
  match t.current with
  | some (true, ps) => ps
  | some (false, _) | none => []

/-- What the holder of the lock has still to write. -/
def State.rest (s : State ι π) : List (Nat × π) :=
  match s.holder with
  | none => []
  | some i => ((s.threads[i]?).map fun t => t.rest.map fun p => (i, p)).getD []

/-- The pieces written under the lock, with their threads. -/
def State.guarded (s : State ι π) : List (Nat × π) :=
  (s.written.filter Mark.guarded).map fun w => (w.thread, w.piece)

/-- The pieces of a job, written by thread `i`. -/
def tagged (x : Nat × ι) : List (Nat × π) := (k.pieces x.2).map fun p => (x.1, p)

/-- The guarded jobs thread `i` has taken. -/
def State.takenBy (s : State ι π) (i : Nat) : List ι :=
  (s.taken.filter fun x => x.1 == i).map Prod.snd

structure Inv (jobs : List (List ι)) (s : State ι π) : Prop where
  /-- Who is in a guarded job has the lock, and no one else. -/
  lock : ∀ i, s.holder = some i ↔ ∃ t ps, s.threads[i]? = some t ∧ t.current = some (true, ps)
  written : s.guarded ++ s.rest = s.taken.flatMap (tagged k)
  order : ∀ i t js, s.threads[i]? = some t → jobs[i]? = some js →
    s.takenBy i ++ t.jobs.filter k.guarded = js.filter k.guarded
  known : ∀ x ∈ s.taken, x.1 < jobs.length
  length : s.threads.length = jobs.length

variable {k} {jobs : List (List ι)} {s s' : State ι π} {i : Nat}

theorem start_inv (jobs : List (List ι)) : Inv k jobs (start jobs : State ι π) := by
  refine ⟨fun i => ?_, rfl, fun i t js ht hjs => ?_, List.forall_mem_nil _, List.length_map _⟩
  · constructor
    · intro h
      cases h
    · rintro ⟨t, ps, ht, hcur⟩
      obtain ⟨js, -, rfl⟩ := Option.map_eq_some_iff.mp ((List.getElem?_map ..).symm.trans ht)
      cases hcur
  · obtain ⟨js', hjs', rfl⟩ := Option.map_eq_some_iff.mp ((List.getElem?_map ..).symm.trans ht)
    cases hjs.symm.trans hjs'
    rfl

/-- What a step can be. -/
inductive Moves (k : Style ι π) (s : State ι π) (i : Nat) : State ι π → Prop where
  | lock {job : ι} {js : List ι} (ht : s.threads[i]? = some ⟨none, job :: js⟩)
      (hg : k.guarded job = true) (hfree : s.holder = none) :
      Moves k s i { s with
        threads := s.threads.set i ⟨some (true, k.pieces job), js⟩
        holder := some i
        taken := s.taken ++ [(i, job)] }
  | start {job : ι} {js : List ι} (ht : s.threads[i]? = some ⟨none, job :: js⟩)
      (hg : k.guarded job = false) :
      Moves k s i { s with threads := s.threads.set i ⟨some (false, k.pieces job), js⟩ }
  | write {g : Bool} {p : π} {ps : List π} {js : List ι}
      (ht : s.threads[i]? = some ⟨some (g, p :: ps), js⟩) :
      Moves k s i { s with
        threads := s.threads.set i ⟨some (g, ps), js⟩
        written := s.written ++ [⟨i, g, p⟩] }
  | finish {g : Bool} {js : List ι} (ht : s.threads[i]? = some ⟨some (g, []), js⟩) :
      Moves k s i { s with
        threads := s.threads.set i ⟨none, js⟩
        holder := if g then none else s.holder }

theorem step_cases (h : step k s i = some s') : Moves k s i s' := by
  obtain ⟨⟨current, js⟩, ht, h⟩ := Option.bind_eq_some_iff.mp h
  unfold move at h
  cases current with
  | none =>
    cases js with
    | nil => cases h
    | cons job js =>
      dsimp only at h
      split at h
      · next hg =>
        obtain ⟨hfree, h⟩ := Option.ite_none_right_eq_some.mp h
        cases h
        exact .lock ht hg hfree
      · next hg =>
        cases h
        exact .start ht (Bool.eq_false_iff.mpr hg)
  | some x =>
    obtain ⟨g, ps⟩ := x
    cases ps with
    | nil =>
      cases h
      exact .finish ht
    | cons p ps =>
      cases h
      exact .write ht

/-- One thread changed. -/
theorem get_set {threads : List (Thread ι π)} {t : Thread ι π} (ht : threads[i]? = some t)
    (t' : Thread ι π) (j : Nat) :
    (threads.set i t')[j]? = if i = j then some t' else threads[j]? := by
  obtain ⟨hlt, -⟩ := List.getElem?_eq_some_iff.mp ht
  rw [List.getElem?_set]
  by_cases hij : i = j
  · rw [if_pos hij, if_pos hij, if_pos (hij ▸ hlt)]
  · rw [if_neg hij, if_neg hij]

theorem rest_of_holder {t : Thread ι π} (h : s.holder = some i) (ht : s.threads[i]? = some t) :
    s.rest = t.rest.map fun p => (i, p) := by
  unfold State.rest
  rw [h]
  dsimp only
  rw [ht]
  rfl

/-- What is still to be written under the lock depends on the holder alone. -/
theorem rest_frame (hholder : s'.holder = s.holder)
    (h : ∀ j, s.holder = some j → s'.threads[j]? = s.threads[j]?) : s'.rest = s.rest := by
  unfold State.rest
  rw [hholder]
  cases hj : s.holder with
  | none => rfl
  | some j =>
    dsimp only
    rw [h j hj]

theorem guarded_snoc (s : State ι π) (threads : List (Thread ι π)) (w : Mark π) :
    State.guarded { s with threads := threads, written := s.written ++ [w] }
      = s.guarded ++ if w.guarded then [(w.thread, w.piece)] else [] := by
  unfold State.guarded
  dsimp only
  rw [List.filter_append, List.map_append]
  cases hw : w.guarded <;> simp [hw]

theorem takenBy_snoc (s : State ι π) (threads : List (Thread ι π)) (holder : Option Nat) (job : ι)
    (j : Nat) :
    State.takenBy ⟨threads, holder, s.written, s.taken ++ [(i, job)]⟩ j
      = s.takenBy j ++ if i = j then [job] else [] := by
  unfold State.takenBy
  dsimp only
  rw [List.filter_append, List.map_append]
  by_cases hij : i = j <;> simp [hij]

/-- The lock is with the thread in a guarded job. -/
theorem Inv.holder_iff (h : Inv k jobs s) {current : Option (Bool × List π)} {js : List ι}
    (ht : s.threads[i]? = some ⟨current, js⟩) :
    s.holder = some i ↔ ∃ ps, current = some (true, ps) := by
  rw [h.lock]
  constructor
  · rintro ⟨t, ps, ht', hcur⟩
    cases ht.symm.trans ht'
    exact ⟨ps, hcur⟩
  · rintro ⟨ps, hcur⟩
    exact ⟨_, ps, ht, hcur⟩

/-- A thread that takes no guarded job keeps its order. -/
theorem Inv.order_set (h : Inv k jobs s) {t t' : Thread ι π} (ht : s.threads[i]? = some t)
    (hjobs : t.jobs.filter k.guarded = t'.jobs.filter k.guarded) {j : Nat} {u : Thread ι π}
    {us : List ι} (hu : (s.threads.set i t')[j]? = some u) (hus : jobs[j]? = some us) :
    s.takenBy j ++ u.jobs.filter k.guarded = us.filter k.guarded := by
  rw [get_set ht] at hu
  by_cases hij : i = j
  · subst hij
    rw [if_pos rfl] at hu
    cases hu
    rw [← hjobs]
    exact h.order i t us ht hus
  · rw [if_neg hij] at hu
    exact h.order j u us hu hus

/-- A thread that is not under the lock moves: nothing changes for the holder. -/
theorem Inv.unguarded (h : Inv k jobs s) {t : Thread ι π} {current : Option (Bool × List π)}
    {js : List ι} (ht : s.threads[i]? = some t) (hno : ∀ ps, t.current ≠ some (true, ps))
    (hno' : ∀ ps, current ≠ some (true, ps)) (hjobs : t.jobs.filter k.guarded = js.filter k.guarded)
    (hs' : s'.threads = s.threads.set i ⟨current, js⟩) (hholder : s'.holder = s.holder)
    (hguarded : s'.guarded = s.guarded) (htaken : s'.taken = s.taken) : Inv k jobs s' := by
  have hnot : s.holder ≠ some i := by
    intro hi
    obtain ⟨t', ps, ht', hcur⟩ := (h.lock i).mp hi
    cases ht.symm.trans ht'
    exact hno ps hcur
  have hget : ∀ j, s'.threads[j]? = if i = j then some ⟨current, js⟩ else s.threads[j]? := by
    intro j
    rw [hs', get_set ht]
  have hby : ∀ j, s'.takenBy j = s.takenBy j := by
    intro j
    unfold State.takenBy
    rw [htaken]
  refine ⟨fun j => ?_, ?_, fun j u us hu hus => ?_, ?_, ?_⟩
  · rw [hholder, hget]
    by_cases hij : i = j
    · subst hij
      rw [if_pos rfl]
      refine iff_of_false hnot ?_
      rintro ⟨u, ps, hu, hcur⟩
      cases hu
      exact hno' ps hcur
    · rw [if_neg hij]
      exact h.lock j
  · have hrest : s'.rest = s.rest := by
      refine rest_frame hholder fun j hj => ?_
      rw [hget, if_neg]
      intro hij
      exact hnot (hij ▸ hj)
    rw [hguarded, hrest, htaken]
    exact h.written
  · rw [hby]
    rw [hs'] at hu
    exact h.order_set ht hjobs hu hus
  · rw [htaken]
    exact h.known
  · rw [hs', List.length_set]
    exact h.length

theorem Moves.inv (h : Moves k s i s') (hs : Inv k jobs s) : Inv k jobs s' := by
  cases h with
  | @start job js ht hg =>
    refine hs.unguarded ht (fun _ h => by cases h) (fun ps h => by cases h) ?_ rfl rfl rfl rfl
    rw [List.filter_cons_of_neg (by simp [hg])]
  | @lock job js ht hg hfree =>
    -- nobody had the lock, so what is left of the new job is all that is left
    refine ⟨fun j => ?_, ?_, fun j u us hu hus => ?_, ?_, (List.length_set ..).trans hs.length⟩
    · show some i = some j ↔ ∃ t ps, (s.threads.set i _)[j]? = some t ∧ _
      rw [get_set ht]
      by_cases hij : i = j
      · subst hij
        rw [if_pos rfl]
        exact iff_of_true rfl ⟨_, k.pieces job, rfl, rfl⟩
      · rw [if_neg hij]
        refine iff_of_false (fun h => hij (Option.some.inj h)) fun hcur => ?_
        rw [← hs.lock j, hfree] at hcur
        cases hcur
    · have hold : s.rest = [] := by
        unfold State.rest
        rw [hfree]
      have hget : (s.threads.set i ⟨some (true, k.pieces job), js⟩)[i]?
          = some ⟨some (true, k.pieces job), js⟩ := (get_set ht _ i).trans (if_pos rfl)
      have hnew : State.rest { s with
          threads := s.threads.set i ⟨some (true, k.pieces job), js⟩
          holder := some i
          taken := s.taken ++ [(i, job)] }
            = (Thread.rest ⟨some (true, k.pieces job), js⟩).map fun p => (i, p) :=
        rest_of_holder (by rfl) hget
      have hwritten := hs.written
      rw [hold, List.append_nil] at hwritten
      rw [hnew]
      show s.guarded ++ _ = (s.taken ++ [(i, job)]).flatMap _
      rw [List.flatMap_append, List.flatMap_singleton, hwritten]
      rfl
    · rw [takenBy_snoc]
      have hu : (s.threads.set i _)[j]? = some u := hu
      rw [get_set ht] at hu
      by_cases hij : i = j
      · subst hij
        rw [if_pos rfl] at hu
        cases hu
        have horder := hs.order i _ us ht hus
        rw [List.filter_cons_of_pos hg] at horder
        rw [if_pos rfl, List.append_assoc]
        exact horder
      · rw [if_neg hij] at hu
        rw [if_neg hij, List.append_nil]
        exact hs.order j u us hu hus
    · refine List.forall_mem_append.mpr ⟨hs.known, ?_⟩
      intro x hx
      cases List.mem_singleton.mp hx
      exact hs.length ▸ (List.getElem?_eq_some_iff.mp ht).1
  | @write g p ps js ht =>
    cases g with
    | false =>
      refine hs.unguarded ht (fun _ h => by cases h) (fun _ h => by cases h) rfl rfl rfl ?_ rfl
      rw [guarded_snoc]
      exact List.append_nil _
    | true =>
      -- the piece goes from what is left of the job to what is written
      have hi : s.holder = some i := (hs.holder_iff ht).mpr ⟨_, rfl⟩
      refine ⟨fun j => ?_, ?_, fun j u us hu hus => ?_, hs.known,
        (List.length_set ..).trans hs.length⟩
      · show s.holder = some j ↔ ∃ t ps, (s.threads.set i _)[j]? = some t ∧ _
        rw [get_set ht]
        by_cases hij : i = j
        · subst hij
          rw [if_pos rfl]
          exact iff_of_true hi ⟨_, ps, rfl, rfl⟩
        · rw [if_neg hij]
          exact hs.lock j
      · have hold := rest_of_holder hi ht
        have hget : (s.threads.set i ⟨some (true, ps), js⟩)[i]? = some ⟨some (true, ps), js⟩ :=
          (get_set ht _ i).trans (if_pos rfl)
        have hnew : State.rest { s with
            threads := s.threads.set i ⟨some (true, ps), js⟩
            written := s.written ++ [⟨i, true, p⟩] }
              = (Thread.rest ⟨some (true, ps), js⟩).map fun p => (i, p) :=
          rest_of_holder hi hget
        have hwritten := hs.written
        rw [hold] at hwritten
        rw [guarded_snoc, hnew, ← hwritten, List.append_assoc]
        rfl
      · exact hs.order_set ht (by rfl) hu hus
  | @finish g js ht =>
    cases g with
    | false =>
      exact hs.unguarded ht (fun _ h => by cases h) (fun _ h => by cases h) rfl rfl rfl rfl rfl
    | true =>
      have hi : s.holder = some i := (hs.holder_iff ht).mpr ⟨_, rfl⟩
      refine ⟨fun j => ?_, ?_, fun j u us hu hus => ?_, hs.known,
        (List.length_set ..).trans hs.length⟩
      · show none = some j ↔ ∃ t ps, (s.threads.set i _)[j]? = some t ∧ _
        rw [get_set ht]
        refine iff_of_false (fun h => by cases h) ?_
        rintro ⟨u, ps, hu, hcur⟩
        by_cases hij : i = j
        · rw [if_pos hij] at hu
          cases hu
          cases hcur
        · rw [if_neg hij] at hu
          have hj : s.holder = some j := (hs.lock j).mpr ⟨u, ps, hu, hcur⟩
          exact hij (Option.some.inj (hi.symm.trans hj))
      · have hold := rest_of_holder hi ht
        have hwritten := hs.written
        rw [hold] at hwritten
        exact hwritten
      · exact hs.order_set ht (by rfl) hu hus

theorem inv_step (hs : Inv k jobs s) (h : step k s i = some s') : Inv k jobs s' :=
  (step_cases h).inv hs

/-! ## What one thread writes -/

/-- What thread `i` has written. -/
def State.byThread (s : State ι π) (i : Nat) : List π :=
  (s.written.filter fun w => w.thread == i).map Mark.piece

/-- What a thread has still to write. -/
def Thread.pending (k : Style ι π) (t : Thread ι π) : List π :=
  (t.current.map Prod.snd).getD [] ++ t.jobs.flatMap k.pieces

/-- Nothing is lost: each thread writes what its jobs write, in their order. -/
def Own (k : Style ι π) (jobs : List (List ι)) (s : State ι π) : Prop :=
  ∀ i t js, s.threads[i]? = some t → jobs[i]? = some js →
    s.byThread i ++ t.pending k = js.flatMap k.pieces

theorem start_own (jobs : List (List ι)) : Own k jobs (start jobs : State ι π) := by
  intro i t js ht hjs
  obtain ⟨js', hjs', rfl⟩ := Option.map_eq_some_iff.mp ((List.getElem?_map ..).symm.trans ht)
  cases hjs.symm.trans hjs'
  rfl

theorem own_set (hs : Own k jobs s) {t t' : Thread ι π} (ht : s.threads[i]? = some t)
    (hthreads : s'.threads = s.threads.set i t')
    (hother : ∀ j, i ≠ j → s'.byThread j = s.byThread j)
    (hmoved : s'.byThread i ++ t'.pending k = s.byThread i ++ t.pending k) : Own k jobs s' := by
  intro j u us hu hus
  rw [hthreads, get_set ht] at hu
  by_cases hij : i = j
  · subst hij
    rw [if_pos rfl] at hu
    cases hu
    rw [hmoved]
    exact hs i t us ht hus
  · rw [if_neg hij] at hu
    rw [hother j hij]
    exact hs j u us hu hus

theorem own_step (hs : Own k jobs s) (h : step k s i = some s') : Own k jobs s' := by
  cases step_cases h with
  | lock ht _ _ => exact own_set hs ht rfl (fun _ _ => rfl) rfl
  | start ht _ => exact own_set hs ht rfl (fun _ _ => rfl) rfl
  | finish ht => exact own_set hs ht rfl (fun _ _ => rfl) rfl
  | @write g p ps js ht =>
    refine own_set hs ht rfl (fun j hij => ?_) ?_
    · have hother : ¬ ((⟨i, g, p⟩ : Mark π).thread == j) = true := by
        rw [beq_iff_eq]
        exact hij
      unfold State.byThread
      dsimp only
      rw [List.filter_append, List.filter_singleton, cond_eq_ite, if_neg hother, List.append_nil]
    · have hmine : ((⟨i, g, p⟩ : Mark π).thread == i) = true := beq_self_eq_true _
      unfold State.byThread
      dsimp only
      rw [List.filter_append, List.filter_singleton, cond_eq_ite, if_pos hmine, List.map_append,
        List.append_assoc]
      rfl

theorem Own.done (hs : Own k jobs s) (hlength : s.threads.length = jobs.length) (h : s.Done)
    {js : List ι} (hjs : jobs[i]? = some js) : s.byThread i = js.flatMap k.pieces := by
  obtain ⟨hlt, -⟩ := List.getElem?_eq_some_iff.mp hjs
  rw [← hlength] at hlt
  obtain ⟨hcur, hrest⟩ := h _ (List.getElem_mem hlt)
  have hown := hs i _ js (List.getElem?_eq_getElem hlt) hjs
  unfold Thread.pending at hown
  rw [hcur, hrest] at hown
  exact (List.append_nil _).symm.trans hown

/-- Every job is guarded, and so is all that is written. -/
structure Sealed (k : Style ι π) (s : State ι π) : Prop where
  jobs : ∀ t ∈ s.threads, ∀ job ∈ t.jobs, k.guarded job = true
  current : ∀ t ∈ s.threads, ∀ g ps, t.current = some (g, ps) → g = true
  written : ∀ w ∈ s.written, w.guarded = true

theorem start_sealed (h : ∀ js ∈ jobs, ∀ job ∈ js, k.guarded job = true) :
    Sealed k (start jobs : State ι π) := by
  refine ⟨fun t ht => ?_, fun t ht g ps hcur => ?_, List.forall_mem_nil _⟩
  · obtain ⟨js, hjs, rfl⟩ := List.mem_map.mp ht
    exact h js hjs
  · obtain ⟨js, hjs, rfl⟩ := List.mem_map.mp ht
    cases hcur

theorem Sealed.set (hs : Sealed k s) {current : Option (Bool × List π)} {js : List ι}
    (hjobs : ∀ job ∈ js, k.guarded job = true) (hcur : ∀ g ps, current = some (g, ps) → g = true)
    (hthreads : s'.threads = s.threads.set i ⟨current, js⟩)
    (hwritten : ∀ w ∈ s'.written, w.guarded = true) : Sealed k s' := by
  refine ⟨fun t ht => ?_, fun t ht => ?_, hwritten⟩
  all_goals
    rw [hthreads] at ht
    rcases List.mem_or_eq_of_mem_set ht with ht | rfl
  · exact hs.jobs t ht
  · exact hjobs
  · exact hs.current t ht
  · exact hcur

theorem sealed_step (hs : Sealed k s) (h : step k s i = some s') : Sealed k s' := by
  cases step_cases h with
  | @lock job js ht hg _ =>
    have hjobs := hs.jobs _ (List.mem_of_getElem? ht)
    refine hs.set (fun x hx => hjobs x (List.mem_cons_of_mem _ hx)) ?_ rfl hs.written
    intro g ps hcur
    cases hcur
    rfl
  | @start job js ht hg =>
    have hjob := hs.jobs _ (List.mem_of_getElem? ht) job (List.mem_cons_self ..)
    cases hg.symm.trans hjob
  | @write g p ps js ht =>
    have hmem := List.mem_of_getElem? ht
    have hg := hs.current _ hmem g (p :: ps) rfl
    refine hs.set (hs.jobs _ hmem) ?_ rfl (List.forall_mem_append.mpr ⟨hs.written, ?_⟩)
    · intro g' ps' hcur
      cases hcur
      exact hg
    · intro w hw
      cases List.mem_singleton.mp hw
      exact hg
  | @finish g js ht =>
    refine hs.set (hs.jobs _ (List.mem_of_getElem? ht)) ?_ rfl hs.written
    intro g' ps' hcur
    cases hcur

/-- Where all is written under the lock, the output is what was written under the lock. -/
theorem Sealed.guarded (hs : Sealed k s) : s.guarded.map Prod.snd = s.written.map Mark.piece := by
  unfold State.guarded
  rw [List.filter_eq_self.mpr hs.written, List.map_map]
  rfl

/-! ## Every thread comes to its end -/

/-- The steps left to a thread. -/
def Thread.work (k : Style ι π) (t : Thread ι π) : Nat :=
  (t.current.map fun x => x.2.length + 1).getD 0
    + (t.jobs.map fun job => (k.pieces job).length + 2).sum

def work (k : Style ι π) (s : State ι π) : Nat := (s.threads.map (Thread.work k)).sum

theorem sum_set_lt {α : Type} {f : α → Nat} {xs : List α} {x y : α} (hx : xs[i]? = some x)
    (hlt : f y < f x) : ((xs.set i y).map f).sum < (xs.map f).sum := by
  induction xs generalizing i with
  | nil => cases hx
  | cons z zs ih =>
    cases i with
    | zero =>
      cases hx
      simp only [List.set_cons_zero, List.map_cons, List.sum_cons]
      omega
    | succ i =>
      have hrest := ih hx
      simp only [List.set_cons_succ, List.map_cons, List.sum_cons]
      omega

/-- Every step of any thread leaves less to do. -/
theorem work_step (h : step k s i = some s') : work k s' < work k s := by
  cases step_cases h with
  | lock ht | start ht | write ht | finish ht =>
    refine sum_set_lt ht ?_
    simp only [Thread.work, Option.map_some, Option.map_none, Option.getD_some, Option.getD_none,
      List.map_cons, List.sum_cons, List.length_cons]
    omega

/-- As long as something is left to do, some thread can move: the one with the lock, or else any. -/
theorem exists_step (hs : Inv k jobs s) (h : ∀ i, step k s i = none) : s.Done := by
  -- a thread in a job can always go on
  have hidle : ∀ (i : Nat) (t : Thread ι π), s.threads[i]? = some t → t.current = none := by
    intro i t ht
    have hstep := h i
    unfold step at hstep
    rw [ht, Option.bind_some, move] at hstep
    cases hcur : t.current with
    | none => rfl
    | some x =>
      obtain ⟨g, ps⟩ := x
      rw [hcur] at hstep
      cases ps <;> cases hstep
  have hfree : s.holder = none := by
    cases hholder : s.holder with
    | none => rfl
    | some i =>
      obtain ⟨t, ps, ht, hcur⟩ := (hs.lock i).mp hholder
      rw [hidle i t ht] at hcur
      cases hcur
  intro t hmem
  obtain ⟨i, ht⟩ := List.mem_iff_getElem?.mp hmem
  have hcur := hidle i t ht
  refine ⟨hcur, ?_⟩
  cases hjobs : t.jobs with
  | nil => rfl
  | cons job js =>
    have hstep := h i
    unfold step at hstep
    rw [ht, Option.bind_some, move, hcur] at hstep
    dsimp only at hstep
    rw [hjobs] at hstep
    dsimp only at hstep
    rw [hfree] at hstep
    split at hstep <;> cases hstep

/-- At the end nobody has the lock, and everything that was taken is written. -/
theorem Inv.done (hs : Inv k jobs s) (h : s.Done) :
    s.holder = none ∧ s.guarded = s.taken.flatMap (tagged k) ∧
      ∀ i js, jobs[i]? = some js → s.takenBy i = js.filter k.guarded := by
  have hfree : s.holder = none := by
    cases hholder : s.holder with
    | none => rfl
    | some i =>
      obtain ⟨t, ps, ht, hcur⟩ := (hs.lock i).mp hholder
      rw [(h t (List.mem_of_getElem? ht)).1] at hcur
      cases hcur
  refine ⟨hfree, ?_, fun i js hjs => ?_⟩
  · have hwritten := hs.written
    unfold State.rest at hwritten
    rw [hfree, List.append_nil] at hwritten
    exact hwritten
  · obtain ⟨hlt, -⟩ := List.getElem?_eq_some_iff.mp hjs
    rw [← hs.length] at hlt
    have ht := List.getElem?_eq_getElem hlt
    have horder := hs.order i _ js ht hjs
    rw [(h _ (List.getElem_mem hlt)).2, List.filter_nil, List.append_nil] at horder
    exact horder

end CommonCpp.Lib.Guard
