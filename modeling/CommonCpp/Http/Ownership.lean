import CommonCpp.Http.Multipart
import CommonCpp.Http.UrlValues
import CommonCpp.Lib.Heap
import CommonCpp.Lib.Run

/-!
# Who frees the text of an `http::value`

The class with its members on a heap: `str_v` points to a copy made by
`common::strcpy`, the copy constructor makes another, the destructor frees it. Over
any program that constructs, copies, reads and destroys objects, no block is freed
twice and none is read after it was freed, and every object, through any chain of
copies, gives the text the first one was made of (`owned_run`). What is not freed is
what `str()` allocates for an integer: its callers have nowhere to free it.

`Meaning` is the class without a heap. A step has no result where the program has no
defined behaviour or an exception ends it.
-/

namespace CommonCpp.Http

open CommonCpp.Lib CommonCpp.Text

/-! ## The class on a heap -/

/-- The members of an `http::value`. -/
structure ValueObject where
  vt : Int32
  integer_v : Int32
  str_v : Option Addr

/-- The heap, the objects by handle, and what the callers of `str()` have read. -/
structure Store where
  heap : Heap CString
  objects : List (Option ValueObject)
  texts : List (Option CString)

/-- What a program does with values. -/
inductive ValueOp where
  | ofInt (v : Int32)
  | ofText (v : Option CString)
  | copy (i : Nat)
  | destroy (i : Nat)
  | str (i : Nat)

/-- `common::strcpy`: a null pointer is handed through. -/
def strcpyHeap (h : Heap CString) : Option CString → Option (Option Addr × Heap CString)
  | none => some (none, h)
  | some source => (strcpy source).map fun cpy => (some (h.alloc cpy).1, (h.alloc cpy).2)

/-- The text a pointer leads to. -/
def deref (h : Heap CString) : Option Addr → Option (Option CString)
  | none => some none
  | some a => (h.read a).map some

/-- `delete[]` -/
def deleteArray (h : Heap CString) : Option Addr → Option (Heap CString)
  | none => some h
  | some a => h.free a

/-- `value::str`: the pointer it returns, and the heap behind it. -/
def strHeap (h : Heap CString) (o : ValueObject) : Option (Option Addr × Heap CString) :=
  if o.vt = 1 then
    (stringFormat (ascii "%d") [.int o.integer_v]).bind fun t => strcpyHeap h (some (.ofBytes t))
  else if o.vt = 2 then some (o.str_v, h)
  -- throw common::exception("invalid vt value.")
  else none

def Store.start : Store := ⟨Heap.empty, [], []⟩

def Store.step (s : Store) : ValueOp → Option Store
  | .ofInt v => some { s with objects := s.objects ++ [some ⟨1, v, none⟩] }
  | .ofText v =>
    (strcpyHeap s.heap v).map fun (p, h) =>
      { s with heap := h, objects := s.objects ++ [some ⟨2, 0, p⟩] }
  | .copy i =>
    (slot s.objects i).bind fun a => (deref s.heap a.str_v).bind fun t =>
      (strcpyHeap s.heap t).map fun (p, h) =>
        { s with heap := h, objects := s.objects ++ [some ⟨a.vt, a.integer_v, p⟩] }
  | .destroy i =>
    (slot s.objects i).bind fun o => (deleteArray s.heap o.str_v).map fun h =>
      { s with heap := h, objects := s.objects.set i none }
  | .str i =>
    (slot s.objects i).bind fun o => (strHeap s.heap o).bind fun (p, h) =>
      (deref h p).map fun t => { s with heap := h, texts := s.texts ++ [t] }

/-! ## The class as it is meant -/

/-- What the first object in a chain of copies was made of. -/
inductive Made where
  | int (v : Int32)
  | text (v : Option CString)

/-- The objects, what `str()` has given, and how often for an integer. -/
structure Meaning where
  values : List (Option Made)
  texts : List (Option CString)
  ints : Nat

def Made.shown : Made → Option CString
  | .int v => some (.ofBytes (decimal v))
  | .text v => v

def Made.isInt : Made → Bool
  | .int _ => true
  | .text _ => false

/-- The text can be measured by an `int` and copied. -/
def Copyable (v : Option CString) : Prop := ∀ t, v = some t → t.bytes.length < INT_MAX

instance : ∀ v, Decidable (Copyable v)
  | none => isTrue fun _ h => by cases h
  | some t => decidable_of_iff (t.bytes.length < INT_MAX)
    ⟨fun h _ heq => by cases heq; exact h, fun h => h t rfl⟩

def Meaning.start : Meaning := ⟨[], [], 0⟩

def Meaning.step (m : Meaning) : ValueOp → Option Meaning
  | .ofInt v => some { m with values := m.values ++ [some (.int v)] }
  | .ofText v =>
    if Copyable v then some { m with values := m.values ++ [some (.text v)] } else none
  | .copy i => (slot m.values i).map fun v => { m with values := m.values ++ [some v] }
  | .destroy i => (slot m.values i).map fun _ => { m with values := m.values.set i none }
  | .str i =>
    (slot m.values i).map fun v =>
      { m with texts := m.texts ++ [v.shown], ints := m.ints + if v.isInt then 1 else 0 }

/-! ## What an object stands for -/

/-- A pointer to the text, or null for none. -/
def Points (h : Heap CString) (p : Option Addr) (v : Option CString) : Prop :=
  Copyable v ∧ deref h p = some v

def Represents (h : Heap CString) : Made → ValueObject → Prop
  | .int v, o => o = ⟨1, v, none⟩
  | .text v, o => o.vt = 2 ∧ Points h o.str_v v

def Store.owned (s : Store) : List Addr := pointers ValueObject.str_v s.objects

/-- The heap holds what the objects own, and what `str()` allocated for integers. -/
structure Holds (m : Meaning) (s : Store) : Prop where
  length : m.values.length = s.objects.length
  live : ∀ i, slot m.values i = none ↔ slot s.objects i = none
  represents : ∀ i v o, slot m.values i = some v → slot s.objects i = some o →
    Represents s.heap v o
  owned : ∃ lost, lost.length = m.ints ∧ s.heap.Owned (s.owned ++ lost)
  texts : s.texts = m.texts

/-- A printed integer can be copied. -/
theorem length_printed (n : Int32) : (CString.ofBytes (decimal n)).bytes.length < INT_MAX := by
  have hcut := (List.takeWhile_prefix (l := decimal n) fun b => b != 0).length_le
  have hdigits := length_decimal n
  show (List.takeWhile _ _).length < INT_MAX
  unfold INT_MAX
  omega

/-- `strcpy` makes a block of its own, if there is a text to copy. -/
theorem strcpyHeap_owned {h : Heap CString} {as : List Addr} (ho : h.Owned as)
    {v : Option CString} (hv : Copyable v) :
    ∃ p h', strcpyHeap h v = some (p, h') ∧ Points h' p v ∧ h'.Owned (p.toList ++ as) ∧
      ∀ a ∈ as, h'.read a = h.read a := by
  cases v with
  | none => exact ⟨none, h, rfl, ⟨hv, rfl⟩, ho, fun _ _ => rfl⟩
  | some t =>
    refine ⟨some (h.alloc t).1, (h.alloc t).2, ?_, ⟨hv, ?_⟩, ho.alloc t, fun a ha =>
      ho.read_alloc ha t⟩
    · rw [strcpyHeap, strcpy_of_lt (hv t rfl)]
      rfl
    · rw [deref, Heap.read_alloc_self]
      rfl

theorem deleteArray_owned {h : Heap CString} {p : Option Addr} {as : List Addr}
    (ho : h.Owned (p.toList ++ as)) :
    ∃ h', deleteArray h p = some h' ∧ h'.Owned as ∧ ∀ a ∈ as, h'.read a = h.read a := by
  cases p with
  | none => exact ⟨h, rfl, ho, fun _ _ => rfl⟩
  | some a => exact ho.free

theorem Represents.frame {h h' : Heap CString} {v : Made} {o : ValueObject}
    (hr : Represents h v o) (hread : ∀ a, o.str_v = some a → h'.read a = h.read a) :
    Represents h' v o := by
  cases v with
  | int v => exact hr
  | text v =>
    obtain ⟨hvt, hv, hp⟩ := hr
    refine ⟨hvt, hv, ?_⟩
    cases hstr : o.str_v with
    | none => rwa [hstr] at hp
    | some a =>
      rw [hstr] at hp
      rw [deref, hread a hstr]
      exact hp

/-! ## What a step does -/

section

variable {m : Meaning} {s : Store}

theorem mem_owned {i : Nat} {o : ValueObject} {a : Addr} (hi : slot s.objects i = some o)
    (ha : o.str_v = some a) : a ∈ s.owned := mem_pointers hi ha

/-- Where one of the two is alive, so is the other. -/
theorem Holds.object (hs : Holds m s) {i : Nat} {v : Made} (hv : slot m.values i = some v) :
    ∃ o, slot s.objects i = some o ∧ Represents s.heap v o := by
  cases ho : slot s.objects i with
  | none =>
    rw [(hs.live i).mpr ho] at hv
    cases hv
  | some o => exact ⟨o, rfl, hs.represents i v o hv ho⟩

/-- A new object, with the block it points to. -/
theorem Holds.push (hs : Holds m s) {lost : List Addr} (hlost : lost.length = m.ints) {v : Made}
    {o : ValueObject} {h : Heap CString} (ho : h.Owned (o.str_v.toList ++ (s.owned ++ lost)))
    (hread : ∀ a ∈ s.owned ++ lost, h.read a = s.heap.read a) (hv : Represents h v o) :
    Holds { m with values := m.values ++ [some v] }
      { s with heap := h, objects := s.objects ++ [some o] } := by
  refine ⟨?_, fun i => ?_, fun i w x hw hx => ?_, ⟨lost, hlost, ?_⟩, hs.texts⟩
  · simp only [List.length_append, List.length_singleton, hs.length]
  · rw [slot_push, slot_push, hs.length]
    by_cases hi : i = s.objects.length
    · rw [if_pos hi, if_pos hi]
      exact iff_of_false (Option.some_ne_none v) (Option.some_ne_none o)
    · rw [if_neg hi, if_neg hi]
      exact hs.live i
  · rw [slot_push, hs.length] at hw
    rw [slot_push] at hx
    by_cases hi : i = s.objects.length
    · rw [if_pos hi] at hw hx
      cases hw
      cases hx
      exact hv
    · rw [if_neg hi] at hw hx
      exact (hs.represents i w x hw hx).frame fun a ha =>
        hread a (List.mem_append_left _ (mem_owned hx ha))
  · refine ho.of_perm ?_
    show List.Perm _ (pointers ValueObject.str_v (s.objects ++ [some o]) ++ lost)
    rw [pointers_push, List.append_assoc]
    exact List.perm_append_comm_assoc _ _ _

theorem holds_start : Holds Meaning.start Store.start := by
  have hnone : ∀ i, slot Meaning.start.values i = none := fun _ => rfl
  refine ⟨rfl, fun i => iff_of_true (hnone i) rfl, fun i v o hv _ => ?_,
    ⟨[], rfl, Heap.owned_empty⟩, rfl⟩
  rw [hnone i] at hv
  cases hv

theorem Holds.ofInt (hs : Holds m s) (v : Int32) :
    Holds { m with values := m.values ++ [some (.int v)] }
      { s with objects := s.objects ++ [some ⟨1, v, none⟩] } := by
  obtain ⟨lost, hlost, ho⟩ := hs.owned
  exact hs.push (h := s.heap) hlost ho (fun _ _ => rfl) rfl

theorem Holds.ofText (hs : Holds m s) {v : Option CString} (hv : Copyable v) (n : Int32) :
    ∃ p h, strcpyHeap s.heap v = some (p, h) ∧
      Holds { m with values := m.values ++ [some (.text v)] }
        { s with heap := h, objects := s.objects ++ [some ⟨2, n, p⟩] } := by
  obtain ⟨lost, hlost, ho⟩ := hs.owned
  obtain ⟨p, h, heq, hp, ho', hread⟩ := strcpyHeap_owned ho hv
  exact ⟨p, h, heq, hs.push hlost ho' hread ⟨rfl, hp⟩⟩

theorem Holds.destroy (hs : Holds m s) {i : Nat} {o : ValueObject}
    (hi : slot s.objects i = some o) :
    ∃ h, deleteArray s.heap o.str_v = some h ∧
      Holds { m with values := m.values.set i none }
        { s with heap := h, objects := s.objects.set i none } := by
  obtain ⟨lost, hlost, ho⟩ := hs.owned
  have hclear : s.owned.Perm
      (o.str_v.toList ++ pointers ValueObject.str_v (s.objects.set i none)) := pointers_clear hi
  have hperm := hclear.append_right lost
  rw [List.append_assoc] at hperm
  obtain ⟨h, heq, ho', hread⟩ := deleteArray_owned (ho.of_perm hperm)
  refine ⟨h, heq, ?_, fun j => ?_, fun j w x hw hx => ?_, ⟨lost, hlost, ho'⟩, hs.texts⟩
  · simp only [List.length_set, hs.length]
  · rw [slot_clear, slot_clear]
    by_cases hij : i = j
    · rw [if_pos hij, if_pos hij]
      exact iff_of_true rfl rfl
    · rw [if_neg hij, if_neg hij]
      exact hs.live j
  · rw [slot_clear] at hw hx
    by_cases hij : i = j
    · rw [if_pos hij] at hw
      cases hw
    · rw [if_neg hij] at hw hx
      refine (hs.represents j w x hw hx).frame fun a ha => ?_
      -- the object is still there, and so is its pointer
      have hx' : slot (s.objects.set i none) j = some x := by rw [slot_clear, if_neg hij, hx]
      exact hread a (List.mem_append_left _ (mem_pointers hx' ha))

/-- `str()` gives the text, and for an integer leaves a block behind. -/
theorem Holds.str (hs : Holds m s) {i : Nat} {v : Made} {o : ValueObject}
    (hi : slot s.objects i = some o) (hr : Represents s.heap v o) :
    ∃ p h, strHeap s.heap o = some (p, h) ∧ deref h p = some v.shown ∧
      Holds { m with texts := m.texts ++ [v.shown], ints := m.ints + if v.isInt then 1 else 0 }
        { s with heap := h, texts := s.texts ++ [v.shown] } := by
  obtain ⟨lost, hlost, ho⟩ := hs.owned
  cases v with
  | text v =>
    obtain ⟨hvt, hv, hp⟩ := hr
    refine ⟨o.str_v, s.heap, ?_, hp, hs.length, hs.live, hs.represents, ⟨lost, hlost, ho⟩, ?_⟩
    · rw [strHeap, hvt]
      rfl
    · exact congrArg (· ++ [v]) hs.texts
  | int n =>
    cases hr
    have hshort : Copyable (some (CString.ofBytes (decimal n))) := by
      intro u hu
      cases hu
      exact length_printed n
    obtain ⟨p, h, heq, ⟨-, hp⟩, ho', hread⟩ := strcpyHeap_owned ho hshort
    refine ⟨p, h, ?_, hp, hs.length, hs.live, ?_, ⟨p.toList ++ lost, ?_, ?_⟩, ?_⟩
    · rw [strHeap, if_pos rfl, stringFormat_int, Option.bind_some, heq]
    · intro j w x hw hx
      exact (hs.represents j w x hw hx).frame fun a ha =>
        hread a (List.mem_append_left _ (mem_owned hx ha))
    · cases p with
      | none => cases hp
      | some a => simp [hlost, Made.isInt]
    · exact ho'.of_perm (List.perm_append_comm_assoc _ _ _)
    · exact congrArg (· ++ [Made.shown (.int n)]) hs.texts

/-- Whatever the class is meant to do next, the heap does. -/
theorem holds_step {op : ValueOp} {m' : Meaning} (hs : Holds m s) (h : m.step op = some m') :
    ∃ s', s.step op = some s' ∧ Holds m' s' := by
  cases op with
  | ofInt v =>
    cases h
    exact ⟨_, rfl, hs.ofInt v⟩
  | ofText v =>
    obtain ⟨hv, h⟩ := Option.ite_none_right_eq_some.mp h
    cases h
    obtain ⟨p, k, heq, hk⟩ := hs.ofText hv 0
    exact ⟨_, by rw [Store.step, heq]; rfl, hk⟩
  | copy i =>
    obtain ⟨v, hv, rfl⟩ := Option.map_eq_some_iff.mp h
    obtain ⟨o, ho, hr⟩ := hs.object hv
    cases v with
    | int n =>
      cases hr
      refine ⟨_, ?_, hs.ofInt n⟩
      rw [Store.step, ho]
      rfl
    | text t =>
      obtain ⟨hvt, ht, hp⟩ := hr
      obtain ⟨p, k, heq, hk⟩ := hs.ofText ht o.integer_v
      refine ⟨_, ?_, hk⟩
      rw [Store.step, ho, Option.bind_some, hp, Option.bind_some, heq, hvt]
      rfl
  | destroy i =>
    obtain ⟨v, hv, rfl⟩ := Option.map_eq_some_iff.mp h
    obtain ⟨o, ho, -⟩ := hs.object hv
    obtain ⟨k, heq, hk⟩ := hs.destroy ho
    refine ⟨_, ?_, hk⟩
    rw [Store.step, ho, Option.bind_some, heq]
    rfl
  | str i =>
    obtain ⟨v, hv, rfl⟩ := Option.map_eq_some_iff.mp h
    obtain ⟨o, ho, hr⟩ := hs.object hv
    obtain ⟨p, k, heq, hp, hk⟩ := hs.str ho hr
    refine ⟨_, ?_, hk⟩
    rw [Store.step, ho, Option.bind_some, heq]
    show (deref k p).map _ = _
    rw [hp]
    rfl

/-! ## Runs -/

def Made.ownsText : Made → Bool
  | .int _ => false
  | .text v => v.isSome

/-- The living objects that have a text. -/
def Meaning.ownTexts (m : Meaning) : Nat :=
  m.values.countP fun v => (v.map Made.ownsText).getD false

/-- As many pointers are owned as there are living objects with a text. -/
theorem Holds.owned_length (hs : Holds m s) : s.owned.length = m.ownTexts := by
  have hone : ∀ {h v o}, Represents h v o → (o.str_v.toList).length = if v.ownsText then 1 else 0 := by
    intro h v o hr
    cases v with
    | int n =>
      cases hr
      rfl
    | text t =>
      obtain ⟨-, -, hp⟩ := hr
      cases hstr : o.str_v with
      | none =>
        rw [hstr] at hp
        cases hp
        rfl
      | some a =>
        rw [hstr] at hp
        obtain ⟨x, -, hx⟩ := Option.map_eq_some_iff.mp hp
        rw [← hx]
        rfl
  -- along both lists, which have the same living places
  obtain ⟨hlen, hlive, hrep, -, -⟩ := hs
  unfold Store.owned Meaning.ownTexts pointers
  generalize s.heap = h at hrep
  generalize s.objects = objects at hlen hlive hrep
  generalize m.values = values at hlen hlive hrep
  induction values generalizing objects with
  | nil =>
    cases objects with
    | nil => rfl
    | cons x xs => cases hlen
  | cons v vs ih =>
    cases objects with
    | nil => cases hlen
    | cons x xs =>
      have hrest := ih xs (Nat.succ.inj hlen) (fun i => hlive (i + 1)) fun i => hrep (i + 1)
      have hhead : v = none ↔ x = none := hlive 0
      rw [List.filterMap_cons, List.countP_cons, ← hrest]
      cases v with
      | none =>
        rw [hhead.mp rfl]
        rfl
      | some v =>
        cases x with
        | none => exact absurd (hhead.mpr rfl) (Option.some_ne_none v)
        | some o =>
          have hlen := hone (hrep 0 v o rfl rfl)
          rw [Option.bind_some]
          cases hstr : o.str_v with
          | none =>
            rw [hstr] at hlen
            simpa using hlen
          | some a =>
            rw [hstr] at hlen
            simpa using hlen

/-- What is allocated: one block for each object with a text, and those left behind. -/
theorem Holds.blocks (hs : Holds m s) : s.heap.blocks.length = m.ownTexts + m.ints := by
  obtain ⟨lost, hlost, ho⟩ := hs.owned
  rw [ho.length, List.length_append, hs.owned_length, hlost]

/-- **Ownership of the texts.** Whatever a program does with values, as long as it uses
objects that are alive and makes none of a text too long for an `int`: no block is read
or freed that is not allocated, every `str()` gives the text or number that the first
object in the chain of copies was made of, no two objects share a block, and allocated
are exactly the blocks of the objects alive and one for each `str()` of an integer. -/
theorem owned_run (ops : List ValueOp) (m : Meaning)
    (h : run Meaning.step Meaning.start ops = some m) :
    ∃ s, run Store.step Store.start ops = some s ∧ s.texts = m.texts ∧ s.owned.Nodup ∧
      (∀ i v, slot m.values i = some v →
        ∃ o, slot s.objects i = some o ∧ Represents s.heap v o) ∧
      s.heap.blocks.length = m.ownTexts + m.ints := by
  obtain ⟨s, hrun, hs⟩ := run_simulates holds_step holds_start h
  obtain ⟨lost, -, ho⟩ := hs.owned
  have hnodup : (s.owned ++ lost).Nodup := ho.perm.nodup_iff.mp ho.nodup
  exact ⟨s, hrun, hs.texts, (List.nodup_append.mp hnodup).1, fun _ _ => hs.object, hs.blocks⟩

/-- `"v"` -/
def oneLetter : CString := ⟨ascii "v", by decide⟩

/-- Two values are made, one copied, all read and all destroyed. -/
def oneOfEach : List ValueOp :=
  [.ofInt (-7), .ofText (some oneLetter), .copy 1, .str 0, .destroy 1, .str 2, .destroy 2,
    .destroy 0]

theorem owned_oneOfEach :
    ∃ m s, run Meaning.step Meaning.start oneOfEach = some m ∧
      run Store.step Store.start oneOfEach = some s ∧ s.texts = m.texts ∧
      s.heap.blocks.length = m.ownTexts + m.ints ∧ m.ownTexts = 0 ∧ m.ints = 1 := by
  obtain ⟨s, hrun, htexts, -, -, hblocks⟩ := owned_run oneOfEach _ rfl
  exact ⟨_, s, rfl, hrun, htexts, hblocks, rfl, rfl⟩

end

end CommonCpp.Http
