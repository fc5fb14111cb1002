import CommonCpp.Http.Value
import CommonCpp.Lib.Pairs
import CommonCpp.Text.UrlEncode

/-!
# `http::UrlValues`

`add` appends `name=url_encode(value)` to the query, behind a `&` unless the
query is still empty. Names go in as they are. A query built by a sequence of
calls is `Lib.Pairs.frame` of the names and the encoded values (`addAll_eq`),
and `url_encode` emits neither delimiter, so the framing is exact in the names
(`framed_iff`) — for values that can be held at all: the longest text an `int`
can measure makes `strcpy` overflow.
-/

namespace CommonCpp.Http

open CommonCpp.Lib CommonCpp.Text

/-- `UrlValues`: the query built so far. -/
structure UrlValues where
  str : Bytes

/-- `UrlValues::add`, for a value that has been passed to it. -/
def UrlValues.add (u : UrlValues) (name : Bytes) (value : Value) : Option UrlValues :=
  let str := if u.str ≠ [] then u.str ++ ascii "&" else u.str
  value.str.bind fun text =>
    (urlEncode text).map fun encoded => ⟨str ++ name ++ ascii "=" ++ encoded⟩

/-- What a caller writes in the place of a value. -/
inductive Given where
  | int (v : Int32)
  | str (v : CString)

/-- One call of `add`. -/
structure Call where
  name : Bytes
  value : Given

/-- The value object a call constructs. -/
def Given.value : Given → Option Value
  | .int v => some (.integer v)
  | .str v => Value.ofText v

/-- The call: the value is constructed, passed by value, and added. -/
def Call.run (u : UrlValues) (c : Call) : Option UrlValues :=
  c.value.value.bind fun v => v.copy.bind fun v => u.add c.name v

/-- The calls, on a fresh `UrlValues`. -/
def addAll (calls : List Call) : Option UrlValues := calls.foldlM Call.run ⟨[]⟩

/-- The pair a call stands for: `(name, url_encode(value.str()))`. -/
def Call.pair (c : Call) : Option (Bytes × Bytes) :=
  c.value.value.bind fun v => v.str.bind fun text => (urlEncode text).map fun e => (c.name, e)

/-- Splitting at every `&` and each segment at its first `=`. -/
def recover (str : Bytes) : Option (List (Bytes × Bytes)) := Pairs.unframe 0x26 0x3D str

/-- The calls build a query, and it gives back the pairs they stand for. -/
def Framed (calls : List Call) : Prop :=
  ∃ u pairs, addAll calls = some u ∧ calls.mapM Call.pair = some pairs ∧
    recover u.str = some pairs

/-- A text value of the call has fewer than `2 ^ 31` bytes. -/
def Call.Small (c : Call) : Prop := ∀ v, c.value = .str v → v.bytes.length < 2147483648

/-- A text value of the call has not the largest such length. -/
def Call.Fits (c : Call) : Prop := ∀ v, c.value = .str v → v.bytes.length ≠ 2147483647

/-- No name contains a delimiter. -/
def SafeNames (calls : List Call) : Prop := ∀ c ∈ calls, 0x26 ∉ c.name ∧ 0x3D ∉ c.name

/-! ## One call -/

/-- A value that fits is held, and encoded without a `&`. -/
theorem pair_of_fits {c : Call} (hs : c.Small) (hf : c.Fits) :
    ∃ e, c.pair = some (c.name, e) ∧ 0x26 ∉ e ∧
      ∀ u, c.run u = some ⟨(if u.str ≠ [] then u.str ++ ascii "&" else u.str) ++
        Pairs.segment 0x3D (c.name, e)⟩ := by
  have hvalue : ∃ v, c.value.value = some v := by
    unfold Call.Small at hs
    unfold Call.Fits at hf
    cases hc : c.value with
    | int n => exact ⟨_, rfl⟩
    | str t =>
      have hlen := hs t hc
      have hne := hf t hc
      exact ⟨_, ofText_of_lt (by unfold INT_MAX; omega)⟩
  obtain ⟨v, hv⟩ := hvalue
  obtain ⟨t, ht, hfits⟩ := exists_str v
  have henc : urlEncode t = some (t.bytes.flatMap code) := urlEncode_eq (Nat.le_of_lt hfits)
  refine ⟨t.bytes.flatMap code, ?_, ?_, fun u => ?_⟩
  · rw [Call.pair, hv, Option.bind_some, ht, Option.bind_some, henc]
    rfl
  · intro hm
    obtain ⟨b, -, hb⟩ := List.mem_flatMap.mp hm
    exact (not_mem_code b).1 hb
  · rw [Call.run, hv, Option.bind_some, copy_eq, Option.bind_some, UrlValues.add, ht,
      Option.bind_some, henc]
    simp [Pairs.segment, ascii]

theorem run_of_not_fits {c : Call} (hf : ¬ c.Fits) (u : UrlValues) : c.run u = none := by
  unfold Call.Fits at hf
  push Not at hf
  obtain ⟨v, hv, hlen⟩ := hf
  rw [Call.run, hv]
  show (Value.ofText v).bind _ = none
  rw [ofText_of_eq hlen]
  rfl

/-! ## A sequence of calls -/

/-- One more call, one more pair. -/
theorem pairs_cons {c : Call} {e : Bytes} {calls : List Call} {pairs : List (Bytes × Bytes)}
    (hpair : c.pair = some (c.name, e)) (hamp : 0x26 ∉ e)
    (hpairs : calls.mapM Call.pair = some pairs)
    (hnames : pairs.map Prod.fst = calls.map Call.name) (hamps : ∀ p ∈ pairs, 0x26 ∉ p.2) :
    (c :: calls).mapM Call.pair = some ((c.name, e) :: pairs) ∧
      ((c.name, e) :: pairs).map Prod.fst = (c :: calls).map Call.name ∧
      ∀ p ∈ (c.name, e) :: pairs, 0x26 ∉ p.2 := by
  refine ⟨?_, ?_, List.forall_mem_cons.mpr ⟨hamp, hamps⟩⟩
  · rw [List.mapM_cons, hpair, hpairs]
    rfl
  · rw [List.map_cons, List.map_cons, hnames]

/-- Calls on a query that is not empty. -/
theorem foldlM_run (calls : List Call) (hs : ∀ c ∈ calls, c.Small) (hf : ∀ c ∈ calls, c.Fits)
    (u : UrlValues) (hu : u.str ≠ []) :
    ∃ pairs, calls.mapM Call.pair = some pairs ∧ pairs.map Prod.fst = calls.map Call.name ∧
      (∀ p ∈ pairs, 0x26 ∉ p.2) ∧
      calls.foldlM Call.run u
        = some ⟨u.str ++ pairs.flatMap fun p => 0x26 :: Pairs.segment 0x3D p⟩ := by
  induction calls generalizing u with
  | nil => exact ⟨[], rfl, rfl, List.forall_mem_nil _, by simp⟩
  | cons c calls ih =>
    obtain ⟨e, hpair, hamp, hrun⟩ :=
      pair_of_fits (hs c (List.mem_cons_self ..)) (hf c (List.mem_cons_self ..))
    have hrun := hrun u
    rw [if_pos hu] at hrun
    obtain ⟨pairs, hpairs, hnames, hamps, hfold⟩ :=
      ih (fun d hd => hs d (List.mem_cons_of_mem _ hd))
        (fun d hd => hf d (List.mem_cons_of_mem _ hd))
        ⟨u.str ++ ascii "&" ++ Pairs.segment 0x3D (c.name, e)⟩ (by simp [ascii])
    obtain ⟨hpairs, hnames, hamps⟩ := pairs_cons hpair hamp hpairs hnames hamps
    refine ⟨_, hpairs, hnames, hamps, ?_⟩
    rw [List.foldlM_cons, hrun]
    refine hfold.trans ?_
    rw [List.flatMap_cons]
    simp [ascii]

/-- The query is the frame of the pairs. -/
theorem addAll_eq {calls : List Call} (hs : ∀ c ∈ calls, c.Small) (hf : ∀ c ∈ calls, c.Fits) :
    ∃ pairs, calls.mapM Call.pair = some pairs ∧ pairs.map Prod.fst = calls.map Call.name ∧
      (∀ p ∈ pairs, 0x26 ∉ p.2) ∧ addAll calls = some ⟨Pairs.frame 0x26 0x3D pairs⟩ := by
  cases calls with
  | nil => exact ⟨[], rfl, rfl, List.forall_mem_nil _, rfl⟩
  | cons c calls =>
    obtain ⟨e, hpair, hamp, hrun⟩ :=
      pair_of_fits (hs c (List.mem_cons_self ..)) (hf c (List.mem_cons_self ..))
    have hrun := hrun ⟨[]⟩
    obtain ⟨pairs, hpairs, hnames, hamps, hfold⟩ :=
      foldlM_run calls (fun d hd => hs d (List.mem_cons_of_mem _ hd))
        (fun d hd => hf d (List.mem_cons_of_mem _ hd))
        ⟨Pairs.segment 0x3D (c.name, e)⟩ (by simp [Pairs.segment])
    obtain ⟨hpairs, hnames, hamps⟩ := pairs_cons hpair hamp hpairs hnames hamps
    refine ⟨_, hpairs, hnames, hamps, ?_⟩
    rw [addAll, List.foldlM_cons, hrun, Pairs.frame_cons]
    exact hfold

/-- One value that does not fit, and no query is built. -/
theorem foldlM_run_none {calls : List Call} (h : ∃ c ∈ calls, ¬ c.Fits) (u : UrlValues) :
    calls.foldlM Call.run u = none := by
  induction calls generalizing u with
  | nil =>
    obtain ⟨c, hc, -⟩ := h
    cases hc
  | cons c calls ih =>
    rw [List.foldlM_cons]
    obtain ⟨d, hd, hnot⟩ := h
    rcases List.mem_cons.mp hd with rfl | hd
    · rw [run_of_not_fits hnot]
      rfl
    · cases hrun : c.run u with
      | none => rfl
      | some u' => exact ih ⟨d, hd, hnot⟩ u'

/-! ## Exact framing -/

theorem framed_of_fits {calls : List Call} (hne : calls ≠ []) (hs : ∀ c ∈ calls, c.Small)
    (hf : ∀ c ∈ calls, c.Fits) : Framed calls ↔ SafeNames calls := by
  obtain ⟨pairs, hpairs, hnames, hamps, hall⟩ := addAll_eq hs hf
  have hpne : pairs ≠ [] := by
    intro he
    rw [he] at hnames
    exact hne (List.map_eq_nil_iff.mp hnames.symm)
  have hiff := Pairs.unframe_frame_iff hpne (by decide : (0x26 : UInt8) ≠ 0x3D) hamps
  have hframed : Framed calls ↔ recover (Pairs.frame 0x26 0x3D pairs) = some pairs := by
    constructor
    · intro h
      obtain ⟨u, ps, hu, hps, hrec⟩ := h
      cases Option.some.inj (hall.symm.trans hu)
      cases Option.some.inj (hpairs.symm.trans hps)
      exact hrec
    · intro h
      exact ⟨_, pairs, hall, hpairs, h⟩
  -- the pairs have the names the calls have
  have hsafe : SafeNames calls ↔ ∀ p ∈ pairs, 0x26 ∉ p.1 ∧ 0x3D ∉ p.1 := by
    constructor
    · intro h p hp
      have hmem := List.mem_map_of_mem (f := Prod.fst) hp
      rw [hnames] at hmem
      obtain ⟨c, hc, he⟩ := List.mem_map.mp hmem
      rw [← he]
      exact h c hc
    · intro h c hc
      have hmem := List.mem_map_of_mem (f := Call.name) hc
      rw [← hnames] at hmem
      obtain ⟨p, hp, he⟩ := List.mem_map.mp hmem
      rw [← he]
      exact h p hp
  rw [hframed, hsafe]
  exact hiff

/-- **Exact framing of a query.** For every sequence of calls with texts shorter
than `2 ^ 31`: that the pairs are recovered exactly when no name contains `&` or
`=` holds if and only if no text has `2 ^ 31 - 1` bytes, or a name does contain
a delimiter. -/
theorem framed_iff (calls : List Call) (hne : calls ≠ []) (hs : ∀ c ∈ calls, c.Small) :
    (Framed calls ↔ SafeNames calls) ↔ (∀ c ∈ calls, c.Fits) ∨ ¬ SafeNames calls := by
  by_cases hf : ∀ c ∈ calls, c.Fits
  · constructor
    · intro _
      exact Or.inl hf
    · intro _
      exact framed_of_fits hne hs hf
  · have hnot : ¬ Framed calls := by
      intro h
      obtain ⟨u, pairs, hu, -⟩ := h
      push Not at hf
      rw [addAll, foldlM_run_none hf] at hu
      cases hu
    constructor
    · intro h
      exact Or.inr fun hsafe => hnot (h.mpr hsafe)
    · intro h
      rcases h with h | h
      · exact absurd h hf
      · exact ⟨fun hfr => absurd hfr hnot, fun hsafe => absurd hsafe h⟩

/-- `add("k", v)` with the longest text an `int` can measure. -/
def longest : Call where
  name := ascii "k"
  value := .str ⟨List.replicate 2147483647 0x61, by
    intro b hb
    rw [(List.mem_replicate.mp hb).2]
    decide⟩

/-- Its value cannot be constructed, so there is no query. -/
theorem longest_not_framed :
    ¬ ∀ calls : List Call, calls ≠ [] → (∀ c ∈ calls, c.Small) →
      (Framed calls ↔ SafeNames calls) := by
  intro h
  have hlen : ∀ v, longest.value = .str v → v.bytes.length = 2147483647 := by
    intro v hv
    cases hv
    exact List.length_replicate
  have hsmall : ∀ c ∈ [longest], c.Small := by
    intro c hc v hv
    cases List.mem_singleton.mp hc
    rw [hlen v hv]
    omega
  have hsafe : SafeNames [longest] := by
    intro c hc
    cases List.mem_singleton.mp hc
    decide
  obtain ⟨u, pairs, hu, -⟩ := (h [longest] (by simp) hsmall).mpr hsafe
  rw [addAll, foldlM_run_none ⟨longest, List.mem_singleton.mpr rfl,
    fun hf => hf _ rfl (hlen _ rfl)⟩] at hu
  cases hu

theorem framed_iff_two :
    (Framed [⟨ascii "a", .str ⟨ascii "1&2", by decide⟩⟩, ⟨ascii "b", .int (-5)⟩] ↔
        SafeNames [⟨ascii "a", .str ⟨ascii "1&2", by decide⟩⟩, ⟨ascii "b", .int (-5)⟩]) ↔
      (∀ c ∈ [⟨ascii "a", .str ⟨ascii "1&2", by decide⟩⟩, ⟨ascii "b", .int (-5)⟩], Call.Fits c) ∨
        ¬ SafeNames [⟨ascii "a", .str ⟨ascii "1&2", by decide⟩⟩, ⟨ascii "b", .int (-5)⟩] := by
  refine framed_iff _ (by simp) fun c hc v hv => ?_
  rcases List.mem_cons.mp hc with rfl | hc
  · cases hv
    decide
  · cases List.mem_singleton.mp hc
    cases hv

end CommonCpp.Http
