import CommonCpp.Http.Client
import CommonCpp.Lib.Decimal

/-!
# The `Content-Length` of a request

Both `POST` calls print the length of the body with `%d`, which takes the low 32
bits of its argument for a signed number. `draft_sized` follows the text through
the calls of `set` into the request, and `decimal_low_iff` says for which lengths
it is the right one.
-/

namespace CommonCpp.Http

open CommonCpp.Lib CommonCpp.Text

/-- The header says how long the body is. -/
def Request.Sized (req : Request) : Prop :=
  req.fields.lookup .content_length = some (Decimal.text req.body.length)

/-- The few visible characters of an `int` are stored as they are. -/
def Beast.KeepsNumbers (beast : Beast) : Prop := ∀ n, beast.stored (decimal n) = some (decimal n)

/-! ## The text of a length -/

theorem decimal_of_nonneg {n : Int32} (h : 0 ≤ n.toInt) :
    decimal n = Decimal.text n.toInt.toNat := by
  rw [← Decimal.ascii_toString, decimal, Int.toString_eq_repr, Int.repr_eq_if, if_pos h]
  rfl

theorem mem_decimal_of_neg {n : Int32} (h : n.toInt < 0) : 0x2D ∈ decimal n := by
  rw [decimal, Int.toString_eq_repr, Int.repr_eq_if, if_neg (by omega), ascii,
    String.toList_append, List.map_append]
  exact List.mem_append_left _ (List.mem_singleton_self _)

/-- `%d` prints a length if and only if that is an `int`. -/
theorem decimal_low_iff (n : Nat) :
    decimal (UInt32.ofNat n).toInt32 = Decimal.text n ↔ n < 2147483648 := by
  have hint : (UInt32.ofNat n).toInt32.toInt = int32 n := rfl
  constructor
  · intro h
    by_cases hneg : (UInt32.ofNat n).toInt32.toInt < 0
    · -- a minus sign is no digit
      have hminus := mem_decimal_of_neg hneg
      rw [h] at hminus
      exact absurd (Decimal.isDigit_of_mem_text hminus) (by decide)
    · rw [decimal_of_nonneg (by omega)] at h
      have hlow := Decimal.text_injective h
      have hlt := (UInt32.ofNat n).toInt32.toInt_lt
      omega
  · intro h
    have hlow : (UInt32.ofNat n).toInt32.toInt = n := hint.trans (int32_of_lt h)
    rw [decimal_of_nonneg (by omega), hlow]
    rfl

/-! ## Into the request -/

theorem lookup_filter {f field : Field} (h : f ≠ field) (fields : List (Field × Bytes)) :
    (fields.filter fun x => x.1 ≠ field).lookup f = fields.lookup f := by
  induction fields with
  | nil => rfl
  | cons x fields ih =>
    by_cases hx : x.1 = field
    · have hne : (f == x.1) = false := beq_eq_false_iff_ne.mpr fun he => h (he.trans hx)
      rw [List.filter_cons_of_neg (by simpa using hx), ih, List.lookup_cons, hne]
    · rw [List.filter_cons_of_pos (by simpa using hx), List.lookup_cons, List.lookup_cons, ih]

/-- After `req.set(field, value)` the field has that value, and no other has changed. -/
theorem lookup_set {beast : Beast} {req req' : Request} {field : Field} {value : Bytes}
    (h : req.set beast field value = some req') :
    req'.fields.lookup field = beast.stored value ∧
      ∀ f, f ≠ field → req'.fields.lookup f = req.fields.lookup f := by
  obtain ⟨v, hv, rfl⟩ := Option.map_eq_some_iff.mp h
  dsimp only
  constructor
  · have hnone : (req.fields.filter fun x => x.1 ≠ field).lookup field = none := by
      rw [List.lookup_eq_none_iff]
      intro x hx
      exact bne_iff_ne.mpr (of_decide_eq_true (List.mem_filter.mp hx).2).symm
    rw [List.lookup_append, hnone, Option.none_or, List.lookup_cons_self, hv]
  · intro f hf
    have hnone : [(field, v)].lookup f = none := by
      rw [List.lookup_cons, beq_eq_false_iff_ne.mpr hf]
      rfl
    rw [List.lookup_append, hnone, Option.or_none, lookup_filter hf]

/-- Other fields are left alone. -/
theorem lookup_setAll {beast : Beast} {f : Field} {fields : List (Field × Option Bytes)}
    (h : ∀ x ∈ fields, x.1 ≠ f) {req req' : Request} (hset : req.setAll beast fields = some req') :
    req'.fields.lookup f = req.fields.lookup f := by
  induction fields generalizing req with
  | nil =>
    cases hset
    rfl
  | cons x fields ih =>
    rw [List.forall_mem_cons] at h
    obtain ⟨req₁, hone, hrest⟩ := Option.bind_eq_some_iff.mp hset
    obtain ⟨value, -, hstored⟩ := Option.bind_eq_some_iff.mp hone
    rw [ih h.2 hrest, (lookup_set hstored).2 f h.1.symm]

/-- What is set last stays. -/
theorem lookup_setAll_append {beast : Beast} {f : Field} {text : Option Bytes}
    {front back : List (Field × Option Bytes)} (hback : ∀ x ∈ back, x.1 ≠ f)
    {req req' : Request} (hset : req.setAll beast (front ++ (f, text) :: back) = some req') :
    req'.fields.lookup f = text.bind beast.stored := by
  unfold Request.setAll at hset
  rw [List.foldlM_append] at hset
  obtain ⟨req₁, -, hset⟩ := Option.bind_eq_some_iff.mp hset
  obtain ⟨req₂, hone, hrest⟩ := Option.bind_eq_some_iff.mp hset
  obtain ⟨value, htext, hstored⟩ := Option.bind_eq_some_iff.mp hone
  have htext : text = some value := htext
  rw [lookup_setAll hback hrest, (lookup_set hstored).1, htext, Option.bind_some]

/-- A draft that sets the length of its own body. -/
theorem draft_sized {beast : Beast} (hkeeps : beast.KeepsNumbers) {d : Draft} {req : Request}
    {front back : List (Field × Option Bytes)}
    (hd : d.fields = front ++ (.content_length, sizeText d.body.length) :: back)
    (hback : ∀ x ∈ back, x.1 ≠ .content_length) (hreq : d.request beast = some req) :
    req.Sized ↔ d.body.length < 2147483648 := by
  obtain ⟨req₁, hset, rfl⟩ := Option.map_eq_some_iff.mp hreq
  rw [hd] at hset
  have hlookup := lookup_setAll_append hback hset
  rw [sizeText, stringFormat_int, Option.bind_some, hkeeps] at hlookup
  show req₁.fields.lookup .content_length = _ ↔ _
  rw [hlookup, Option.some.injEq]
  exact decimal_low_iff d.body.length

/-! ## The two calls -/

variable {beast : Beast}

theorem post_sized (hkeeps : beast.KeepsNumbers) {s : Client} {target parameters token : Bytes}
    {req : Request} (h : (Method.POST target parameters token).request beast s = some req) :
    req.Sized ↔ parameters.length < 2147483648 := by
  have hfields : (s.POST target parameters token).fields
      = (s.POST target parameters token).fields.take 4 ++
        (.content_length, sizeText parameters.length) :: [(.authorization, bearer token)] := rfl
  exact draft_sized hkeeps hfields (by simp) h

theorem postBlocks_sized (hkeeps : beast.KeepsNumbers) {s : Client} {data : List DataBlock}
    {req : Request} (h : (Method.POSTBlocks data).request beast s = some req) :
    req.Sized ↔ (bodyOf (data.map DataBlock.pair)).length < 2147483648 := by
  obtain ⟨d, hd, hreq⟩ := Option.bind_eq_some_iff.mp h
  have hdraft : d.body = bodyOf (data.map DataBlock.pair) ∧ d.fields = d.fields.take 4 ++
      (.content_length, sizeText d.body.length) :: [(.authorization, bearer s.token)] := by
    obtain ⟨body, hbody, rfl⟩ := Option.map_eq_some_iff.mp hd
    rw [multipart_eq, Option.ite_none_right_eq_some, Option.some.injEq] at hbody
    exact ⟨hbody.2.symm, rfl⟩
  rw [← hdraft.1]
  exact draft_sized hkeeps hdraft.2 (by simp) hreq

/-- **When `Content-Length` is right.** Whatever the constructor was given: on every
request that a `POST` puts together, the header is the decimal text of the length of the body
if and only if that is below `2 ^ 31` bytes. -/
theorem contentLength_iff (beast : Beast) (hkeeps : beast.KeepsNumbers) (s : Client) :
    (∀ data req, (Method.POSTBlocks data).request beast s = some req →
        (req.Sized ↔ (bodyOf (data.map DataBlock.pair)).length < 2147483648)) ∧
      ∀ target parameters token req,
        (Method.POST target parameters token).request beast s = some req →
          (req.Sized ↔ parameters.length < 2147483648) :=
  ⟨fun _ _ h => postBlocks_sized hkeeps h, fun _ _ _ _ h => post_sized hkeeps h⟩

/-- A client whose requests go nowhere. -/
def localClient : Client := .named (ascii "localhost") (ascii "443") (ascii "/") []

/-- A text and an `int`. -/
def twoFields : List DataBlock :=
  [⟨⟨ascii "a", by decide⟩, .text ⟨ascii "b", by decide⟩ (by decide)⟩,
    ⟨⟨ascii "n", by decide⟩, .integer 7⟩]

theorem bodyOf_twoFields :
    (bodyOf (twoFields.map DataBlock.pair)).length < 2147483648 := by decide +kernel

/-- A body with two blocks, and `"a=b"`. -/
theorem contentLength_short :
    (∃ req, (Method.POSTBlocks twoFields).request plainBeast localClient = some req ∧ req.Sized) ∧
      ∃ req, (Method.POST (ascii "/") (ascii "a=b") []).request plainBeast localClient = some req ∧
        req.Sized := by
  have hiff := contentLength_iff plainBeast (fun _ => rfl) localClient
  obtain ⟨req, hreq⟩ := Option.isSome_iff_exists.mp (by decide +kernel :
    ((Method.POSTBlocks twoFields).request plainBeast localClient).isSome = true)
  obtain ⟨req', hreq'⟩ := Option.isSome_iff_exists.mp
    (by decide +kernel : ((Method.POST (ascii "/") (ascii "a=b") []).request plainBeast
      localClient).isSome = true)
  exact ⟨⟨req, hreq, (hiff.1 _ req hreq).mpr bodyOf_twoFields⟩,
    ⟨req', hreq', (hiff.2 _ _ _ req' hreq').mpr (by decide)⟩⟩

/-- A `POST` of that client with an empty token puts a request together. -/
theorem post_request (parameters : Bytes) :
    ((Method.POST (ascii "/") parameters []).request plainBeast localClient).isSome = true := by
  rw [request_isSome]
  refine ⟨_, rfl, ?_⟩
  have hsize : Settable plainBeast (sizeText parameters.length) :=
    ⟨_, stringFormat_int _, rfl⟩
  have hbearer : Settable plainBeast (bearer []) := ⟨ascii "Bearer ", by decide +kernel, rfl⟩
  simp only [Client.POST, List.forall_mem_cons]
  exact ⟨⟨_, rfl, rfl⟩, ⟨_, rfl, rfl⟩, ⟨_, rfl, rfl⟩, ⟨_, rfl, rfl⟩, hsize, hbearer,
    List.forall_mem_nil _⟩

/-- `2 ^ 31` bytes are announced as -2147483648. -/
theorem contentLength_negative :
    ¬ ∀ beast : Beast, beast.KeepsNumbers → ∀ s : Client,
      (∀ data req, (Method.POSTBlocks data).request beast s = some req → req.Sized) ∧
        ∀ target parameters token req,
          (Method.POST target parameters token).request beast s = some req → req.Sized := by
  intro h
  obtain ⟨req, hreq⟩ :=
    Option.isSome_iff_exists.mp (post_request (List.replicate 2147483648 0x61))
  have hsized := (h plainBeast (fun _ => rfl) localClient).2 _ _ _ req hreq
  rw [post_sized (fun _ => rfl) hreq, List.length_replicate] at hsized
  omega

end CommonCpp.Http
