import CommonCpp.Http.Value
import CommonCpp.Lib.Pairs
import CommonCpp.Lib.Search

/-!
# The body of `http_client::POST(std::vector<data_block>)`

Every block is printed between fixed delimiters, with neither its name nor its
value escaped. `decode` is the reader such a body is meant for. A name ends at
its first quote and a value in front of the first `\n--boundary`, which starts
with the only newline it has and so cannot begin inside a value and end behind
it. Hence the exact condition under which a body is read back: `decodable_iff`.
-/

namespace CommonCpp.Http

open CommonCpp.Lib CommonCpp.Text

/-- `const char *boundary = "boundary"` -/
def boundary : CString := ⟨ascii "boundary", by decide⟩

/-- `data_block` -/
structure DataBlock where
  name : CString
  v : Value

/-- What `block.v.str()` points to. -/
def Value.shown (v : Value) : CString :=
  v.str.get (by
    obtain ⟨t, ht, -⟩ := exists_str v
    rw [ht]
    rfl)

theorem str_eq (v : Value) : v.str = some v.shown := (Option.some_get _).symm

/-- The text the loop appends for a block. -/
def DataBlock.part (block : DataBlock) : Option Bytes :=
  block.v.copy.bind fun v => v.str.bind fun text =>
    stringFormat (ascii "--%s\nContent-Disposition:form-data;name=\"%s\"\n\n%s\n")
      [.str boundary, .str block.name, .str text]

/-- The `for (auto block : data)` loop, `multipart` being what has been built. -/
def appendParts : List DataBlock → Bytes → Option Bytes
  | [], multipart => some multipart
  | block :: data, multipart => block.part.bind fun part => appendParts data (multipart ++ part)

/-- The body of the request. -/
def multipart (data : List DataBlock) : Option Bytes :=
  (appendParts data []).bind fun body =>
    (stringFormat (ascii "--%s--") [.str boundary]).map fun close => body ++ close

/-! ## Reading a body back -/

/-- `--boundary` -/
def opening : Bytes := ascii "--boundary"

/-- The rest of a block's first line, and the start of its header. -/
def header : Bytes := ascii "\nContent-Disposition:form-data;name=\""

/-- The end of a value: the newline behind it, and the next `--boundary`. -/
def closing : Bytes := 0x0A :: opening

/-- One block behind its `--boundary`: the pair, and the text from the next
`--boundary` on. -/
def decodeBlock (s : Bytes) : Option ((Bytes × Bytes) × Bytes) :=
  (Search.expect header s).bind fun s =>
    (Pairs.cutFirst 0x22 s).bind fun (name, s) =>
      (Search.expect (ascii "\n\n") s).bind fun s =>
        (Search.breakAt closing s).map fun (value, s) => ((name, value), s.drop 1)

/-- The decoder, for a body of at most `n` blocks. -/
def decodeBlocks : Nat → Bytes → Option (List (Bytes × Bytes))
  | 0, _ => none
  | n + 1, s =>
    (Search.expect opening s).bind fun s =>
      match Search.expect (ascii "--") s with
      | some _ => some []
      | none =>
        (decodeBlock s).bind fun (pair, s) => (decodeBlocks n s).map fun pairs => pair :: pairs

/-- The decoder. A body is longer than the number of its blocks. -/
def decode (body : Bytes) : Option (List (Bytes × Bytes)) := decodeBlocks body.length body

/-- The pair a block stands for. -/
def DataBlock.pair (block : DataBlock) : Bytes × Bytes := (block.name.bytes, block.v.shown.bytes)

/-- No quote in the name, and no newline in front of `--boundary` in the value. -/
def SafePair (p : Bytes × Bytes) : Prop := 0x22 ∉ p.1 ∧ ¬ closing <:+: p.2

/-- What a block is printed as. -/
def printed (p : Bytes × Bytes) : Bytes :=
  opening ++ (header ++ (p.1 ++ ascii "\"\n\n" ++ (p.2 ++ ascii "\n")))

/-- The printed blocks and the closing boundary. -/
def bodyOf (pairs : List (Bytes × Bytes)) : Bytes :=
  pairs.flatMap printed ++ (opening ++ ascii "--")

/-! ## What the loop builds -/

theorem part_eq (block : DataBlock) :
    block.part = if (printed block.pair).length < INT_MAX then some (printed block.pair)
      else none := by
  have hformat : ascii "--%s\nContent-Disposition:form-data;name=\"%s\"\n\n%s\n"
      = ascii "--" ++ 0x25 :: 0x73 :: (header ++ 0x25 :: 0x73 ::
          (ascii "\"\n\n" ++ 0x25 :: 0x73 :: ascii "\n")) := by decide +kernel
  have hprint : snprintf (ascii "--%s\nContent-Disposition:form-data;name=\"%s\"\n\n%s\n")
      [.str boundary, .str block.name, .str block.v.shown] = some (printed block.pair) := by
    rw [hformat, snprintf_append (by decide), snprintf_str, snprintf_append (by decide),
      snprintf_str, snprintf_append (by decide), snprintf_str, snprintf_text (by decide)]
    simp only [Option.map_some, printed, DataBlock.pair, List.append_assoc]
    rfl
  rw [DataBlock.part, copy_eq, Option.bind_some, str_eq, Option.bind_some, stringFormat, hprint,
    Option.bind_some]

theorem appendParts_eq (data : List DataBlock) (built : Bytes) :
    appendParts data built
      = if ∀ block ∈ data, (printed block.pair).length < INT_MAX
        then some (built ++ (data.map DataBlock.pair).flatMap printed) else none := by
  induction data generalizing built with
  | nil => simp [appendParts]
  | cons block data ih =>
    rw [appendParts, part_eq]
    by_cases hfits : (printed block.pair).length < INT_MAX
    · rw [if_pos hfits, Option.bind_some, ih]
      simp only [List.forall_mem_cons, hfits, true_and, List.map_cons, List.flatMap_cons,
        List.append_assoc]
    · rw [if_neg hfits, Option.bind_none, if_neg]
      exact fun hall => hfits (hall block (List.mem_cons_self ..))

/-- The request has a body exactly if every block can be printed. -/
theorem multipart_eq (data : List DataBlock) :
    multipart data = if ∀ block ∈ data, (printed block.pair).length < INT_MAX
      then some (bodyOf (data.map DataBlock.pair)) else none := by
  have hclose : stringFormat (ascii "--%s--") [.str boundary] = some (opening ++ ascii "--") := by
    decide +kernel
  rw [multipart, appendParts_eq, hclose]
  split <;> rfl

/-! ## One block -/

theorem bodyOf_cons (p : Bytes × Bytes) (pairs : List (Bytes × Bytes)) :
    bodyOf (p :: pairs) = printed p ++ bodyOf pairs := by
  rw [bodyOf, List.flatMap_cons, List.append_assoc]
  rfl

/-- A body starts with a boundary. -/
theorem bodyOf_opening (pairs : List (Bytes × Bytes)) : ∃ r, bodyOf pairs = opening ++ r := by
  cases pairs with
  | nil => exact ⟨ascii "--", rfl⟩
  | cons p pairs =>
    rw [bodyOf_cons, printed, List.append_assoc]
    exact ⟨_, rfl⟩

theorem newline_not_mem_opening : (0x0A : UInt8) ∉ opening := by decide

/-- A safe block is read back, up to the next boundary. -/
theorem decodeBlock_of_safe {p : Bytes × Bytes} (h : SafePair p) (pairs : List (Bytes × Bytes)) :
    decodeBlock (header ++ (p.1 ++ ascii "\"\n\n" ++ (p.2 ++ ascii "\n")) ++ bodyOf pairs)
      = some (p, bodyOf pairs) := by
  obtain ⟨name, value⟩ := p
  have hname : 0x22 ∉ name := h.1
  have hvalue : ¬ closing <:+: value := h.2
  obtain ⟨r, hr⟩ := bodyOf_opening pairs
  have htext : header ++ (name ++ ascii "\"\n\n" ++ (value ++ ascii "\n")) ++ bodyOf pairs
      = header ++ Pairs.segment 0x22 (name, ascii "\n\n" ++ (value ++ (closing ++ r))) := by
    rw [hr]
    simp [Pairs.segment, closing, ascii]
  rw [htext, decodeBlock, Search.expect_append, Option.bind_some,
    Pairs.cutFirst_segment (p := (name, _)) hname,
    Option.bind_some]
  dsimp only
  rw [Search.expect_append, Option.bind_some, closing,
    Search.breakAt_append newline_not_mem_opening hvalue, hr]
  rfl

/-- Whatever is read as a block is a safe one. -/
theorem safe_of_decodeBlock {s rest : Bytes} {p : Bytes × Bytes}
    (h : decodeBlock s = some (p, rest)) : SafePair p := by
  unfold decodeBlock at h
  obtain ⟨s₁, -, h⟩ := Option.bind_eq_some_iff.mp h
  obtain ⟨⟨name, s₂⟩, hname, h⟩ := Option.bind_eq_some_iff.mp h
  obtain ⟨s₃, -, h⟩ := Option.bind_eq_some_iff.mp h
  obtain ⟨⟨value, s₄⟩, hvalue, h⟩ := Option.map_eq_some_iff.mp h
  cases h
  have hquote : 0x22 ∉ name := Pairs.not_mem_of_cutFirst hname
  exact ⟨hquote, Search.not_infix_of_breakAt (by simp [closing]) hvalue⟩

/-! ## All blocks -/

/-- One round of the decoder on a body with a block in front. -/
theorem decodeBlocks_cons (n : Nat) (p : Bytes × Bytes) (pairs : List (Bytes × Bytes)) :
    decodeBlocks (n + 1) (bodyOf (p :: pairs))
      = (decodeBlock (header ++ (p.1 ++ ascii "\"\n\n" ++ (p.2 ++ ascii "\n")) ++ bodyOf pairs)).bind
          fun (q, s) => (decodeBlocks n s).map fun qs => q :: qs := by
  rw [bodyOf_cons, printed, List.append_assoc, decodeBlocks, Search.expect_append,
    Option.bind_some]
  rfl

theorem decodeBlocks_iff {n : Nat} (pairs : List (Bytes × Bytes)) (hn : pairs.length < n) :
    decodeBlocks n (bodyOf pairs) = some pairs ↔ ∀ p ∈ pairs, SafePair p := by
  induction pairs generalizing n with
  | nil =>
    obtain ⟨m, rfl⟩ : ∃ m, n = m + 1 := ⟨n - 1, by omega⟩
    have hstop : decodeBlocks (m + 1) (bodyOf []) = some [] := by
      rw [bodyOf, List.flatMap_nil, List.nil_append, decodeBlocks, Search.expect_append]
      rfl
    exact ⟨fun _ => List.forall_mem_nil _, fun _ => hstop⟩
  | cons p pairs ih =>
    obtain ⟨m, rfl⟩ : ∃ m, n = m + 1 := ⟨n - 1, by omega⟩
    have hm : pairs.length < m := by
      rw [List.length_cons] at hn
      omega
    rw [decodeBlocks_cons, List.forall_mem_cons]
    constructor
    · intro h
      obtain ⟨⟨q, rest⟩, hq, h⟩ := Option.bind_eq_some_iff.mp h
      obtain ⟨qs, hqs, he⟩ := Option.map_eq_some_iff.mp h
      obtain ⟨rfl, rfl⟩ := List.cons.inj he
      have hsafe := safe_of_decodeBlock hq
      -- a safe first block leaves the body of the others
      rw [decodeBlock_of_safe hsafe, Option.some.injEq] at hq
      cases hq
      exact ⟨hsafe, (ih hm).mp hqs⟩
    · intro h
      rw [decodeBlock_of_safe h.1, Option.bind_some]
      dsimp only
      rw [(ih hm).mpr h.2]
      rfl

/-- There is room for one round per block and one more. -/
theorem length_lt_bodyOf (pairs : List (Bytes × Bytes)) : pairs.length < (bodyOf pairs).length := by
  induction pairs with
  | nil => decide
  | cons p pairs ih =>
    have hone : 0 < (printed p).length := by simp [printed, opening, ascii]
    rw [bodyOf_cons, List.length_append, List.length_cons]
    omega

/-- For every list of blocks: the decoder gives back exactly their names and
values from the body that was built if and only if no name contains a quote and
no value a newline in front of `--boundary`. There is no body only if some block
has `INT_MAX` bytes or more when printed. -/
theorem decodable_iff (data : List DataBlock) :
    match multipart data with
    | some body => decode body = some (data.map DataBlock.pair) ↔ ∀ block ∈ data, SafePair block.pair
    | none => ∃ block ∈ data, INT_MAX ≤ (printed block.pair).length := by
  rw [multipart_eq]
  by_cases hfits : ∀ block ∈ data, (printed block.pair).length < INT_MAX
  · rw [if_pos hfits]
    dsimp only
    rw [decode, decodeBlocks_iff _ (length_lt_bodyOf _), List.forall_mem_map]
  · rw [if_neg hfits]
    dsimp only
    push Not at hfits
    exact hfits

/-! ## What was read was there -/

/-- What is read as a block is one, with the next boundary behind it. -/
theorem eq_of_decodeBlock {s rest : Bytes} {p : Bytes × Bytes}
    (h : decodeBlock s = some (p, rest)) :
    s = header ++ (p.1 ++ ascii "\"\n\n" ++ (p.2 ++ ascii "\n")) ++ rest := by
  unfold decodeBlock at h
  obtain ⟨s₁, hheader, h⟩ := Option.bind_eq_some_iff.mp h
  obtain ⟨⟨name, s₂⟩, hname, h⟩ := Option.bind_eq_some_iff.mp h
  obtain ⟨s₃, hlines, h⟩ := Option.bind_eq_some_iff.mp h
  obtain ⟨⟨value, s₄⟩, hvalue, h⟩ := Option.map_eq_some_iff.mp h
  cases h
  obtain ⟨r, hr⟩ := Search.prefix_of_breakAt hvalue
  rw [Search.append_of_expect hheader, Pairs.segment_of_cutFirst hname,
    Search.append_of_expect hlines, Search.append_of_breakAt hvalue, ← hr]
  simp [Pairs.segment, closing, ascii]

/-- The decoder skips nothing: what it reads starts with the body of what it
gives back. -/
theorem bodyOf_of_decodeBlocks {n : Nat} {s : Bytes} {pairs : List (Bytes × Bytes)}
    (h : decodeBlocks n s = some pairs) : bodyOf pairs <+: s := by
  induction n generalizing s pairs with
  | zero => cases h
  | succ n ih =>
    rw [decodeBlocks] at h
    obtain ⟨s₁, hopen, h⟩ := Option.bind_eq_some_iff.mp h
    rw [Search.append_of_expect hopen]
    cases hend : Search.expect (ascii "--") s₁ with
    | some s₂ =>
      rw [hend] at h
      cases h
      rw [Search.append_of_expect hend, ← List.append_assoc]
      exact List.prefix_append _ s₂
    | none =>
      rw [hend] at h
      obtain ⟨⟨p, rest⟩, hblock, h⟩ := Option.bind_eq_some_iff.mp h
      obtain ⟨ps, hps, rfl⟩ := Option.map_eq_some_iff.mp h
      rw [eq_of_decodeBlock hblock, bodyOf_cons, printed, List.append_assoc]
      exact (List.prefix_append_right_inj _).mpr ((List.prefix_append_right_inj _).mpr (ih hps))

/-! ## From the C strings -/

/-- `data_block{name, value(text)}` -/
def DataBlock.ofTexts (p : CString × CString) : Option DataBlock :=
  (Value.ofText p.2).map fun v => ⟨p.1, v⟩

/-- The body for a list of names and value texts. -/
def textsBody (texts : List (CString × CString)) : Option Bytes :=
  (texts.mapM DataBlock.ofTexts).bind multipart

/-- The list, as the decoder gives it back. -/
def pairsOf (texts : List (CString × CString)) : List (Bytes × Bytes) :=
  texts.map fun p => (p.1.bytes, p.2.bytes)

/-- The decoder gives the list back exactly if it is free of the delimiters. -/
def Decodable (texts : List (CString × CString)) : Prop :=
  (∃ body, textsBody texts = some body ∧ decode body = some (pairsOf texts))
    ↔ ∀ p ∈ pairsOf texts, SafePair p

/-- The name of a pair, and a beginning of its value. -/
def CutFrom (q p : Bytes × Bytes) : Prop := q.1 = p.1 ∧ q.2 <+: p.2

theorem shown_text {s : CString} {fits : s.bytes.length < INT_MAX} :
    (Value.text s fits).shown = s := Option.some.inj (str_eq (.text s fits)).symm

/-- A block has its name whole and of its value what `strcpy` copied. -/
theorem cutFrom_of_ofTexts {p : CString × CString} {block : DataBlock}
    (h : DataBlock.ofTexts p = some block) : CutFrom block.pair (p.1.bytes, p.2.bytes) := by
  obtain ⟨v, hv, rfl⟩ := Option.map_eq_some_iff.mp h
  obtain ⟨s, fits, rfl, hs⟩ := text_of_ofText hv
  refine ⟨rfl, ?_⟩
  show (Value.text s fits).shown.bytes <+: p.2.bytes
  rw [shown_text]
  exact strcpy_prefix hs

/-- A text that is printed in fewer than `INT_MAX` bytes is copied whole. -/
theorem ofTexts_of_lt {p : CString × CString}
    (h : (printed (p.1.bytes, p.2.bytes)).length < INT_MAX) :
    ∃ block, DataBlock.ofTexts p = some block ∧ block.pair = (p.1.bytes, p.2.bytes) := by
  have hfits : p.2.bytes.length < INT_MAX := by
    simp only [printed, List.length_append] at h
    omega
  refine ⟨⟨p.1, .text p.2 hfits⟩, ?_, ?_⟩
  · rw [DataBlock.ofTexts, ofText_of_lt hfits]
    rfl
  · rw [DataBlock.pair, shown_text]

theorem length_printed_pair (p : Bytes × Bytes) :
    (printed p).length = 51 + p.1.length + p.2.length := by
  have hopen : opening.length = 10 := by decide
  have hheader : header.length = 37 := by decide
  have hlines : (ascii "\"\n\n").length = 3 := by decide
  have hend : (ascii "\n").length = 1 := by decide
  simp only [printed, List.length_append, hopen, hheader, hlines, hend]
  omega

/-- Values that were cut make the body shorter. -/
theorem eq_of_cutFrom {qs ps : List (Bytes × Bytes)} (h : List.Forall₂ CutFrom qs ps) :
    (bodyOf qs).length ≤ (bodyOf ps).length
      ∧ ((bodyOf ps).length ≤ (bodyOf qs).length → qs = ps) := by
  induction h with
  | nil => exact ⟨Nat.le_refl _, fun _ => rfl⟩
  | @cons q p qs ps hq _ ih =>
    obtain ⟨hle, heq⟩ := ih
    have hname : q.1.length = p.1.length := congrArg List.length hq.1
    have hvalue := hq.2.length_le
    rw [bodyOf_cons, bodyOf_cons, List.length_append, List.length_append, length_printed_pair,
      length_printed_pair]
    refine ⟨by omega, fun hlen => ?_⟩
    have hsame : q.2 = p.2 := hq.2.eq_of_length (by omega)
    rw [heq (by omega), Prod.ext hq.1 hsame]

/-- The texts come back from exactly the lists that are free of the delimiters
and printed whole. -/
theorem readBack_iff (texts : List (CString × CString)) :
    (∃ body, textsBody texts = some body ∧ decode body = some (pairsOf texts))
      ↔ (∀ p ∈ pairsOf texts, SafePair p)
        ∧ ∀ p ∈ pairsOf texts, (printed p).length < INT_MAX := by
  constructor
  · rintro ⟨body, hbody, hdecode⟩
    obtain ⟨data, hdata, hbody⟩ := Option.bind_eq_some_iff.mp hbody
    have hcut : List.Forall₂ CutFrom (data.map DataBlock.pair) (pairsOf texts) := by
      rw [List.forall₂_map_left_iff, pairsOf, List.forall₂_map_right_iff]
      exact ((Pairs.mapM_eq_some_iff.mp hdata).imp fun _ _ h => cutFrom_of_ofTexts h).flip
    rw [multipart_eq] at hbody
    split at hbody
    · next hfits =>
      cases hbody
      -- the body is at least as long as the one of what was read, so nothing was cut
      have hlen := (bodyOf_of_decodeBlocks hdecode).length_le
      have hsame := (eq_of_cutFrom hcut).2 hlen
      rw [hsame, decode, decodeBlocks_iff _ (length_lt_bodyOf _)] at hdecode
      refine ⟨hdecode, ?_⟩
      rw [← hsame, List.forall_mem_map]
      exact hfits
    · cases hbody
  · rintro ⟨hsafe, hfits⟩
    obtain ⟨data, hdata, hpairs⟩ : ∃ data, texts.mapM DataBlock.ofTexts = some data
        ∧ data.map DataBlock.pair = pairsOf texts := by
      clear hsafe
      induction texts with
      | nil => exact ⟨[], rfl, rfl⟩
      | cons p texts ih =>
        obtain ⟨hp, hrest⟩ := List.forall_mem_cons.mp hfits
        obtain ⟨block, hblock, hpair⟩ := ofTexts_of_lt hp
        obtain ⟨data, hdata, hpairs⟩ := ih hrest
        refine ⟨block :: data, ?_, ?_⟩
        · rw [List.mapM_cons, hblock, hdata]
          rfl
        · rw [List.map_cons, hpair, hpairs]
          rfl
    refine ⟨bodyOf (pairsOf texts), ?_, ?_⟩
    · rw [textsBody, hdata, Option.bind_some, multipart_eq, hpairs, if_pos]
      intro block hblock
      exact hfits _ (hpairs ▸ List.mem_map_of_mem hblock)
    · rw [decode, decodeBlocks_iff _ (length_lt_bodyOf _)]
      exact hsafe

/-- **Exact decodability.** A list of names and value texts is decodable as it
should be if and only if it is not free of the delimiters, or every block has
fewer than `INT_MAX` bytes when printed. -/
theorem decodable_texts_iff (texts : List (CString × CString)) :
    Decodable texts ↔ ((∀ p ∈ pairsOf texts, SafePair p)
      → ∀ p ∈ pairsOf texts, (printed p).length < INT_MAX) := by
  rw [Decodable, readBack_iff]
  tauto

/-! ## A value whose length does not fit -/

/-- A block with a value of `INT_MAX` bytes or more is not read back. -/
theorem not_decodable_of_long {name text : CString} (hsafe : SafePair (name.bytes, text.bytes))
    (hlong : INT_MAX ≤ text.bytes.length) : ¬ Decodable [(name, text)] := by
  intro h
  have hone : ∀ p ∈ pairsOf [(name, text)], SafePair p := by
    intro p hp
    rw [List.mem_singleton.mp hp]
    exact hsafe
  have hfits := ((readBack_iff _).mp (h.mpr hone)).2 _ (List.mem_singleton_self _)
  rw [length_printed_pair] at hfits
  dsimp only at hfits
  omega

/-- Of a value whose narrowed length is 1 the body has the first byte, and that is
read back. -/
theorem decode_cut {name text : CString} {c : UInt8} {hc : NulFree [c]}
    (hcopy : strcpy text = some ⟨[c], hc⟩) (hsafe : SafePair (name.bytes, [c]))
    (hfits : (printed (name.bytes, [c])).length < INT_MAX) :
    (textsBody [(name, text)]).bind decode = some [(name.bytes, [c])] := by
  have hpair : (DataBlock.mk name (.text ⟨[c], hc⟩ (strcpy_fits hcopy))).pair
      = (name.bytes, [c]) := by rw [DataBlock.pair, shown_text]
  have hblock : DataBlock.ofTexts (name, text)
      = some ⟨name, .text ⟨[c], hc⟩ (strcpy_fits hcopy)⟩ := by
    rw [DataBlock.ofTexts, ofText_of_strcpy hcopy, Option.map_some]
  have hall : ∀ b ∈ [DataBlock.mk name (.text ⟨[c], hc⟩ (strcpy_fits hcopy))],
      (printed b.pair).length < INT_MAX := by
    intro b hb
    rw [List.mem_singleton.mp hb, hpair]
    exact hfits
  have hmap : [(name, text)].mapM DataBlock.ofTexts
      = some [⟨name, .text ⟨[c], hc⟩ (strcpy_fits hcopy)⟩] := by
    rw [List.mapM_cons, hblock]
    rfl
  rw [textsBody, hmap, Option.bind_some, multipart_eq, if_pos hall, Option.bind_some,
    List.map_singleton, hpair, decode, decodeBlocks_iff _ (length_lt_bodyOf _)]
  intro p hp
  rw [List.mem_singleton.mp hp]
  exact hsafe

/-- A value of 2^32 + 1 letters. -/
def longText : CString where
  bytes := List.replicate 4294967297 0x61
  nulFree := by
    intro b hb
    rw [List.eq_of_mem_replicate hb]
    decide

theorem length_longText : longText.bytes.length = 4294967297 := by
  rw [longText, List.length_replicate]

/-- The length is narrowed to 1. -/
theorem strcpy_longText : strcpy longText = some ⟨[0x61], by decide⟩ := by
  have hlen : int32 (strlen longText.bytes) = 1 := by
    rw [strlen_of_nulFree longText.nulFree, length_longText]
    decide
  have hone : longText.bytes.take 1 = [0x61] := by
    rw [longText, List.take_replicate]
    rfl
  unfold strcpy
  rw [hlen]
  dsimp only
  rw [if_pos (by decide +kernel), show (1 : Int).toNat = 1 from rfl, hone]
  rfl

/-- The name of the block that holds it. -/
def key : CString := ⟨ascii "k", by decide⟩

/-- No delimiter stands in the pair. -/
theorem safe_longText : SafePair (key.bytes, longText.bytes) := by
  refine ⟨by decide, fun hin => ?_⟩
  have hnewline : (0x0A : UInt8) ∈ List.replicate 4294967297 (0x61 : UInt8) :=
    hin.subset (List.mem_cons_self ..)
  exact absurd (List.eq_of_mem_replicate hnewline) (by decide)

/-- A body is built, and one letter of the value is read back from it. -/
theorem value_cut_short :
    (textsBody [(key, longText)]).bind decode = some [(ascii "k", ascii "a")]
      ∧ (∀ p ∈ pairsOf [(key, longText)], SafePair p) ∧ ¬ Decodable [(key, longText)] := by
  have hsafe : SafePair (key.bytes, [0x61]) := ⟨by decide, by decide⟩
  have hfits : (printed (key.bytes, [0x61])).length < INT_MAX := by
    rw [length_printed_pair]
    decide +kernel
  have hlong : INT_MAX ≤ longText.bytes.length := by
    rw [length_longText]
    decide +kernel
  refine ⟨decode_cut strcpy_longText hsafe hfits, ?_, not_decodable_of_long safe_longText hlong⟩
  intro p hp
  rw [List.mem_singleton.mp hp]
  exact safe_longText

end CommonCpp.Http
