import CommonCpp.Lib.Exit

/-!
# `common::string_format` and `common::strcpy`

The two helpers through which the library copies and builds C strings, with
their `int` arithmetic. `string_format` measures with `snprintf`, whose result
is an `int`, and `strcpy` allocates `len + 1` bytes with `int len`.
-/

namespace CommonCpp.Text

open CommonCpp.Lib

/-- An argument of a `printf` call. -/
inductive Arg where
  | str (s : CString)
  | int (n : Int32)

/-- `%d` -/
def decimal (n : Int32) : Bytes := ascii (toString n.toInt)

/-- `%x`: the value as an `unsigned int`, in lower case, not padded. -/
def hex (n : Int32) : Bytes := (Nat.toDigits 16 n.toUInt32.toNat).map fun c => UInt8.ofNat c.toNat

/-- The text of one conversion and the arguments left for the others; `none`
where the argument does not fit the conversion. -/
def conversion (c : UInt8) : List Arg → Option (Bytes × List Arg)
  | args@(.str s :: rest) =>
    if c = 0x25 then some ([c], args)
    else if c = 0x73 then some (s.bytes, rest)
    else none
  | args@(.int n :: rest) =>
    if c = 0x25 then some ([c], args)
    else if c = 0x64 then some (decimal n, rest)
    else if c = 0x78 then some (hex n, rest)
    else none
  | [] => if c = 0x25 then some ([c], []) else none

/-- What `snprintf` formats, for the conversions the library uses: `%%`, `%s`,
`%d` and `%x`. -/
def snprintf : Bytes → List Arg → Option Bytes
  | [], _ => some []
  | c :: format, args =>
    if c = 0x25 then
      match format with
      | [] => none
      | k :: format =>
        (conversion k args).bind fun (text, args) => (snprintf format args).map fun t => text ++ t
    else (snprintf format args).map fun t => c :: t

/-- `string_format`. `snprintf` returns -1 for a text longer than `INT_MAX`,
which the guard turns into an exception; for one of exactly `INT_MAX` bytes the
`+ 1` overflows. -/
def stringFormat (format : Bytes) (args : List Arg) : Option Bytes :=
  (snprintf format args).bind fun text => if text.length < INT_MAX then some text else none

/-- How a call of `string_format` ends that yields no text. -/
def formatFailure {α : Type} (format : Bytes) (args : List Arg) : Exit α :=
  match snprintf format args with
  | none => .undefined .format
  | some text => if text.length = INT_MAX then .undefined .overflow else .systemError

/-- `strcpy(source)`, with the default `len`. The length is narrowed to an
`int`, and `new char[len + 1]` overflows for the largest. A length that turned
negative allocates nothing, or too little. -/
def strcpy (source : CString) : Option CString :=
  let len := int32 (strlen source.bytes)
  if 0 ≤ len ∧ len < INT_MAX then some (.ofBytes (source.bytes.take len.toNat)) else none

/-! ## A format piece by piece -/

/-- Text in front of the next conversion is copied. -/
theorem snprintf_append {text : Bytes} (h : 0x25 ∉ text) (format : Bytes) (args : List Arg) :
    snprintf (text ++ format) args = (snprintf format args).map fun t => text ++ t := by
  induction text with
  | nil =>
    rw [List.nil_append]
    cases snprintf format args <;> rfl
  | cons c text ih =>
    have hc : c ≠ 0x25 := fun he => h (by rw [he]; exact List.mem_cons_self ..)
    rw [List.cons_append, snprintf.eq_def]
    dsimp only
    rw [if_neg hc, ih fun hm => h (List.mem_cons_of_mem _ hm), Option.map_map]
    rfl

/-- `%s` -/
theorem snprintf_str (s : CString) (format : Bytes) (args : List Arg) :
    snprintf (0x25 :: 0x73 :: format) (.str s :: args)
      = (snprintf format args).map fun t => s.bytes ++ t := by
  rw [snprintf.eq_def]
  rfl

theorem snprintf_text {text : Bytes} (h : 0x25 ∉ text) (args : List Arg) :
    snprintf text args = some text := by
  have happ := snprintf_append h [] args
  rw [List.append_nil] at happ
  rw [happ, snprintf, Option.map_some, List.append_nil]

end CommonCpp.Text
