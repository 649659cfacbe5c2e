import DynamicPartitions.Lib.Buffer
import DynamicPartitions.Parson.Acceptance

/-!
# The two passes of the serializer

`json_serialize_to_string` runs `json_serialize_to_buffer_r` with a NULL `buf` to learn the
size of the text, allocates that much and runs it again. The function never looks at the
size of its buffer: that it stays inside rests on both passes agreeing. In the first pass
numbers are printed into an array of the caller.
-/
namespace DynamicPartitions.Parson.Sizing

open DynamicPartitions.Lib.Table
open DynamicPartitions.Lib.Buffer
open DynamicPartitions.Parson.Value
open DynamicPartitions.Parson.Parser (nul)
open DynamicPartitions.Parson.Serializer
open DynamicPartitions.Parson.RoundTrip

/-! ## Strings and numbers -/

/-- `append_string`. -/
def appendString (string : CString) : Piece Char := .text string [nul]

/-- An `APPEND_STRING` under a condition. -/
def appendWhen (condition : Bool) (piece : Piece Char) : Piece Char :=
  if condition then piece else .nothing

/-- `append_indent`. -/
def appendIndentPiece : Nat → Piece Char
  | 0 => .nothing
  | level + 1 => (appendString [' ', ' ', ' ', ' ']).andThen (appendIndentPiece level)

/-- A case of the `switch` of `json_serialize_string`. The default writes the character
alone, with no zero behind it. -/
def escapePiece (c : Char) : Piece Char :=
  match escapeChar c with
  | [c] => .text [c] []
  | text => appendString text

def charsPiece : CString → Piece Char
  | [] => .nothing
  | c :: rest => (escapePiece c).andThen (charsPiece rest)

/-- `json_serialize_string`. -/
def stringPiece (string : CString) : Piece Char :=
  ((appendString ['"']).andThen (charsPiece string)).andThen (appendString ['"'])

def numBufSize : Nat := 1100

/-- A number, printed into `num_buf` when there is no buffer. -/
def numberPiece (num : Int) : Piece Char
  | none, memory =>
    if (serializeNumber num).length < numBufSize then some (some (serializeNumber num).length, memory)
    else none
  | some offset, memory => appendString (serializeNumber num) (some offset) memory

/-! ## Containers -/

/-- The loop over the items of an array. -/
def itemsPiece (isPretty : Bool) (level : Nat) : List (Piece Char) → Piece Char
  | [] => .nothing
  | item :: rest =>
    ((((appendWhen isPretty (appendIndentPiece (level + 1))).andThen item).andThen
      (appendWhen (! rest.isEmpty) (appendString [',']))).andThen
      (appendWhen isPretty (appendString ['\n']))).andThen (itemsPiece isPretty level rest)

/-- The loop over the names of an object. The value is looked up by its name; NULL is no
value and fails. -/
def entriesPiece (isPretty : Bool) (level : Nat) (members : List (CString × Piece Char)) :
    List CString → Piece Char
  | [] => .nothing
  | key :: rest =>
    (((((((appendWhen isPretty (appendIndentPiece (level + 1))).andThen (stringPiece key)).andThen
      (appendString [':'])).andThen (appendWhen isPretty (appendString [' ']))).andThen
      ((getKey members key).getD .failure)).andThen
      (appendWhen (! rest.isEmpty) (appendString [',']))).andThen
      (appendWhen isPretty (appendString ['\n']))).andThen (entriesPiece isPretty level members rest)

/-- What stands around the loop of a container. -/
def containerPiece (isPretty : Bool) (level : Nat) (isEmpty : Bool) (opening closing : Char)
    (loop : Piece Char) : Piece Char :=
  ((((appendString [opening]).andThen (appendWhen (! isEmpty && isPretty) (appendString ['\n']))).andThen
    loop).andThen (appendWhen (! isEmpty && isPretty) (appendIndentPiece level))).andThen
    (appendString [closing])

mutual

/-- `json_serialize_to_buffer_r`. -/
def serializeToBufferR (isPretty : Bool) (level : Nat) : JsonValue → Piece Char
  | .array ⟨items, _⟩ => containerPiece isPretty level items.isEmpty '[' ']'
      (itemsPiece isPretty level (itemPieces isPretty (level + 1) items))
  | .object ⟨entries, _⟩ => containerPiece isPretty level entries.isEmpty '{' '}'
      (entriesPiece isPretty level (entryPieces isPretty (level + 1) entries) (keys entries))
  | .string string => stringPiece string
  | .boolean true => appendString ['t', 'r', 'u', 'e']
  | .boolean false => appendString ['f', 'a', 'l', 's', 'e']
  | .number num => numberPiece num
  | .null => appendString ['n', 'u', 'l', 'l']

def itemPieces (isPretty : Bool) (level : Nat) : List JsonValue → List (Piece Char)
  | [] => []
  | value :: rest => serializeToBufferR isPretty level value :: itemPieces isPretty level rest

def entryPieces (isPretty : Bool) (level : Nat) : List (CString × JsonValue) → List (CString × Piece Char)
  | [] => []
  | (key, value) :: rest =>
    (key, serializeToBufferR isPretty level value) :: entryPieces isPretty level rest

end

/-- The function on a value that may be NULL, which is no type of value. -/
def serializeToBuffer0 (isPretty : Bool) : Option JsonValue → Piece Char
  | none => .failure
  | some value => serializeToBufferR isPretty 0 value

/-! ## The entry points -/

/-- `json_serialization_size`, and with `isPretty` `json_serialization_size_pretty`. -/
def serializationSize (isPretty : Bool) (value : Option JsonValue) : Option Nat :=
  (serializeToBuffer0 isPretty value none []).map fun (res, _) => (res.map (· + 1)).getD 0

/-- `json_serialize_to_buffer`: the buffer afterwards and the status, unless a byte was
written outside the buffer. -/
def serializeToBuffer (isPretty : Bool) (value : Option JsonValue) (buf : List Char)
    (bufSizeInBytes : Nat) : Option (List Char × JsonStatus) := do
  let neededSizeInBytes ← serializationSize isPretty value
  if neededSizeInBytes = 0 ∨ bufSizeInBytes < neededSizeInBytes then some (buf, .failure)
  else
    let (written, buf) ← serializeToBuffer0 isPretty value (some 0) buf
    some (buf, if written.isSome then .success else .failure)

/-- `json_serialize_to_string`: the allocated bytes, or NULL. Allocation succeeds, with
whatever the memory held. -/
def serializeToString (isPretty : Bool) (value : Option JsonValue) (malloc : Nat → List Char) :
    Option (Option (List Char)) := do
  let bufSizeBytes ← serializationSize isPretty value
  if bufSizeBytes = 0 then some none
  else
    let (buf, status) ← serializeToBuffer isPretty value (malloc bufSizeBytes) bufSizeBytes
    some (match status with
      | .success => some buf
      | .failure => none)

/-! ## Both passes have the same text -/

/-- `DBL_MAX_EXP`. -/
def maxExponent : Nat := 1024

/-- An integer within the range of a double, which `%f` prints digit by digit. -/
def IsDouble (num : Int) : Prop := num.natAbs < 2 ^ maxExponent

/-- The numbers of the value are such integers. -/
def Doubles : Nat → JsonValue → Prop
  | 0, _ => False
  | depth + 1, .array array => ∀ value ∈ array.items, Doubles depth value
  | depth + 1, .object object => ∀ entry ∈ object.entries, Doubles depth entry.2
  | _ + 1, .number num => IsDouble num
  | _ + 1, _ => True

/-- The text with anything behind it, and with a zero behind it. -/
abbrev Appends (piece : Piece Char) (text : CString) : Prop := Writes (fun _ => True) piece text
abbrev Closes (piece : Piece Char) (text : CString) : Prop := Writes (· = nul) piece text

theorem Closes.appends {piece : Piece Char} {text : CString} (h : Closes piece text) : Appends piece text :=
  h.mono fun _ _ => trivial

theorem closes_appendString (string : CString) : Closes (appendString string) string :=
  writes_text string nul

theorem appends_when {piece : Piece Char} {text : CString} (condition : Bool) (h : Appends piece text) :
    Appends (appendWhen condition piece) (if condition then text else []) := by
  cases condition with
  | false => exact writes_nothing
  | true => exact h

theorem appends_indent (level : Nat) : Appends (appendIndentPiece level) (appendIndent level) := by
  induction level with
  | zero => exact writes_nothing
  | succ level ih =>
    have htext : appendIndent (level + 1) = [' ', ' ', ' ', ' '] ++ appendIndent level := by
      rw [appendIndent, Nat.mul_succ, Nat.add_comm, List.replicate_add]
      rfl
    rw [htext]
    exact (closes_appendString _).andThen ih

theorem appends_escape (c : Char) : Appends (escapePiece c) (escapeChar c) := by
  unfold escapePiece
  split
  next c' h =>
    rw [h]
    exact writes_bare [c']
  next => exact (closes_appendString _).appends

theorem appends_chars (string : CString) : Appends (charsPiece string) (string.flatMap escapeChar) := by
  induction string with
  | nil => exact writes_nothing
  | cons c rest ih =>
    rw [List.flatMap_cons]
    exact (appends_escape c).andThen ih

theorem closes_string (string : CString) : Closes (stringPiece string) (jsonSerializeString string) :=
  ((closes_appendString ['"']).andThen (appends_chars string)).andThen (closes_appendString ['"'])

theorem length_serializeNumber_lt {num : Int} (h : IsDouble num) :
    (serializeNumber num).length < numBufSize := by
  have hpow : ∀ k, 2 ^ (3 * k) ≤ 10 ^ k := fun k => by
    rw [Nat.pow_mul]
    exact Nat.pow_le_pow_left (by decide) k
  have hdigits : ∀ k, 0 < k → maxExponent ≤ 3 * k → (Nat.toDigits 10 num.natAbs).length ≤ k := by
    intro k hpos hk
    rw [Nat.length_toDigits_le_iff (by decide) hpos]
    exact Nat.lt_of_lt_of_le h ((Nat.pow_le_pow_right Nat.two_pos hk).trans (hpow k))
  have hshort := hdigits 342 (by decide) (by decide)
  have hdecimal : (decimal num).length ≤ 343 := by
    unfold decimal
    split
    · rw [List.length_cons]
      omega
    · omega
  unfold serializeNumber numBufSize
  split
  · omega
  · split
    · omega
    · rw [List.length_append]
      show _ + 7 < 1100
      omega

theorem closes_number {num : Int} (h : IsDouble num) : Closes (numberPiece num) (serializeNumber num) where
  counts _ := if_pos (length_serializeNumber_lt h)
  puts := (closes_appendString (serializeNumber num)).puts

/-! ## Containers -/

theorem appends_items {isPretty : Bool} {level : Nat} {items : List JsonValue}
    {pieces : List (Piece Char)} (h : List.Forall₂ (fun piece value =>
      Appends piece (jsonSerializeToBufferR isPretty (level + 1) value)) pieces items) :
    Appends (itemsPiece isPretty level pieces) (serializeItems isPretty level items) := by
  induction h with
  | nil => exact writes_nothing
  | @cons piece value pieces items hpiece hrest ih =>
    have hcomma : (if (! pieces.isEmpty) then [','] else []) = if items = [] then [] else [','] := by
      cases hrest <;> rfl
    have hindent := appends_when isPretty (appends_indent (level + 1))
    have hseparator := appends_when (! pieces.isEmpty) (closes_appendString [',']).appends
    have hnewline := appends_when isPretty (closes_appendString ['\n']).appends
    rw [hcomma] at hseparator
    exact (((hindent.andThen hpiece).andThen hseparator).andThen hnewline).andThen ih

theorem appends_entries {isPretty : Bool} {level : Nat} {members : List (CString × Piece Char)}
    {entries : List (CString × JsonValue)} (h : ∀ entry ∈ entries, ∃ piece,
      getKey members entry.1 = some piece ∧
      Appends piece (jsonSerializeToBufferR isPretty (level + 1) entry.2)) :
    Appends (entriesPiece isPretty level members (keys entries)) (serializeEntries isPretty level entries) := by
  induction entries with
  | nil => exact writes_nothing
  | cons entry rest ih =>
    obtain ⟨key, value⟩ := entry
    obtain ⟨piece, hget, hpiece⟩ := h _ List.mem_cons_self
    have hrest := ih fun entry hentry => h entry (List.mem_cons_of_mem _ hentry)
    have hcomma : (if (! (keys rest).isEmpty) then [','] else []) = if rest = [] then [] else [','] := by
      cases rest <;> rfl
    have hindent := appends_when isPretty (appends_indent (level + 1))
    have hspace := appends_when isPretty (closes_appendString [' ']).appends
    have hseparator := appends_when (! (keys rest).isEmpty) (closes_appendString [',']).appends
    have hnewline := appends_when isPretty (closes_appendString ['\n']).appends
    have hkey := (hindent.andThen (closes_string key)).andThen (closes_appendString [':'])
    rw [hcomma] at hseparator
    rw [keys_cons, entriesPiece, hget, Option.getD_some]
    exact ((((hkey.andThen hspace).andThen hpiece).andThen hseparator).andThen hnewline).andThen hrest

theorem closes_container (isPretty isEmpty : Bool) (level : Nat) (opening closing : Char)
    {loop : Piece Char} {text : CString} (h : Appends loop text) :
    Closes (containerPiece isPretty level isEmpty opening closing loop)
      ([opening] ++ (if isEmpty then [] else newline isPretty) ++ text ++
        (if isEmpty then [] else indent isPretty level) ++ [closing]) := by
  have hnewline := appends_when (! isEmpty && isPretty) (closes_appendString ['\n']).appends
  have hindent := appends_when (! isEmpty && isPretty) (appends_indent level)
  have hwhole := ((((closes_appendString [opening]).andThen hnewline).andThen h).andThen hindent).andThen
    (closes_appendString [closing])
  cases isEmpty <;> cases isPretty <;> exact hwhole

theorem itemPieces_eq_map (isPretty : Bool) (level : Nat) (items : List JsonValue) :
    itemPieces isPretty level items = items.map (serializeToBufferR isPretty level) := by
  induction items with
  | nil => rw [itemPieces, List.map_nil]
  | cons value rest ih => rw [itemPieces, ih, List.map_cons]

theorem entryPieces_eq_map (isPretty : Bool) (level : Nat) (entries : List (CString × JsonValue)) :
    entryPieces isPretty level entries =
      entries.map (Prod.map id (serializeToBufferR isPretty level)) := by
  induction entries with
  | nil => rw [entryPieces, List.map_nil]
  | cons entry rest ih =>
    obtain ⟨key, value⟩ := entry
    rw [entryPieces, ih, List.map_cons]
    rfl

/-- Both passes over a value have its text. -/
theorem closes_serialize (isPretty : Bool) : ∀ (depth level : Nat) (value : JsonValue),
    Storable depth value → Doubles depth value →
    Closes (serializeToBufferR isPretty level value) (jsonSerializeToBufferR isPretty level value) := by
  intro depth
  induction depth with
  | zero => exact fun _ _ h => h.elim
  | succ depth ih =>
    intro level value hstorable hdoubles
    cases value with
    | array array =>
      obtain ⟨items, capacity⟩ := array
      have hpieces : List.Forall₂ (fun piece value =>
          Appends piece (jsonSerializeToBufferR isPretty (level + 1) value))
          (items.map (serializeToBufferR isPretty (level + 1))) items :=
        List.forall₂_map_left_iff.mpr (List.forall₂_same.mpr fun value hvalue =>
          (ih (level + 1) value (hstorable.2 value hvalue) (hdoubles value hvalue)).appends)
      have hwhole := closes_container isPretty items.isEmpty level '[' ']' (appends_items hpieces)
      rw [serializeToBufferR, jsonSerializeToBufferR, itemPieces_eq_map]
      cases items <;> exact hwhole
    | object object =>
      obtain ⟨entries, capacity⟩ := object
      obtain ⟨-, hnodup, hentries⟩ := hstorable
      have hmembers : ∀ entry ∈ entries, ∃ piece,
          getKey (entries.map (Prod.map id (serializeToBufferR isPretty (level + 1)))) entry.1 =
            some piece ∧ Appends piece (jsonSerializeToBufferR isPretty (level + 1) entry.2) := by
        intro entry hentry
        have hget := getKey_map Function.injective_id (serializeToBufferR isPretty (level + 1)) entries
          entry.1
        rw [getKey_of_mem hnodup hentry] at hget
        exact ⟨_, hget, (ih (level + 1) entry.2 (hentries entry hentry).2 (hdoubles entry hentry)).appends⟩
      have hwhole := closes_container isPretty entries.isEmpty level '{' '}' (appends_entries hmembers)
      rw [serializeToBufferR, jsonSerializeToBufferR, entryPieces_eq_map]
      cases entries <;> exact hwhole
    | boolean b => cases b <;> exact closes_appendString _
    | number num => exact closes_number hdoubles
    | string string => exact closes_string string
    | null => exact closes_appendString _

/-! ## The entry points agree with the text -/

section Entry

variable (isPretty : Bool) {depth : Nat} {value : JsonValue} (hstorable : Storable depth value)
  (hdoubles : Doubles depth value)
include hstorable hdoubles

theorem serializationSize_eq : serializationSize isPretty (some value) =
    some ((jsonSerializeToBufferR isPretty 0 value).length + 1) := by
  have hcounts := (closes_serialize isPretty depth 0 value hstorable hdoubles).counts []
  simp only [serializationSize, serializeToBuffer0, hcounts, Option.map_some, Option.getD_some]

theorem serializeToBuffer_eq (buf : List Char) {bufSizeInBytes : Nat}
    (hsize : bufSizeInBytes ≤ buf.length) :
    serializeToBuffer isPretty (some value) buf bufSizeInBytes =
      some (if (jsonSerializeToBufferR isPretty 0 value).length < bufSizeInBytes then
          (jsonSerializeToBufferR isPretty 0 value ++
            nul :: buf.drop ((jsonSerializeToBufferR isPretty 0 value).length + 1), .success)
        else (buf, .failure)) := by
  have hcloses := closes_serialize isPretty depth 0 value hstorable hdoubles
  rw [serializeToBuffer, serializationSize_eq isPretty hstorable hdoubles]
  simp only [Option.bind_eq_bind, Option.bind_some]
  by_cases hroom : (jsonSerializeToBufferR isPretty 0 value).length < bufSizeInBytes
  · rw [if_pos hroom, if_neg (by omega), serializeToBuffer0, hcloses.whole (by omega)]
    rfl
  · rw [if_neg hroom, if_pos (by omega)]

end Entry

end DynamicPartitions.Parson.Sizing
