import DynamicPartitions.Parson.Acceptance

/-!
# The memory-mapped files

The four access functions of `producer.c` and the two of `spy.c` differ in their
file only. Each is taken apart into the effects other threads can come between:
a read opens the file and records its size, then maps and parses it; a write
opens with truncation, stretches the file with zero bytes, then copies the text.
System calls succeed.
-/
namespace DynamicPartitions.Program.MappedFile

open DynamicPartitions.Parson.Value
open DynamicPartitions.Parson.Parser
open DynamicPartitions.Parson.Serializer
open DynamicPartitions.Parson.Acceptance

/-- The bytes of a file. -/
abbrev Content := List Char

/-- The process is gone: an `exit` branch was taken, or a page outside the file or
outside the mapping was touched. -/
inductive Halt where
  | exit
  | fault
deriving DecidableEq, Repr

def pageSize : Nat := 4096

/-- The bytes a mapping of `size` bytes makes accessible: whole pages. -/
def pageUp (size : Nat) : Nat := (size + (pageSize - 1)) / pageSize * pageSize

/-- The C string at the start of the mapped bytes; past its end the last page is zero. -/
def cString (content : Content) : CString := content.takeWhile (· ≠ nul)

/-- How far `json_parse_string` reads: a container ends at its closing bracket,
anything else is read up to the terminating zero. -/
def parseExtent (text : CString) : Nat :=
  match jsonParseString text with
  | some (.array _) | some (.object _) => text.length
  | _ => text.length + 1

/-! ## Reading -/

inductive ReadStage where
  | opening
  | mapping (stSize : Nat)
deriving DecidableEq, Repr

/-- What one stage of a call does: it stops the process, leaves the next stage to
do, or ends the call. -/
inductive Progress (Stage Result : Type) where
  | halt (reason : Halt)
  | next (stage : Stage)
  | done (result : Result)

/-- What the call returns: the parsed text of the file, printed over lines. -/
def reprint (text : CString) : Option CString := jsonSerializeToStringPretty (jsonParseString text)

/-- `read_memory`, `read_memory_processes_on_waiting`, `spy_memory`, `spy_on_waiting`. -/
def readStep (content : Content) : ReadStage → Progress ReadStage (Option CString)
  | .opening => if content.length = 0 then .halt .exit else .next (.mapping content.length)
  | .mapping stSize =>
    if parseExtent (cString content) > min (pageUp stSize) (pageUp content.length) then .halt .fault
    else .done (reprint (cString content))

/-! ## Writing -/

inductive WriteStage where
  | opening (serializedString : Option CString)
  | stretching (serializedString : CString)
  | copying (serializedString : CString)
deriving DecidableEq, Repr

/-- What the file holds once `text` has been written to it. -/
def stored (text : CString) : Content := text ++ [nul]

/-- `lseek` to the last byte of the text and `write` of one zero there. -/
def stretch (content : Content) (text : CString) : Content :=
  (content ++ List.replicate (text.length + 1 - content.length) nul).set text.length nul

/-- `strcpy` into the mapping; what lies past the end of the file is not kept. -/
def strcpy (content : Content) (text : CString) : Content :=
  (stored text).take content.length ++ content.drop (text.length + 1)

/-- `write_memory`, `write_memory_processes_on_waiting`: the content afterwards and
how the call goes on. -/
def writeStep (content : Content) : WriteStage → Content × Progress WriteStage Unit
  | .opening none => ([], .halt .exit)
  | .opening (some text) => ([], .next (.stretching text))
  | .stretching text => (stretch content text, .next (.copying text))
  | .copying text =>
    if text.length + 1 > pageUp content.length then (strcpy content text, .halt .fault)
    else (strcpy content text, .done ())

/-! ## A complete file -/

theorem le_pageUp (n : Nat) : n ≤ pageUp n := by
  unfold pageUp pageSize
  omega

theorem pageSize_le_pageUp {n : Nat} (h : n ≠ 0) : pageSize ≤ pageUp n := by
  unfold pageUp pageSize
  omega

theorem cString_stored {text : CString} (h : nul ∉ text) : cString (stored text) = text := by
  have hall : ∀ c ∈ text, decide (c ≠ nul) = true := fun c hc =>
    decide_eq_true fun he => h (he ▸ hc)
  unfold cString stored
  rw [List.takeWhile_append_of_pos hall]
  simp

theorem length_stored (text : CString) : (stored text).length = text.length + 1 := by
  simp [stored]

theorem stored_ne_nil (text : CString) : (stored text).length ≠ 0 := by
  rw [length_stored]
  omega

theorem parseExtent_le (text : CString) : parseExtent text ≤ text.length + 1 := by
  unfold parseExtent
  split <;> omega

/-- The text a canonical value is written as. -/
def compact (value : JsonValue) : CString := jsonSerializeToBufferR false 0 value

/-- The text a canonical value is returned as. -/
def pretty (value : JsonValue) : CString := jsonSerializeToBufferR true 0 value

theorem cString_stored_compact (value : JsonValue) : cString (stored (compact value)) = compact value :=
  cString_stored (nul_not_mem_serialize false 0 value)

theorem reprint_compact {value : JsonValue} (h : Canonical value) :
    reprint (compact value) = some (pretty value) := by
  unfold reprint compact
  rw [jsonParseString_serialize false h]
  rfl

theorem jsonParseString_pretty {value : JsonValue} (h : Canonical value) :
    jsonParseString (pretty value) = some value :=
  jsonParseString_serialize true h

/-- The parser stays within the mapping of a complete file. -/
theorem extent_complete (value : JsonValue) :
    parseExtent (cString (stored (compact value))) ≤
      min (pageUp (stored (compact value)).length) (pageUp (stored (compact value)).length) := by
  have hle := parseExtent_le (compact value)
  have hpage := le_pageUp (stored (compact value)).length
  rw [length_stored] at hpage
  rw [cString_stored_compact, length_stored, Nat.min_self]
  omega

/-- Zero bytes up to the length of the text. -/
def zeros (text : CString) : Content := List.replicate (text.length + 1) nul

theorem stretch_nil (text : CString) : stretch [] text = zeros text := by
  unfold stretch zeros
  rw [List.nil_append, List.length_nil, Nat.sub_zero]
  exact List.set_replicate_self

theorem strcpy_zeros (text : CString) : strcpy (zeros text) text = stored text := by
  unfold strcpy zeros
  rw [List.length_replicate, List.take_of_length_le (by rw [length_stored]),
    List.drop_of_length_le (by simp), List.append_nil]

theorem fits_zeros (text : CString) : text.length + 1 ≤ pageUp (zeros text).length := by
  have hpage := le_pageUp (zeros text).length
  rwa [zeros, List.length_replicate] at hpage ⊢

end DynamicPartitions.Program.MappedFile
