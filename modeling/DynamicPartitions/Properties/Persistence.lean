import DynamicPartitions.Program.FileUpdate
import DynamicPartitions.Program.Spy
import DynamicPartitions.Properties.Spying
import DynamicPartitions.Refinement.Sections

/-!
# The memory survives as text

What a worker hands to `write_memory` is printed, stored, parsed, printed again and
parsed again before the next worker sees it. That worker, and Spy, find the same data.
-/
namespace DynamicPartitions.Properties.Persistence

open DynamicPartitions.Parson.Value
open DynamicPartitions.Parson.Parser
open DynamicPartitions.Parson.Serializer
open DynamicPartitions.Parson.RoundTrip
open DynamicPartitions.Parson.Acceptance
open DynamicPartitions.Program.Algorithms
open DynamicPartitions.Program.MappedFile
open DynamicPartitions.Program.WorkerThread
open DynamicPartitions.Program.Threads
open DynamicPartitions.Program.FileUpdate
open DynamicPartitions.Program.Spy
open DynamicPartitions.Refinement.Representation
open DynamicPartitions.Refinement.Memory
open DynamicPartitions.Refinement.Sections
open DynamicPartitions.Refinement.Simulation
open DynamicPartitions.Refinement.Runs
open DynamicPartitions.Properties.Spying

/-! ## The data of a value -/

/-- A JSON value without the capacities of its containers. -/
inductive Plain where
  | null
  | boolean (value : Bool)
  | number (value : Int)
  | string (value : CString)
  | array (items : List Plain)
  | object (entries : List (CString × Plain))

mutual

def plain : JsonValue → Plain
  | .array ⟨items, _⟩ => .array (plainItems items)
  | .object ⟨entries, _⟩ => .object (plainEntries entries)
  | .string string => .string string
  | .boolean value => .boolean value
  | .number num => .number num
  | .null => .null

def plainItems : List JsonValue → List Plain
  | [] => []
  | value :: rest => plain value :: plainItems rest

def plainEntries : List (CString × JsonValue) → List (CString × Plain)
  | [] => []
  | (key, value) :: rest => (key, plain value) :: plainEntries rest

end

mutual

/-- Cutting containers down to their counts keeps the data. -/
theorem plain_trim : ∀ value, plain (trim value) = plain value
  | .array ⟨items, _⟩ => by rw [trim, plain, plain, plainItems_trim items]
  | .object ⟨entries, _⟩ => by rw [trim, plain, plain, plainEntries_trim entries]
  | .string _ => rfl
  | .boolean _ => rfl
  | .number _ => rfl
  | .null => rfl

theorem plainItems_trim : ∀ items, plainItems (trimItems items) = plainItems items
  | [] => rfl
  | value :: rest => by
    rw [trimItems, plainItems, plainItems, plain_trim value, plainItems_trim rest]

theorem plainEntries_trim : ∀ entries, plainEntries (trimEntries entries) = plainEntries entries
  | [] => rfl
  | (key, value) :: rest => by
    rw [trimEntries, plainEntries, plainEntries, plain_trim value, plainEntries_trim rest]

end

/-! ## One round -/

/-- Printed, written over the content, read and printed again, and parsed by the next
worker, the value comes back; and it is what Spy parses. -/
def RoundTrips (content : Content) (value : JsonValue) : Prop :=
  ∃ text written printed value', jsonSerializeToString (some value) = some text ∧
    writeWhole content (some text) = (written, .done ()) ∧
    readWhole written = .ok (some printed) ∧ jsonParseString printed = some value' ∧
    jsonParseString (cString written) = some value' ∧ plain value' = plain value

/-- It is enough that the value is one a parser returns, up to capacities. -/
theorem roundTrips_of_canonical {value : JsonValue} (h : Canonical (trim value)) (content : Content) :
    RoundTrips content value := by
  have hread := readWhole_complete h
  have hspy := jsonParseString_serialize false h
  rw [compact_trim] at hread
  refine ⟨compact value, stored (compact value), pretty (trim value), trim value, rfl,
    writeWhole_some content _, hread, jsonParseString_pretty h, ?_, plain_trim value⟩
  rw [cString_stored_compact, ← compact_trim]
  exact hspy

/-- What a worker computes for a write, on the value it has parsed. -/
def handed (worker : Worker) : WriteCall → JsonValue → JsonValue
  | .registration => updateObject fun object => (jsonObjectSetNull object worker.strProcessId).1
  | .removal => updateObject fun object => (jsonObjectRemove object worker.strProcessId).1
  | .admission memIndex => updateArrayObject memIndex (occupy worker)
  | .devolution memIndex => updateArrayObject memIndex (vacate worker)

/-- What a worker hands to `write_memory`, while the file still holds what it has read. -/
structure Hands (s : Producer) (worker : Worker) (call : WriteCall) (text : Option CString)
    (held : JsonValue) : Prop where
  held_eq : jsonParseString (cString s.shared.memory) = some held
  text_eq : text = jsonSerializeToString (some (handed worker call held))

section Memory

variable {frames : List Frame} {a : Books} (h : Framed frames a.partitions)
include h

/-- The memory of an allocator after a section. -/
theorem canonical_turn (turn : Turn) :
    Canonical (trim (updateArrayObject turn.memIndex turn.update (memoryValue frames a.partitions))) := by
  obtain ⟨partitions, hholds⟩ := holds_of_wellFormed (wellFormed_memoryFile a h)
  have hvalue : memoryValue frames a.partitions = memoryOf partitions :=
    Option.some.inj ((jsonParseString_memoryFile a h).symm.trans hholds.parsed)
  rw [hvalue, trim_turn hholds turn]
  exact canonical_change hholds turn

end Memory

/-- Whatever a worker hands to `write_memory` in a reachable state comes back to the next
reader. -/
theorem memory_round_trips (algorithm : Algorithm) {schema : CString} (hschema : InitialMemory schema)
    {s : Producer} (hreach : Reachable algorithm schema s) {thread : Thread}
    (hthread : thread ∈ s.threads) {call : WriteCall} {text : Option CString}
    (hpc : thread.pc = .writing call (.opening text)) (hfile : call.file = .memory) :
    ∃ held, Hands s thread.worker call text held ∧
      RoundTrips s.shared.memory (handed thread.worker call held) := by
  obtain ⟨frames, hframed, hparse⟩ := initialMemory_frames hschema
  obtain ⟨a, hsimulated⟩ := simulated_of_reachable hframed hparse hreach
  have ha : Framed frames a.partitions := hsimulated.refines.framed
  have hview := hsimulated.refines.view thread hthread
  refine ⟨memoryValue frames a.partitions, ?_⟩
  cases call with
  | registration => cases hfile
  | removal => cases hfile
  | admission k =>
    have hpending := hview (by rw [hpc]; rfl)
    simp only [View, hpc, Pending] at hpending
    obtain ⟨-, hmemory, htext⟩ := hpending
    refine ⟨⟨?_, ?_⟩, roundTrips_of_canonical (canonical_turn ha (.admits thread.worker k)) _⟩
    · rw [hmemory]
      exact jsonParseString_memoryFile a ha
    · rw [htext]
      exact congrArg some (compact_updateArrayObject (trim_occupy thread.worker) frames a.partitions k
        ha.length_eq).symm
  | devolution k =>
    have hpending := hview (by rw [hpc]; rfl)
    simp only [View, hpc, Pending] at hpending
    obtain ⟨hmemory, htext⟩ := hpending
    refine ⟨⟨?_, ?_⟩, roundTrips_of_canonical (canonical_turn ha (.releases thread.worker k)) _⟩
    · rw [hmemory]
      exact jsonParseString_memoryFile a ha
    · rw [htext]
      exact congrArg some (compact_updateArrayObject (trim_vacate thread.worker) frames a.partitions k
        ha.length_eq).symm

theorem memory_round_trips_tenUnits :
    ∃ s thread text held, thread ∈ s.threads ∧
      thread.pc = .writing (.admission 0) (.opening (some text)) ∧
      Hands s thread.worker (.admission 0) (some text) held ∧
      RoundTrips s.shared.memory (handed thread.worker (.admission 0) held) := by
  obtain ⟨s, thread, text, hreach, -, hi, hpc⟩ := admission_prepared
  have hthread := List.mem_of_getElem? hi
  obtain ⟨held, hhands, hround⟩ :=
    memory_round_trips .firstFit (initialMemory_schemaOf (by decide)) hreach hthread hpc rfl
  exact ⟨s, thread, text, held, hthread, hpc, hhands, hround⟩

end DynamicPartitions.Properties.Persistence
