import DynamicPartitions.Abstract.Rosters
import DynamicPartitions.Refinement.Memory

/-!
# The waiting list file of a roster

The JSON object of a roster, and what a registration and a removal write when they have
read one.
-/
namespace DynamicPartitions.Refinement.WaitingList

open DynamicPartitions.Lib.Table
open DynamicPartitions.Parson.Value
open DynamicPartitions.Parson.Parser
open DynamicPartitions.Parson.RoundTrip
open DynamicPartitions.Parson.Acceptance
open DynamicPartitions.Abstract.Rosters
open DynamicPartitions.Program.MappedFile
open DynamicPartitions.Program.WorkerThread
open DynamicPartitions.Refinement.Representation
open DynamicPartitions.Refinement.Memory

/-- A roster of threads, with the room their object has in the file. -/
abbrev Waiting := Roster Nat tableBound

def nullValue : Unit → JsonValue := fun _ => .null

def waitingValue (r : Waiting) : JsonValue := .object (tableObject nullValue r.entries)

theorem trim_nullValue (u : Unit) : trim (nullValue u) = nullValue u := rfl

theorem canonical_waitingValue (r : Waiting) : Canonical (waitingValue r) :=
  accepted_tableObject trim_nullValue (fun _ => show Storable maxNesting .null from trivial)
    r.nodup r.length_le

/-- The content of the file of a roster. -/
def waitingFile (r : Waiting) : Content := stored (compact (waitingValue r))

/-- The text a read of that file returns. -/
def waitingText (r : Waiting) : CString := pretty (waitingValue r)

theorem parseText_waitingText (r : Waiting) :
    parseText (some (waitingText r)) = some (waitingValue r) :=
  jsonParseString_pretty (canonical_waitingValue r)

theorem registration_waitingText (worker : Worker) (r : Waiting) :
    registration worker (some (waitingText r)) =
      some (compact (waitingValue (r.enlist worker.processId))) := by
  have htrim : trim (.object (jsonObjectSetNull (tableObject nullValue r.entries)
      worker.strProcessId).1) = waitingValue (r.enlist worker.processId) :=
    trim_setValue trim_nullValue r.entries worker.processId () rfl
  rw [registration, parseText_waitingText, ← htrim, compact_trim]
  rfl

theorem removal_waitingText (worker : Worker) (r : Waiting) :
    removal worker (some (waitingText r)) =
      some (compact (waitingValue (r.strike worker.processId))) := by
  have htrim : trim (.object (jsonObjectRemove (tableObject nullValue r.entries)
      worker.strProcessId).1) = waitingValue (r.strike worker.processId) :=
    trim_remove trim_nullValue r.entries worker.processId
  rw [removal, parseText_waitingText, ← htrim, compact_trim]
  rfl

theorem initMemoryProcessesOnWaiting_roster :
    initMemoryProcessesOnWaiting = some (waitingFile Roster.empty) := rfl

theorem cString_waitingFile (r : Waiting) : cString (waitingFile r) = compact (waitingValue r) :=
  cString_stored_compact _

theorem jsonParseString_waitingFile (r : Waiting) :
    jsonParseString (cString (waitingFile r)) = some (waitingValue r) := by
  rw [cString_waitingFile]
  exact jsonParseString_serialize false (canonical_waitingValue r)

/-- The names in the object are the decimal ids. -/
theorem keys_waiting (r : Waiting) :
    keys (tableObject nullValue r.entries).entries = r.ids.map idName :=
  keys_tableObject nullValue r.entries

theorem idName_mem_map {ids : List Nat} {id : Nat} : idName id ∈ ids.map idName ↔ id ∈ ids :=
  List.mem_map_of_injective idName_injective

end DynamicPartitions.Refinement.WaitingList
