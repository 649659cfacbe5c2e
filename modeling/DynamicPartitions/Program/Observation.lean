import DynamicPartitions.Program.Threads

/-!
# Reading the files of a state

What a program that reads a complete file finds in it, and what the workers of a state
are known to occupy.
-/
namespace DynamicPartitions.Program.Observation

open DynamicPartitions.Lib.Table
open DynamicPartitions.Parson.Value
open DynamicPartitions.Parson.Parser
open DynamicPartitions.Program.Algorithms
open DynamicPartitions.Program.MappedFile
open DynamicPartitions.Program.WorkerThread
open DynamicPartitions.Program.Threads

/-- The value in `/tmp/mmapped.bin`. -/
def memoryContents (s : Producer) : Option JsonValue := jsonParseString (cString s.shared.memory)

/-- The value in `/tmp/mmapped_pro_on_waiting.bin`. -/
def waitingContents (s : Producer) : Option JsonValue :=
  jsonParseString (cString s.shared.processesOnWaiting)

/-- The names in a JSON object. -/
def namesIn (value : Option JsonValue) : List CString :=
  ((jsonValueGetObject value).map fun object => keys object.entries).getD []

def partitionCount (memory : Option JsonValue) : Nat :=
  ((jsonValueGetArray memory).map jsonArrayGetCount).getD 0

def partitionAt (memory : Option JsonValue) (i : Nat) : Option (JsonObject JsonValue) :=
  jsonArrayGetObject (jsonValueGetArray memory) i

def freeSpaceIn (memory : Option JsonValue) (i : Nat) : Int :=
  jsonObjectGetNumber (partitionAt memory i) freeSpaceName

def sizeIn (memory : Option JsonValue) (i : Nat) : Int :=
  jsonObjectGetNumber (partitionAt memory i) sizeName

/-- The entries of the processes object of a partition. -/
def processesIn (memory : Option JsonValue) (i : Nat) : List (CString × JsonValue) :=
  ((jsonObjectGetObject (partitionAt memory i) processesName).map JsonObject.entries).getD []

/-- The workers between their admission write at the index and their release write. -/
def residentsAt (s : Producer) (i : Nat) : List Thread :=
  s.threads.filter fun thread => thread.pc.residence = some i

/-- The space the residents of a partition were admitted with. -/
def residentSizes (s : Producer) (i : Nat) : Int :=
  ((residentsAt s i).map (·.worker.processSize)).sum

/-- The free space of all partitions together. -/
def totalFreeSpace (memory : Option JsonValue) : Int :=
  ((List.range (partitionCount memory)).map (freeSpaceIn memory)).sum

/-! ## The log -/

/-- A line of the log with the numbers it prints: WARN, ASIG with `Size` and `Delay`,
DEVO with `Size` and `Index`. -/
inductive LogLine where
  | warn (processId : Nat)
  | asig (processId : Nat) (size delay : Int)
  | devo (processId : Nat) (size : Int) (index : Nat)
deriving DecidableEq, Repr

/-- The line a worker writes by its call of `slog`. -/
def slogLine (worker : Worker) : Outcome → LogLine
  | .rejected => .warn worker.processId
  | .admitted _ => .asig worker.processId worker.processSize worker.processDelay
  | .returned memIndex => .devo worker.processId worker.processSize memIndex

/-- The log file, each line with the worker that wrote it. -/
def log (history : List (Worker × Event)) : List (Worker × LogLine) :=
  history.filterMap fun
    | (worker, .logged outcome) => some (worker, slogLine worker outcome)
    | _ => none

/-- The `Size` of an ASIG line. -/
def LogLine.asigSize : LogLine → Int
  | .asig _ size _ => size
  | _ => 0

/-- The `Size` of a DEVO line. -/
def LogLine.devoSize : LogLine → Int
  | .devo _ size _ => size
  | _ => 0

def LogLine.isWarn : LogLine → Bool
  | .warn _ => true
  | _ => false

/-- Nobody has been admitted without having released. -/
def Drained (s : Producer) : Prop := ∀ thread ∈ s.threads, thread.pc.residence = none

end DynamicPartitions.Program.Observation
