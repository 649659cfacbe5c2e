import DynamicPartitions.Program.Algorithms
import DynamicPartitions.Program.MappedFile

/-!
# What a worker does to the JSON it has read

The computations of `worker_thread` between a read and the next write, and the
files `initializer.c` starts from. Each takes the text a read returned, which may
be NULL, and gives the text the next write is called with. The statuses that
`parson` returns are ignored, as the source ignores them.
-/
namespace DynamicPartitions.Program.WorkerThread

open DynamicPartitions.Lib.Table
open DynamicPartitions.Parson.Value
open DynamicPartitions.Parson.Parser
open DynamicPartitions.Parson.Serializer
open DynamicPartitions.Program.Algorithms
open DynamicPartitions.Program.MappedFile

def sizeName : CString := "size".toList
def delayName : CString := "delay".toList
def processesName : CString := "processes".toList

/-- What a worker draws when it starts, with its place in the order of creation. -/
structure Worker where
  number : Nat
  processId : Nat
  processSize : Int
  processDelay : Int
deriving DecidableEq, Repr

/-- `str_process_id`. -/
def Worker.strProcessId (worker : Worker) : CString := decimal worker.processId

/-- `json_parse_string`, which returns NULL on NULL. -/
def parseText (data : Option CString) : Option JsonValue := data.bind jsonParseString

/-- An update through `json_value_get_object`: nothing happens to a value of another kind. -/
def updateObject (update : JsonObject JsonValue → JsonObject JsonValue) : JsonValue → JsonValue
  | .object object => .object (update object)
  | value => value

/-- An update through `json_value_get_array` and `json_array_get_object`. -/
def updateArrayObject (index : Nat) (update : JsonObject JsonValue → JsonObject JsonValue) :
    JsonValue → JsonValue
  | .array array => .array { array with items := array.items.modify index (updateObject update) }
  | value => value

/-- An update of the value under a name, through the pointer `json_object_get_object` returns. -/
def updateMember (name : CString) (update : JsonObject JsonValue → JsonObject JsonValue)
    (object : JsonObject JsonValue) : JsonObject JsonValue :=
  match jsonObjectGetObject (some object) name with
  | none => object
  | some member => { object with entries := replaceKey object.entries name (.object (update member)) }

/-! ## The waiting list -/

/-- Lines 100 to 105: register as waiting. -/
def registration (worker : Worker) (dataWaiting : Option CString) : Option CString :=
  jsonSerializeToString ((parseText dataWaiting).map
    (updateObject fun waitingObject => (jsonObjectSetNull waitingObject worker.strProcessId).1))

/-- Lines 110 to 115: take the registration back. -/
def removal (worker : Worker) (dataWaiting : Option CString) : Option CString :=
  jsonSerializeToString ((parseText dataWaiting).map
    (updateObject fun waitingObject => (jsonObjectRemove waitingObject worker.strProcessId).1))

/-! ## The memory -/

/-- Lines 119 to 121: look for a partition. -/
def placement (algorithm : Algorithm) (worker : Worker) (data : Option CString) : Option Nat :=
  searchIndex (jsonValueGetArray (parseText data)) worker.processSize algorithm

/-- The range of an `int`. The sections below add and subtract without it; that their
results are `int`s is a statement of its own. -/
def InInt (n : Int) : Prop := intMin ≤ n ∧ n ≤ intMax

instance (n : Int) : Decidable (InInt n) := inferInstanceAs (Decidable (_ ∧ _))

/-- `sub_schema`, the record of a process. -/
def subSchema (processSize processDelay : Int) : JsonValue :=
  let subSchemaObj := (jsonObjectSetNumber jsonObjectInit sizeName processSize).1
  .object (jsonObjectSetNumber subSchemaObj delayName processDelay).1

/-- Lines 131 to 143 on the chosen partition: take the space and record the process. -/
def occupy (worker : Worker) (rootObject : JsonObject JsonValue) : JsonObject JsonValue :=
  let freeSpace := jsonObjectGetNumber (some rootObject) freeSpaceName
  let newSpace := freeSpace - worker.processSize
  let rootObject := (jsonObjectSetNumber rootObject freeSpaceName newSpace).1
  updateMember processesName
    (fun proObj => (jsonObjectSetValue proObj worker.strProcessId
      (subSchema worker.processSize worker.processDelay)).1) rootObject

/-- Lines 131 to 146. -/
def admission (worker : Worker) (memIndex : Nat) (data : Option CString) : Option CString :=
  jsonSerializeToString ((parseText data).map (updateArrayObject memIndex (occupy worker)))

/-- Lines 159 to 167 on the same partition: give the space back and forget the process. -/
def vacate (worker : Worker) (rootObject : JsonObject JsonValue) : JsonObject JsonValue :=
  let freeSpaceReturn := jsonObjectGetNumber (some rootObject) freeSpaceName
  let newSpaceReturn := freeSpaceReturn + worker.processSize
  let rootObject := (jsonObjectSetNumber rootObject freeSpaceName newSpaceReturn).1
  (jsonObjectDotremove rootObject (processesName ++ '.' :: worker.strProcessId)).1

/-- Lines 156 to 169. -/
def devolution (worker : Worker) (memIndex : Nat) (dataReturn : Option CString) : Option CString :=
  jsonSerializeToString ((parseText dataReturn).map (updateArrayObject memIndex (vacate worker)))

/-! ## The files of Initializer -/

/-- What Initializer leaves in a file: the text is parsed and written back, unless it
does not parse and the program exits. -/
def initFile (text : CString) : Option Content :=
  (jsonSerializeToString (jsonParseString text)).map stored

/-- `init_memory`, for the text of `schema.json`. -/
def initMemory (schema : CString) : Option Content := initFile schema

/-- `init_memory_processes_on_waiting`. -/
def initMemoryProcessesOnWaiting : Option Content := initFile "{}".toList

theorem initFile_of_parse {text : CString} {value : JsonValue} (h : jsonParseString text = some value) :
    initFile text = some (stored (compact value)) := by
  simp [initFile, h, jsonSerializeToString, compact]

end DynamicPartitions.Program.WorkerThread
