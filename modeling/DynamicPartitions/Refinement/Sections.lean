import DynamicPartitions.Lib.Update
import DynamicPartitions.Program.Observation
import DynamicPartitions.Refinement.Memory

/-!
# Critical sections on any memory

Admissions and releases on a memory file of which only this is known: it holds an array
of objects with a number under `free_space` and an object under `processes`. A section
changes those two members of one object, and of `processes` the entry under one name.
-/
namespace DynamicPartitions.Refinement.Sections

open DynamicPartitions.Lib.Table
open DynamicPartitions.Lib.Update
open DynamicPartitions.Parson.Value
open DynamicPartitions.Parson.Parser
open DynamicPartitions.Parson.RoundTrip
open DynamicPartitions.Parson.Acceptance
open DynamicPartitions.Program.Algorithms
open DynamicPartitions.Program.MappedFile
open DynamicPartitions.Program.WorkerThread
open DynamicPartitions.Program.Observation
open DynamicPartitions.Refinement.Representation
open DynamicPartitions.Refinement.Memory

/-! ## Partition objects -/

/-- What a section needs of a partition object that has been parsed. -/
structure IsPartition (rootObject : JsonObject JsonValue) : Prop where
  accepted : Accepted maxNesting (.object rootObject)
  freeSpace_number : ∃ n, jsonObjectGetValue rootObject freeSpaceName = some (.number n)
  processes_object : ∃ q, jsonObjectGetValue rootObject processesName = some (.object q)

def freeSpaceOf (rootObject : JsonObject JsonValue) : Int :=
  jsonObjectGetNumber (some rootObject) freeSpaceName

/-- The entries under `processes`. -/
def processesOf (rootObject : JsonObject JsonValue) : List (CString × JsonValue) :=
  ((jsonObjectGetObject (some rootObject) processesName).map JsonObject.entries).getD []

/-- The object with the two variable members exchanged. -/
def alter (rootObject : JsonObject JsonValue) (freeSpace : Int)
    (processes : List (CString × JsonValue)) : JsonObject JsonValue :=
  { rootObject with
    entries := replaceKey (replaceKey rootObject.entries freeSpaceName (.number freeSpace))
      processesName (.object ⟨processes, processes.length⟩) }

@[simp] theorem keys_alter (p : JsonObject JsonValue) (n : Int) (t : List (CString × JsonValue)) :
    keys (alter p n t).entries = keys p.entries := by
  simp [alter]

theorem getValue_alter_of_ne (p : JsonObject JsonValue) (n : Int) (t : List (CString × JsonValue))
    {name : CString} (hfree : name ≠ freeSpaceName) (hprocesses : name ≠ processesName) :
    jsonObjectGetValue (alter p n t) name = jsonObjectGetValue p name := by
  unfold jsonObjectGetValue alter
  rw [getKey_replaceKey_of_ne _ hprocesses, getKey_replaceKey_of_ne _ hfree]

theorem storable_replaceKey {depth : Nat} {p : JsonObject JsonValue}
    (h : Storable (depth + 1) (.object p)) {name : CString} {value : JsonValue} (hname : nul ∉ name)
    (hvalue : Storable depth value) :
    Storable (depth + 1) (.object { p with entries := replaceKey p.entries name value }) := by
  obtain ⟨hlength, hnodup, hmembers⟩ := h
  refine ⟨?_, ?_, fun entry hentry => ?_⟩
  · show (replaceKey p.entries name value).length ≤ objectMaxCapacity
    rwa [length_replaceKey]
  · show (keys (replaceKey p.entries name value)).Nodup
    rwa [keys_replaceKey]
  · rcases mem_replaceKey hentry with hold | rfl
    · exact hmembers entry hold
    · exact ⟨hname, hvalue⟩

namespace IsPartition

variable {p : JsonObject JsonValue} (h : IsPartition p)
include h

theorem freeSpace_mem : freeSpaceName ∈ keys p.entries := by
  obtain ⟨n, hn⟩ := h.freeSpace_number
  exact (getKey_isSome_iff _ _).mp (Option.isSome_iff_exists.mpr ⟨_, hn⟩)

theorem processes_mem : processesName ∈ keys p.entries := by
  obtain ⟨q, hq⟩ := h.processes_object
  exact (getKey_isSome_iff _ _).mp (Option.isSome_iff_exists.mpr ⟨_, hq⟩)

/-- The table is held with no room to spare. -/
theorem getValue_processes :
    jsonObjectGetValue p processesName = some (.object ⟨processesOf p, (processesOf p).length⟩) := by
  obtain ⟨q, hq⟩ := h.processes_object
  have hcapacity := (map_trim_entries (trim_getKey h.accepted.2 hq)).2
  have hprocesses : processesOf p = q.entries := by
    simp [processesOf, jsonObjectGetObject, hq, jsonValueGetObject]
  rw [hq, hprocesses, ← hcapacity]

theorem accepted_processes :
    Accepted (maxNesting - 1) (.object ⟨processesOf p, (processesOf p).length⟩) := by
  have hmem := mem_of_getKey h.getValue_processes
  exact ⟨(h.accepted.1.2.2 _ hmem).2, trim_getKey h.accepted.2 h.getValue_processes⟩

theorem processes_nodup : (keys (processesOf p)).Nodup := h.accepted_processes.1.2.1

theorem freeSpaceOf_alter (n : Int) (t : List (CString × JsonValue)) :
    freeSpaceOf (alter p n t) = n := by
  unfold freeSpaceOf jsonObjectGetNumber
  rw [Option.bind_some, jsonObjectGetValue, alter,
    getKey_replaceKey_of_ne _ names_distinct.1, getKey_replaceKey_self h.freeSpace_mem]
  rfl

theorem getValue_processes_alter (n : Int) (t : List (CString × JsonValue)) :
    jsonObjectGetValue (alter p n t) processesName = some (.object ⟨t, t.length⟩) := by
  unfold jsonObjectGetValue alter
  apply getKey_replaceKey_self
  rw [keys_replaceKey]
  exact h.processes_mem

theorem processesOf_alter (n : Int) (t : List (CString × JsonValue)) :
    processesOf (alter p n t) = t := by
  simp [processesOf, jsonObjectGetObject, h.getValue_processes_alter, jsonValueGetObject]

/-- Exchanging the two members, with the table still as it is inserted. -/
theorem trim_update (n : Int) {q : JsonObject JsonValue} {t : List (CString × JsonValue)}
    (ht : trim (.object q) = .object ⟨t, t.length⟩) :
    trim (.object { p with
      entries := replaceKey (replaceKey p.entries freeSpaceName (.number n)) processesName
        (.object q) }) = .object (alter p n t) := by
  obtain ⟨hentries, hcapacity⟩ := map_trim_entries h.accepted.2
  rw [trim_object, alter]
  simp only [map_trim_replaceKey, hentries, ht, length_replaceKey, ← hcapacity]
  rfl

theorem alter_isPartition (n : Int) {t : List (CString × JsonValue)}
    (ht : Accepted (maxNesting - 1) (.object ⟨t, t.length⟩)) : IsPartition (alter p n t) := by
  constructor
  · constructor
    · have hfree : Storable maxNesting
          (.object { p with entries := replaceKey p.entries freeSpaceName (.number n) }) :=
        storable_replaceKey h.accepted.1 (by decide) trivial
      exact storable_replaceKey hfree (by decide) ht.1
    · exact h.trim_update n ht.2
  · exact ⟨n, by
      rw [jsonObjectGetValue, alter, getKey_replaceKey_of_ne _ names_distinct.1,
        getKey_replaceKey_self h.freeSpace_mem]⟩
  · exact ⟨_, h.getValue_processes_alter n t⟩

end IsPartition

/-! ## What a section computes on a partition object -/

/-- A table that takes an entry the parser accepts is accepted itself. -/
theorem accepted_enterKey {t : List (CString × JsonValue)} {depth : Nat}
    (h : Accepted (depth + 1) (.object ⟨t, t.length⟩)) {name : CString} (hname : nul ∉ name)
    {value : JsonValue} (hvalue : Accepted depth value) :
    Accepted (depth + 1) (.object ⟨enterKey tableBound t name value,
      (enterKey tableBound t name value).length⟩) := by
  obtain ⟨⟨hlength, hnodup, hmembers⟩, htrim⟩ := h
  have hmembers' : ∀ entry ∈ enterKey tableBound t name value,
      (nul ∉ entry.1 ∧ Storable depth entry.2) ∧ trim entry.2 = entry.2 := by
    intro entry hentry
    rcases mem_enterKey hentry with hold | rfl
    · exact ⟨hmembers entry hold, trim_getKey htrim (getKey_of_mem hnodup hold)⟩
    · exact ⟨⟨hname, hvalue.1⟩, hvalue.2⟩
  refine ⟨⟨?_, keys_enterKey_nodup tableBound hnodup name value,
    fun entry hentry => (hmembers' entry hentry).1⟩, ?_⟩
  · show (enterKey tableBound t name value).length ≤ objectMaxCapacity
    exact (length_enterKey_le_max tableBound t name value).trans (max_le hlength (by decide))
  · rw [trim_object]
    congr 2
    conv_rhs => rw [← List.map_id (enterKey tableBound t name value)]
    exact List.map_congr_left fun entry hentry => Prod.ext rfl (hmembers' entry hentry).2

theorem accepted_removeKey {t : List (CString × JsonValue)} {depth : Nat}
    (h : Accepted (depth + 1) (.object ⟨t, t.length⟩)) (name : CString) :
    Accepted (depth + 1) (.object ⟨removeKey t name, (removeKey t name).length⟩) := by
  obtain ⟨⟨hlength, hnodup, hmembers⟩, htrim⟩ := h
  have hold : ∀ entry ∈ removeKey t name, entry ∈ t := fun entry hentry =>
    ((mem_removeKey hnodup).mp hentry).1
  refine ⟨⟨?_, keys_removeKey_nodup hnodup name, fun entry hentry => hmembers entry (hold entry hentry)⟩,
    ?_⟩
  · exact (length_removeKey_le t name).trans hlength
  · rw [trim_object]
    congr 2
    conv_rhs => rw [← List.map_id (removeKey t name)]
    exact List.map_congr_left fun entry hentry =>
      Prod.ext rfl (trim_getKey htrim (getKey_of_mem hnodup (hold entry hentry)))

namespace IsPartition

variable {p : JsonObject JsonValue} (h : IsPartition p)
include h

theorem setNumber_freeSpace (n : Int) :
    (jsonObjectSetNumber p freeSpaceName n).1 =
      { p with entries := replaceKey p.entries freeSpaceName (.number n) } := by
  rw [jsonObjectSetNumber, jsonObjectSetValue_of_mem _ _ h.freeSpace_mem]

theorem getObject_processes (n : Int) :
    jsonObjectGetObject
        (some { p with entries := replaceKey p.entries freeSpaceName (.number n) }) processesName =
      some ⟨processesOf p, (processesOf p).length⟩ := by
  have hget := h.getValue_processes
  unfold jsonObjectGetValue at hget
  simp only [jsonObjectGetObject, Option.bind_some, jsonObjectGetValue,
    getKey_replaceKey_of_ne _ names_distinct.1.symm, hget, jsonValueGetObject]

theorem trim_occupy (worker : Worker) :
    trim (.object (occupy worker p)) =
      .object (alter p (freeSpaceOf p - worker.processSize)
        (enterKey tableBound (processesOf p) worker.strProcessId (processValue (processOf worker)))) := by
  have htable := trim_jsonObjectSetValue h.accepted_processes.2 worker.strProcessId
    (subSchema worker.processSize worker.processDelay)
  rw [trim_subSchema] at htable
  rw [← h.trim_update _ htable]
  simp only [occupy, h.setNumber_freeSpace, updateMember, h.getObject_processes, freeSpaceOf]

theorem trim_vacate (worker : Worker) :
    trim (.object (vacate worker p)) =
      .object (alter p (freeSpaceOf p + worker.processSize)
        (removeKey (processesOf p) worker.strProcessId)) := by
  have htable := trim_jsonObjectRemove h.accepted_processes.2 worker.strProcessId
  rw [← h.trim_update _ htable]
  simp only [vacate, h.setNumber_freeSpace, jsonObjectDotremove, splitOn_processes,
    jsonObjectDotremoveSegments, h.getObject_processes, freeSpaceOf]

end IsPartition

/-! ## Sections on the file -/

/-- A critical section on the memory file, by a worker at the index it holds. -/
inductive Turn where
  | admits (worker : Worker) (memIndex : Nat)
  | releases (worker : Worker) (memIndex : Nat)

def Turn.worker : Turn → Worker
  | .admits worker _ | .releases worker _ => worker

def Turn.memIndex : Turn → Nat
  | .admits _ memIndex | .releases _ memIndex => memIndex

/-- `read_memory`, what the worker computes, and `write_memory`, on a complete file;
nothing where the write is called with NULL. -/
def Turn.run (content : Content) : Turn → Option Content
  | .admits worker memIndex =>
    (admission worker memIndex (reprint (cString content))).map stored
  | .releases worker memIndex =>
    (devolution worker memIndex (reprint (cString content))).map stored

/-- Sections one after the other, as the semaphore lets them through. -/
def runTurns (turns : List Turn) (content : Content) : Option Content :=
  turns.foldlM Turn.run content

/-- `new_space` and `new_space_return`. -/
def Turn.newSpace (freeSpace : Int) : Turn → Int
  | .admits worker _ => freeSpace - worker.processSize
  | .releases worker _ => freeSpace + worker.processSize

/-- A section whose free spaces are `int`s, as the source has them: there is no outcome
when the one read or the one computed is out of range. -/
def Turn.runInt (content : Content) (turn : Turn) : Option Content :=
  let freeSpace := freeSpaceIn (parseText (reprint (cString content))) turn.memIndex
  if InInt freeSpace ∧ InInt (turn.newSpace freeSpace) then turn.run content else none

def runTurnsInt (turns : List Turn) (content : Content) : Option Content :=
  turns.foldlM Turn.runInt content

/-- What the worker computes on the partition object at its index. -/
def Turn.update : Turn → JsonObject JsonValue → JsonObject JsonValue
  | .admits worker _ => occupy worker
  | .releases worker _ => vacate worker

/-- What a section does to the partition object at its index. -/
def Turn.act (turn : Turn) (p : JsonObject JsonValue) : JsonObject JsonValue :=
  match turn with
  | .admits worker _ => alter p (freeSpaceOf p - worker.processSize)
      (enterKey tableBound (processesOf p) worker.strProcessId (processValue (processOf worker)))
  | .releases worker _ => alter p (freeSpaceOf p + worker.processSize)
      (removeKey (processesOf p) worker.strProcessId)

/-- What a section does to the partition objects. -/
def Turn.change (partitions : List (JsonObject JsonValue)) (turn : Turn) :
    List (JsonObject JsonValue) :=
  partitions.modify turn.memIndex turn.act

/-- The file parses as an array of objects with a number under `free_space` and an object
under `processes`. -/
def WellFormed (content : Content) : Prop :=
  ∃ array, jsonParseString (cString content) = some (.array array) ∧
    ∀ value ∈ array.items, ∃ object, value = .object object ∧
      (∃ n, jsonObjectGetValue object freeSpaceName = some (.number n)) ∧
      ∃ q, jsonObjectGetValue object processesName = some (.object q)

/-- The partition object at an index, as a worker finds it in the file. -/
def partitionFound (content : Content) (i : Nat) : Option (JsonObject JsonValue) :=
  partitionAt (jsonParseString (cString content)) i

def partitionsFound (content : Content) : Nat := partitionCount (jsonParseString (cString content))

/-- The JSON array of partition objects. -/
def memoryOf (partitions : List (JsonObject JsonValue)) : JsonValue :=
  .array ⟨partitions.map .object, partitions.length⟩

/-- The file holds these partition objects. -/
structure Holds (content : Content) (partitions : List (JsonObject JsonValue)) : Prop where
  parsed : jsonParseString (cString content) = some (memoryOf partitions)
  isPartition : ∀ p ∈ partitions, IsPartition p

theorem holds_of_wellFormed {content : Content} (h : WellFormed content) :
    ∃ partitions, Holds content partitions := by
  obtain ⟨⟨items, capacity⟩, hparsed, hitems⟩ := h
  obtain ⟨⟨-, hstorable⟩, htrim⟩ := canonical_of_jsonParseString hparsed
  rw [trim_array] at htrim
  simp only [JsonValue.array.injEq, JsonArray.mk.injEq] at htrim
  obtain ⟨hmap, rfl⟩ := htrim
  have htrimmed : ∀ value ∈ items, trim value = value :=
    List.map_eq_map_iff.mp (hmap.trans (List.map_id items).symm)
  have hobjects : ∀ values : List JsonValue, (∀ value ∈ values, value ∈ items) →
      ∃ partitions : List (JsonObject JsonValue), values = partitions.map .object ∧
        ∀ p ∈ partitions, IsPartition p := by
    intro values
    induction values with
    | nil => exact fun _ => ⟨[], rfl, fun p hp => nomatch hp⟩
    | cons value rest ih =>
      intro hmem
      obtain ⟨partitions, rfl, hrest⟩ := ih fun v hv => hmem v (List.mem_cons_of_mem _ hv)
      have hvalue := hmem value List.mem_cons_self
      obtain ⟨object, rfl, hnumber, hobject⟩ := hitems value hvalue
      refine ⟨object :: partitions, rfl, fun p hp => ?_⟩
      rcases List.mem_cons.mp hp with rfl | hp
      · exact ⟨⟨hstorable _ hvalue, htrimmed _ hvalue⟩, hnumber, hobject⟩
      · exact hrest p hp
  obtain ⟨partitions, rfl, hpartitions⟩ := hobjects items fun _ hv => hv
  refine ⟨partitions, ?_, hpartitions⟩
  rw [hparsed, memoryOf, List.length_map]

theorem Holds.wellFormed {content : Content} {partitions : List (JsonObject JsonValue)}
    (h : Holds content partitions) : WellFormed content := by
  refine ⟨_, h.parsed, fun value hvalue => ?_⟩
  obtain ⟨p, hp, rfl⟩ := List.mem_map.mp hvalue
  exact ⟨p, rfl, (h.isPartition p hp).freeSpace_number, (h.isPartition p hp).processes_object⟩

theorem canonical_memoryOf {partitions : List (JsonObject JsonValue)}
    (hlength : partitions.length ≤ arrayMaxCapacity) (h : ∀ p ∈ partitions, IsPartition p) :
    Canonical (memoryOf partitions) := by
  have haccepted : ∀ value ∈ partitions.map JsonValue.object, Accepted maxNesting value := by
    intro value hvalue
    obtain ⟨p, hp, rfl⟩ := List.mem_map.mp hvalue
    exact (h p hp).accepted
  constructor
  · refine ⟨?_, fun value hvalue => (haccepted value hvalue).1⟩
    show (partitions.map JsonValue.object).length ≤ arrayMaxCapacity
    rwa [List.length_map]
  · rw [memoryOf, trim_array, List.length_map]
    congr 2
    conv_rhs => rw [← List.map_id (partitions.map JsonValue.object)]
    exact List.map_congr_left fun value hvalue => (haccepted value hvalue).2

/-- A file written with a canonical memory holds it. -/
theorem holds_stored {partitions : List (JsonObject JsonValue)}
    (hlength : partitions.length ≤ arrayMaxCapacity) (h : ∀ p ∈ partitions, IsPartition p) :
    Holds (stored (compact (memoryOf partitions))) partitions := by
  refine ⟨?_, h⟩
  rw [cString_stored_compact]
  exact jsonParseString_serialize false (canonical_memoryOf hlength h)

namespace Holds

variable {content : Content} {partitions : List (JsonObject JsonValue)} (h : Holds content partitions)
include h

theorem length_le : partitions.length ≤ arrayMaxCapacity := by
  have hlength := (canonical_of_jsonParseString h.parsed).1.1
  rwa [List.length_map] at hlength

theorem partitionFound_eq (i : Nat) : partitionFound content i = partitions[i]? := by
  rw [partitionFound, h.parsed]
  simp only [partitionAt, memoryOf, jsonValueGetArray, jsonArrayGetObject, Option.bind_some, jsonArrayGetValue,
    List.getElem?_map]
  cases partitions[i]? <;> rfl

theorem partitionsFound_eq : partitionsFound content = partitions.length := by
  rw [partitionsFound, h.parsed]
  simp [partitionCount, memoryOf, jsonValueGetArray, jsonArrayGetCount]

/-- What the worker parses is what the file holds. -/
theorem parseText_reprint : parseText (reprint (cString content)) = some (memoryOf partitions) := by
  rw [reprint, h.parsed]
  exact jsonParseString_pretty (canonical_of_jsonParseString h.parsed)

/-- An update of one object, seen through printing and parsing. -/
theorem trim_updateArrayObject {update f : JsonObject JsonValue → JsonObject JsonValue}
    (hupdate : ∀ p, IsPartition p → trim (.object (update p)) = .object (f p)) (k : Nat) :
    trim (updateArrayObject k update (memoryOf partitions)) = memoryOf (partitions.modify k f) := by
  rw [memoryOf, updateArrayObject, trim_array, memoryOf]
  congr 2
  · refine List.ext_getElem? fun i => ?_
    rw [List.getElem?_map, List.getElem?_modify, List.getElem?_map, List.getElem?_map,
      List.getElem?_modify]
    cases hp : partitions[i]? with
    | none => rfl
    | some p =>
      have hpartition := h.isPartition p (List.mem_of_getElem? hp)
      by_cases hi : k = i
      · simp only [if_pos hi]
        exact congrArg some (hupdate p hpartition)
      · simp only [if_neg hi]
        exact congrArg some hpartition.accepted.2
  · simp

end Holds

theorem Turn.act_isPartition (turn : Turn) {p : JsonObject JsonValue} (h : IsPartition p) :
    IsPartition (turn.act p) := by
  cases turn with
  | admits worker memIndex =>
    apply h.alter_isPartition
    apply accepted_enterKey h.accepted_processes (nul_not_mem_decimal _)
    exact ⟨storable_processValue _ _, trim_processValue _⟩
  | releases worker memIndex =>
    apply h.alter_isPartition
    exact accepted_removeKey h.accepted_processes _

/-- A section leaves the names of the object and every other member alone. -/
theorem Turn.keys_act (turn : Turn) (p : JsonObject JsonValue) :
    keys (turn.act p).entries = keys p.entries := by
  cases turn <;> exact keys_alter _ _ _

theorem Turn.getValue_act (turn : Turn) (p : JsonObject JsonValue) {name : CString}
    (hfree : name ≠ freeSpaceName) (hprocesses : name ≠ processesName) :
    jsonObjectGetValue (turn.act p) name = jsonObjectGetValue p name := by
  cases turn <;> exact getValue_alter_of_ne _ _ _ hfree hprocesses

/-- Of the table, a section changes the entry of its worker only. -/
theorem Turn.getKey_act (turn : Turn) {p : JsonObject JsonValue} (h : IsPartition p) {key : CString}
    (hkey : key ≠ turn.worker.strProcessId) :
    getKey (processesOf (turn.act p)) key = getKey (processesOf p) key := by
  cases turn with
  | admits worker memIndex =>
    rw [Turn.act, h.processesOf_alter]
    exact getKey_enterKey_of_ne _ _ hkey _
  | releases worker memIndex =>
    rw [Turn.act, h.processesOf_alter, getKey_removeKey h.processes_nodup]
    exact if_neg hkey

theorem Turn.getElem?_change_self (turn : Turn) {partitions : List (JsonObject JsonValue)}
    {p : JsonObject JsonValue} (h : partitions[turn.memIndex]? = some p) :
    (turn.change partitions)[turn.memIndex]? = some (turn.act p) := by
  rw [Turn.change, List.getElem?_modify, h]
  simp

theorem Turn.getElem?_change_of_ne (turn : Turn) (partitions : List (JsonObject JsonValue)) {i : Nat}
    (h : i ≠ turn.memIndex) : (turn.change partitions)[i]? = partitions[i]? := by
  rw [Turn.change, List.getElem?_modify]
  simp [h.symm]

theorem isPartition_change {partitions : List (JsonObject JsonValue)}
    (h : ∀ p ∈ partitions, IsPartition p) (turn : Turn) :
    ∀ p ∈ turn.change partitions, IsPartition p := by
  intro p hp
  obtain ⟨i, hi⟩ := List.mem_iff_getElem?.mp hp
  rw [Turn.change, List.getElem?_modify] at hi
  obtain ⟨old, hold, rfl⟩ := Option.map_eq_some_iff.mp hi
  have hpartition := h old (List.mem_of_getElem? hold)
  split
  · exact turn.act_isPartition hpartition
  · exact hpartition

theorem Turn.trim_update (turn : Turn) {p : JsonObject JsonValue} (h : IsPartition p) :
    trim (.object (turn.update p)) = .object (turn.act p) := by
  cases turn with
  | admits worker memIndex => exact h.trim_occupy worker
  | releases worker memIndex => exact h.trim_vacate worker

section Held

variable {content : Content} {partitions : List (JsonObject JsonValue)} (h : Holds content partitions)
  (turn : Turn)
include h

/-- The value a section hands to the write, cut down as a parser does. -/
theorem trim_turn :
    trim (updateArrayObject turn.memIndex turn.update (memoryOf partitions)) =
      memoryOf (turn.change partitions) :=
  h.trim_updateArrayObject (fun _ hp => turn.trim_update hp) turn.memIndex

theorem length_change_le : (turn.change partitions).length ≤ arrayMaxCapacity := by
  rw [Turn.change, List.length_modify]
  exact h.length_le

theorem canonical_change : Canonical (memoryOf (turn.change partitions)) :=
  canonical_memoryOf (length_change_le h turn) (isPartition_change h.isPartition turn)

theorem Turn.run_eq :
    turn.run content =
      some (stored (compact (updateArrayObject turn.memIndex turn.update (memoryOf partitions)))) := by
  cases turn with
  | admits worker memIndex =>
    rw [Turn.run, admission, h.parseText_reprint]
    rfl
  | releases worker memIndex =>
    rw [Turn.run, devolution, h.parseText_reprint]
    rfl

/-- A section does to the file what it does to the partition objects. -/
theorem Turn.run_holds :
    ∃ content', turn.run content = some content' ∧ Holds content' (turn.change partitions) := by
  refine ⟨_, Turn.run_eq h turn, ?_⟩
  rw [← compact_trim, trim_turn h turn]
  exact holds_stored (length_change_le h turn) (isPartition_change h.isPartition turn)

end Held

/-- A run of sections acts on each partition object by itself. -/
theorem getElem?_foldl_change (turns : List Turn) (partitions : List (JsonObject JsonValue)) (i : Nat) :
    (turns.foldl Turn.change partitions)[i]? =
      partitions[i]?.map ((turns.filter fun turn => turn.memIndex = i).foldl fun p turn => turn.act p) :=
  getElem?_foldl_modify Turn.memIndex Turn.act turns partitions i

theorem length_foldl_change (turns : List Turn) (partitions : List (JsonObject JsonValue)) :
    (turns.foldl Turn.change partitions).length = partitions.length :=
  length_foldl_modify Turn.memIndex Turn.act turns partitions

theorem runTurns_holds (turns : List Turn) : ∀ {content : Content}
    {partitions : List (JsonObject JsonValue)}, Holds content partitions →
    ∃ content', runTurns turns content = some content' ∧
      Holds content' (turns.foldl Turn.change partitions) := by
  induction turns with
  | nil => exact fun h => ⟨_, rfl, h⟩
  | cons turn turns ih =>
    intro content partitions h
    obtain ⟨content₁, hrun, hholds⟩ := Turn.run_holds h turn
    obtain ⟨content₂, hruns, hholds⟩ := ih hholds
    refine ⟨content₂, ?_, hholds⟩
    rw [runTurns, List.foldlM_cons, hrun]
    exact hruns

/-! ## Sections in `int` -/

/-- Every free space of a partition is an `int` through its sections. -/
def StaysInt (space : Int) : List Turn → Prop
  | [] => True
  | turn :: turns =>
    InInt space ∧ InInt (turn.newSpace space) ∧ StaysInt (turn.newSpace space) turns

instance decidableStaysInt : (space : Int) → (turns : List Turn) → Decidable (StaysInt space turns)
  | _, [] => .isTrue trivial
  | space, turn :: turns =>
    have := decidableStaysInt (turn.newSpace space) turns
    inferInstanceAs (Decidable (_ ∧ _ ∧ _))

/-- So it is in every partition of the file. -/
def FitsInt (content : Content) (turns : List Turn) : Prop :=
  ∀ i p, partitionFound content i = some p →
    StaysInt (freeSpaceOf p) (turns.filter fun turn => turn.memIndex = i)

theorem Turn.freeSpaceOf_act (turn : Turn) {p : JsonObject JsonValue} (h : IsPartition p) :
    freeSpaceOf (turn.act p) = turn.newSpace (freeSpaceOf p) := by
  cases turn <;> exact h.freeSpaceOf_alter _ _

theorem Holds.freeSpaceIn_eq {content : Content} {partitions : List (JsonObject JsonValue)}
    (h : Holds content partitions) {k : Nat} {p : JsonObject JsonValue} (hp : partitions[k]? = some p) :
    freeSpaceIn (parseText (reprint (cString content))) k = freeSpaceOf p := by
  rw [h.parseText_reprint, ← h.parsed, freeSpaceIn]
  exact congrArg (jsonObjectGetNumber · freeSpaceName) ((h.partitionFound_eq k).trans hp)

/-- The sections behind the first see the free space it leaves in its partition, and the
free spaces of the others as they were. -/
theorem fitsInt_cons {content content' : Content} {partitions : List (JsonObject JsonValue)}
    {turn : Turn} (h : Holds content partitions) (h' : Holds content' (turn.change partitions))
    {p : JsonObject JsonValue} (hp : partitions[turn.memIndex]? = some p) (turns : List Turn) :
    FitsInt content (turn :: turns) ↔
      InInt (freeSpaceOf p) ∧ InInt (turn.newSpace (freeSpaceOf p)) ∧ FitsInt content' turns := by
  have hact := turn.freeSpaceOf_act (h.isPartition p (List.mem_of_getElem? hp))
  have hself := turn.getElem?_change_self hp
  have hmine : (turn :: turns).filter (fun other => other.memIndex = turn.memIndex) =
      turn :: turns.filter fun other => other.memIndex = turn.memIndex :=
    List.filter_cons_of_pos (decide_eq_true rfl)
  have hothers : ∀ i, i ≠ turn.memIndex → (turn :: turns).filter (fun other => other.memIndex = i) =
      turns.filter fun other => other.memIndex = i := fun i hi =>
    List.filter_cons_of_neg (by simpa using hi.symm)
  simp only [FitsInt, h.partitionFound_eq, h'.partitionFound_eq]
  constructor
  · intro hfits
    have hhere := hfits turn.memIndex p hp
    rw [hmine] at hhere
    refine ⟨hhere.1, hhere.2.1, fun i q hq => ?_⟩
    by_cases hi : i = turn.memIndex
    · subst hi
      obtain rfl := Option.some.inj (hself.symm.trans hq)
      rw [hact]
      exact hhere.2.2
    · rw [turn.getElem?_change_of_ne _ hi] at hq
      have hthere := hfits i q hq
      rwa [hothers i hi] at hthere
  · rintro ⟨hspace, hnew, hrest⟩ i q hq
    by_cases hi : i = turn.memIndex
    · subst hi
      obtain rfl := Option.some.inj (hp.symm.trans hq)
      have hhere := hrest turn.memIndex _ hself
      rw [hact] at hhere
      rw [hmine]
      exact ⟨hspace, hnew, hhere⟩
    · rw [hothers i hi]
      exact hrest i q ((turn.getElem?_change_of_ne _ hi).trans hq)

theorem Turn.run_of_runInt {turn : Turn} {content content' : Content}
    (h : turn.runInt content = some content') : turn.run content = some content' := by
  rw [Turn.runInt] at h
  split at h
  · exact h
  · cases h

theorem runTurns_of_runTurnsInt {turns : List Turn} : ∀ {content content' : Content},
    runTurnsInt turns content = some content' → runTurns turns content = some content' := by
  induction turns with
  | nil => exact fun h => h
  | cons turn turns ih =>
    intro content content' h
    obtain ⟨content₁, hturn, hturns⟩ := Option.bind_eq_some_iff.mp h
    exact Option.bind_eq_some_iff.mpr ⟨content₁, Turn.run_of_runInt hturn, ih hturns⟩

/-- A run in `int` is a run in which no free space leaves the range. -/
theorem runTurnsInt_iff (turns : List Turn) : ∀ {content content' : Content}
    {partitions : List (JsonObject JsonValue)}, Holds content partitions →
    (∀ turn ∈ turns, turn.memIndex < partitions.length) →
    (runTurnsInt turns content = some content' ↔
      runTurns turns content = some content' ∧ FitsInt content turns) := by
  induction turns with
  | nil =>
    intro content content' partitions _ _
    exact (and_iff_left fun _ _ _ => trivial).symm
  | cons turn turns ih =>
    intro content content' partitions h hplaced
    obtain ⟨content₁, hrun, h₁⟩ := Turn.run_holds h turn
    obtain ⟨p, hp⟩ : ∃ p, partitions[turn.memIndex]? = some p :=
      ⟨_, List.getElem?_eq_getElem (hplaced turn List.mem_cons_self)⟩
    have hrest : ∀ other ∈ turns, other.memIndex < (turn.change partitions).length :=
      fun other hother => by
        rw [Turn.change, List.length_modify]
        exact hplaced other (List.mem_cons_of_mem _ hother)
    have hruns : runTurns (turn :: turns) content = runTurns turns content₁ := by
      rw [runTurns, List.foldlM_cons, hrun]
      rfl
    rw [hruns, fitsInt_cons h h₁ hp, runTurnsInt, List.foldlM_cons, Turn.runInt,
      h.freeSpaceIn_eq hp, hrun]
    by_cases hint : InInt (freeSpaceOf p) ∧ InInt (turn.newSpace (freeSpaceOf p))
    · rw [if_pos hint, Option.bind_eq_bind, Option.bind_some]
      exact (ih h₁ hrest).trans (and_congr_right fun _ =>
        ⟨fun hfits => ⟨hint.1, hint.2, hfits⟩, fun hfits => hfits.2.2⟩)
    · rw [if_neg hint]
      exact ⟨fun hnone => absurd hnone (Option.some_ne_none content').symm,
        fun hsome => absurd ⟨hsome.2.1, hsome.2.2.1⟩ hint⟩

theorem jsonParseString_memoryFile {frames : List Frame} (a : Books)
    (h : Framed frames a.partitions) : jsonParseString (cString (memoryFile frames a.partitions)) =
      some (memoryValue frames a.partitions) := by
  rw [memoryFile, cString_stored_compact]
  exact jsonParseString_serialize false (canonical_memoryValue a h)

/-- The memory of an allocator is well formed. -/
theorem wellFormed_memoryFile {frames : List Frame} (a : Books) (h : Framed frames a.partitions) :
    WellFormed (memoryFile frames a.partitions) := by
  refine ⟨_, jsonParseString_memoryFile a h, fun value hvalue => ?_⟩
  obtain ⟨i, hi⟩ := List.mem_iff_getElem?.mp hvalue
  rw [getElem?_memory] at hi
  split at hi
  · next frame p _ _ =>
    obtain rfl := Option.some.inj hi
    exact ⟨_, rfl, ⟨_, frame.getKey_freeSpace _ _⟩, ⟨_, frame.getKey_processes _ _⟩⟩
  · cases hi

theorem processesOf_frame (frame : Frame) (freeSpace : Int) (q : JsonObject JsonValue) :
    processesOf (frame.object freeSpace (.object q)) = q.entries := by
  rw [processesOf, Frame.object, getProcesses_fields]
  rfl

theorem WellFormed.runTurns {content content' : Content} (h : WellFormed content) {turns : List Turn}
    (hrun : runTurns turns content = some content') : WellFormed content' := by
  obtain ⟨partitions, hholds⟩ := holds_of_wellFormed h
  obtain ⟨content'', hrun', hholds'⟩ := runTurns_holds turns hholds
  obtain rfl := Option.some.inj (hrun.symm.trans hrun')
  exact hholds'.wellFormed

end DynamicPartitions.Refinement.Sections
