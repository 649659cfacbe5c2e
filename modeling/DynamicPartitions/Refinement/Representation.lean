import DynamicPartitions.Abstract.Accounting
import DynamicPartitions.Program.WorkerThread

/-!
# Partitions as JSON

A frame is what a partition object of the schema fixes: its names in their order, its
size and whatever else it holds. Filled in with the free space and the table of a
partition it is the object the file holds, and what the worker computes on the object
is what the partition does.
-/
namespace DynamicPartitions.Refinement.Representation

open DynamicPartitions.Lib.Table
open DynamicPartitions.Parson.Value
open DynamicPartitions.Parson.Parser
open DynamicPartitions.Parson.Serializer
open DynamicPartitions.Parson.Scalars
open DynamicPartitions.Parson.RoundTrip
open DynamicPartitions.Parson.Acceptance
open DynamicPartitions.Abstract.Residents
open DynamicPartitions.Program.Algorithms
open DynamicPartitions.Program.WorkerThread

/-- How many entries a trimmed object may have and still take another. -/
def tableBound : Nat := 480

/-! ## Objects as they are parsed -/

/-- A value whose containers are cut down has cut-down members. -/
theorem map_trim_entries {p : JsonObject JsonValue} (h : trim (.object p) = .object p) :
    p.entries.map (Prod.map id trim) = p.entries ∧ p.capacity = p.entries.length := by
  rw [trim_object] at h
  obtain ⟨hentries, hcapacity⟩ := JsonObject.mk.inj (JsonValue.object.inj h)
  exact ⟨hentries, hcapacity.symm⟩

theorem trim_getKey {p : JsonObject JsonValue} (h : trim (.object p) = .object p) {name : CString}
    {value : JsonValue} (hget : getKey p.entries name = some value) : trim value = value := by
  have hmap := getKey_map Function.injective_id trim p.entries name
  rw [(map_trim_entries h).1, id, hget, Option.map_some] at hmap
  exact (Option.some.inj hmap).symm

theorem map_trim_replaceKey (entries : List (CString × JsonValue)) (name : CString)
    (value : JsonValue) : (replaceKey entries name value).map (Prod.map id trim) =
      replaceKey (entries.map (Prod.map id trim)) name (trim value) :=
  (map_replaceKey Function.injective_id trim entries name value).symm

/-- Setting a name in a parsed object and parsing the result back enters the name, unless
the object has no room. -/
theorem trim_jsonObjectSetValue {q : JsonObject JsonValue} (h : trim (.object q) = .object q)
    (name : CString) (value : JsonValue) :
    trim (.object (jsonObjectSetValue q name value).1) =
      .object ⟨enterKey tableBound q.entries name (trim value),
        (enterKey tableBound q.entries name (trim value)).length⟩ := by
  obtain ⟨hentries, hcapacity⟩ := map_trim_entries h
  have hroom : HasRoom q ↔ q.entries.length ≤ tableBound := by
    have hfull : q = ⟨q.entries, q.entries.length⟩ := by rw [← hcapacity]
    rw [hfull]
    exact hasRoom_trimmed q.entries
  have hmap : (jsonObjectSetValue q name value).1.entries.map (Prod.map id trim) =
      enterKey tableBound q.entries name (trim value) := by
    rw [entries_jsonObjectSetValue, enterKey]
    simp only [hroom]
    split_ifs
    · rw [map_trim_replaceKey, hentries]
    · rw [List.map_append, hentries]
      rfl
    · exact hentries
  have hlength := congrArg List.length hmap
  rw [List.length_map] at hlength
  rw [trim_object, hmap, hlength]

theorem trim_jsonObjectRemove {q : JsonObject JsonValue} (h : trim (.object q) = .object q)
    (name : CString) :
    trim (.object (jsonObjectRemove q name).1) =
      .object ⟨removeKey q.entries name, (removeKey q.entries name).length⟩ := by
  have hmap := map_removeKey Function.injective_id trim q.entries name
  rw [(map_trim_entries h).1, id] at hmap
  rw [trim_object, entries_jsonObjectRemove, ← hmap]

/-! ## Partition objects -/

/-- The members of a partition object, with its two variable members filled in. -/
def fill (freeSpace : Int) (processes : JsonValue) (entry : CString × JsonValue) :
    CString × JsonValue :=
  if entry.1 = freeSpaceName then (entry.1, .number freeSpace)
  else if entry.1 = processesName then (entry.1, processes)
  else entry

structure Frame where
  entries : List (CString × JsonValue)
  size : Int
  names_nodup : (keys entries).Nodup
  length_le : entries.length ≤ objectMaxCapacity
  members : ∀ entry ∈ entries, nul ∉ entry.1 ∧ Accepted (maxNesting - 1) entry.2
  size_eq : getKey entries sizeName = some (.number size)
  freeSpace_mem : freeSpaceName ∈ keys entries
  processes_mem : processesName ∈ keys entries
  size_nonneg : 0 ≤ size
  size_le : size ≤ intMax

theorem names_distinct : freeSpaceName ≠ processesName ∧ sizeName ≠ freeSpaceName ∧
    sizeName ≠ processesName ∧ sizeName ≠ delayName := by decide

namespace Frame

def fields (frame : Frame) (freeSpace : Int) (processes : JsonValue) : List (CString × JsonValue) :=
  frame.entries.map (fill freeSpace processes)

variable (frame : Frame) (freeSpace : Int) (processes : JsonValue)

theorem fill_fst (entry : CString × JsonValue) : (fill freeSpace processes entry).1 = entry.1 := by
  unfold fill
  split_ifs <;> rfl

@[simp] theorem keys_fields : keys (frame.fields freeSpace processes) = keys frame.entries := by
  unfold fields keys
  rw [List.map_map]
  exact List.map_congr_left fun entry _ => fill_fst freeSpace processes entry

theorem fields_nodup : (keys (frame.fields freeSpace processes)).Nodup := by
  rw [keys_fields]
  exact frame.names_nodup

theorem getKey_fill {name : CString} {value : JsonValue} (h : (name, value) ∈ frame.entries) :
    getKey (frame.fields freeSpace processes) name = some (fill freeSpace processes (name, value)).2 := by
  refine getKey_of_mem (frame.fields_nodup freeSpace processes) ?_
  have hmem := List.mem_map_of_mem (f := fill freeSpace processes) h
  have hpair : fill freeSpace processes (name, value) =
      (name, (fill freeSpace processes (name, value)).2) :=
    Prod.ext (fill_fst freeSpace processes _) rfl
  rwa [hpair] at hmem

theorem getKey_freeSpace :
    getKey (frame.fields freeSpace processes) freeSpaceName = some (.number freeSpace) := by
  obtain ⟨⟨name, value⟩, hmem, rfl⟩ := List.mem_map.mp frame.freeSpace_mem
  rw [getKey_fill frame freeSpace processes hmem]
  simp [fill]

theorem getKey_processes :
    getKey (frame.fields freeSpace processes) processesName = some processes := by
  obtain ⟨⟨name, value⟩, hmem, hname⟩ := List.mem_map.mp frame.processes_mem
  simp only at hname
  subst hname
  rw [getKey_fill frame freeSpace processes hmem]
  simp [fill, names_distinct.1.symm]

theorem getKey_size :
    getKey (frame.fields freeSpace processes) sizeName = some (.number frame.size) := by
  rw [getKey_fill frame freeSpace processes (mem_of_getKey frame.size_eq)]
  simp [fill, names_distinct.2.1, names_distinct.2.2.1]

theorem replaceKey_freeSpace (newSpace : Int) :
    replaceKey (frame.fields freeSpace processes) freeSpaceName (.number newSpace) =
      frame.fields newSpace processes := by
  rw [replaceKey_eq_map (frame.fields_nodup freeSpace processes)]
  unfold fields
  rw [List.map_map]
  refine List.map_congr_left fun entry _ => ?_
  simp only [Function.comp_apply, fill_fst]
  unfold fill
  split_ifs <;> simp_all

theorem replaceKey_processes (newProcesses : JsonValue) :
    replaceKey (frame.fields freeSpace processes) processesName newProcesses =
      frame.fields freeSpace newProcesses := by
  rw [replaceKey_eq_map (frame.fields_nodup freeSpace processes)]
  unfold fields
  rw [List.map_map]
  refine List.map_congr_left fun entry _ => ?_
  simp only [Function.comp_apply, fill_fst]
  have hne := names_distinct.1
  unfold fill
  split_ifs <;> simp_all

/-- The object of a partition, trimmed as after parsing. -/
def object : JsonObject JsonValue := ⟨frame.fields freeSpace processes, frame.entries.length⟩

theorem trim_fields (capacity : Nat) :
    trim (.object ⟨frame.fields freeSpace processes, capacity⟩) =
      .object (frame.object freeSpace (trim processes)) := by
  have hmap : (frame.fields freeSpace processes).map (Prod.map id trim) =
      frame.fields freeSpace (trim processes) := by
    unfold fields
    rw [List.map_map]
    refine List.map_congr_left fun entry hentry => ?_
    obtain ⟨name, value⟩ := entry
    have hvalue := (frame.members _ hentry).2.2
    simp only [Function.comp_apply]
    unfold fill
    split_ifs
    · rfl
    · rfl
    · exact Prod.ext rfl hvalue
  rw [trim_object, hmap]
  simp [object, fields]

theorem accepted_object (h : Accepted (maxNesting - 1) processes) :
    Accepted maxNesting (.object (frame.object freeSpace processes)) := by
  refine ⟨⟨?_, frame.fields_nodup freeSpace processes, ?_⟩, ?_⟩
  · simp only [object, fields, List.length_map]
    exact frame.length_le
  · intro entry hentry
    obtain ⟨old, hold, rfl⟩ := List.mem_map.mp hentry
    obtain ⟨hname, hvalue⟩ := frame.members old hold
    rw [fill_fst]
    refine ⟨hname, ?_⟩
    unfold fill
    split_ifs
    · trivial
    · exact h.1
    · exact hvalue.1
  · rw [object, trim_fields, h.2]
    rfl

end Frame

/-! ## Tables under thread ids -/

/-- The name of an entry is the decimal thread id. -/
def idName (id : Nat) : CString := decimal id

theorem idName_injective : Function.Injective idName := fun _ _ h =>
  Int.ofNat_inj.mp (decimal_injective h)

theorem nul_not_mem_idName (id : Nat) : nul ∉ idName id := nul_not_mem_decimal id

section Table

variable {V : Type} (f : V → JsonValue)

/-- The object of a table, trimmed as after parsing. -/
def tableObject (entries : List (Nat × V)) : JsonObject JsonValue :=
  ⟨entries.map (Prod.map idName f), entries.length⟩

theorem keys_tableObject (entries : List (Nat × V)) :
    keys (tableObject f entries).entries = (keys entries).map idName := by
  simp [keys, tableObject]

variable {f} (hf : ∀ v, trim (f v) = f v)
include hf

theorem map_trim_tableObject (entries : List (Nat × V)) :
    (tableObject f entries).entries.map (Prod.map id trim) = (tableObject f entries).entries := by
  rw [tableObject, List.map_map]
  exact List.map_congr_left fun entry _ => Prod.ext rfl (hf entry.2)

theorem trim_tableObject (entries : List (Nat × V)) (capacity : Nat) :
    trim (.object ⟨(tableObject f entries).entries, capacity⟩) = .object (tableObject f entries) := by
  rw [trim_object, map_trim_tableObject hf, tableObject, List.length_map]

/-- Inserting under a thread id and parsing the result back enters the id, unless the
object has no room. -/
theorem trim_setValue (entries : List (Nat × V)) (key : Nat) (v : V) {value : JsonValue}
    (hvalue : trim value = f v) :
    trim (.object (jsonObjectSetValue (tableObject f entries) (idName key) value).1) =
      .object (tableObject f (enterKey tableBound entries key v)) := by
  have htrim : trim (.object (tableObject f entries)) = .object (tableObject f entries) :=
    trim_tableObject hf entries _
  have henter : enterKey tableBound (tableObject f entries).entries (idName key) (f v) =
      (tableObject f (enterKey tableBound entries key v)).entries :=
    map_enterKey idName_injective f tableBound entries key v
  rw [trim_jsonObjectSetValue htrim, hvalue, henter, tableObject, List.length_map]

/-- Removing under a thread id forgets the id. -/
theorem trim_remove (entries : List (Nat × V)) (key : Nat) :
    trim (.object (jsonObjectRemove (tableObject f entries) (idName key)).1) =
      .object (tableObject f (removeKey entries key)) := by
  have htrim : trim (.object (tableObject f entries)) = .object (tableObject f entries) :=
    trim_tableObject hf entries _
  have hremove : removeKey (tableObject f entries).entries (idName key) =
      (tableObject f (removeKey entries key)).entries := map_removeKey idName_injective f entries key
  rw [trim_jsonObjectRemove htrim, hremove, tableObject, List.length_map]

theorem accepted_tableObject {depth : Nat} (hdepth : ∀ v, Storable depth (f v))
    {entries : List (Nat × V)} (hnodup : (keys entries).Nodup)
    (hlength : entries.length ≤ tableBound + 1) :
    Accepted (depth + 1) (.object (tableObject f entries)) := by
  refine ⟨⟨?_, ?_, ?_⟩, trim_tableObject hf entries _⟩
  · simp only [tableObject, List.length_map]
    unfold tableBound at hlength
    unfold objectMaxCapacity
    omega
  · rw [keys_tableObject]
    exact (List.nodup_map_iff idName_injective).mpr hnodup
  · intro entry hentry
    obtain ⟨⟨id, v⟩, -, rfl⟩ := List.mem_map.mp hentry
    exact ⟨nul_not_mem_idName id, hdepth v⟩

end Table

/-! ## The process table -/

def processValue (process : Process) : JsonValue :=
  .object ⟨[(sizeName, .number process.size), (delayName, .number process.delay)], 2⟩

def tableValue (processes : List (Nat × Process)) : JsonValue :=
  .object (tableObject processValue processes)

/-- The record of a worker. -/
def processOf (worker : Worker) : Process := ⟨worker.processSize, worker.processDelay⟩

theorem trim_subSchema (worker : Worker) :
    trim (subSchema worker.processSize worker.processDelay) = processValue (processOf worker) := rfl

theorem trim_processValue (process : Process) : trim (processValue process) = processValue process := rfl

theorem trim_tableValue (processes : List (Nat × Process)) :
    trim (tableValue processes) = tableValue processes :=
  trim_tableObject trim_processValue processes _

theorem storable_processValue (depth : Nat) (process : Process) :
    Storable (depth + 2) (processValue process) := by
  refine ⟨show 2 ≤ objectMaxCapacity by decide, ?_, ?_⟩
  · simpa using names_distinct.2.2.2
  · intro entry hentry
    simp only [List.mem_cons, List.not_mem_nil, or_false] at hentry
    rcases hentry with rfl | rfl
    · exact ⟨show nul ∉ sizeName by decide, trivial⟩
    · exact ⟨show nul ∉ delayName by decide, trivial⟩

theorem accepted_tableValue (depth : Nat) {processes : List (Nat × Process)} (hnodup : (keys processes).Nodup)
    (hlength : processes.length ≤ tableBound + 1) :
    Accepted (depth + 3) (tableValue processes) :=
  accepted_tableObject trim_processValue (storable_processValue depth) hnodup hlength

/-! ## What a worker computes on a partition -/

theorem freeSpace_fields (frame : Frame) (freeSpace : Int) (processes : JsonValue) (capacity : Nat) :
    jsonObjectGetNumber (some ⟨frame.fields freeSpace processes, capacity⟩) freeSpaceName =
      freeSpace := by
  simp [jsonObjectGetNumber, jsonObjectGetValue, frame.getKey_freeSpace, jsonValueGetNumber]

theorem setFreeSpace_fields (frame : Frame) (freeSpace newSpace : Int) (processes : JsonValue)
    (capacity : Nat) :
    (jsonObjectSetNumber ⟨frame.fields freeSpace processes, capacity⟩ freeSpaceName newSpace).1 =
      ⟨frame.fields newSpace processes, capacity⟩ := by
  have hmem : freeSpaceName ∈ keys (frame.fields freeSpace processes) := by
    rw [Frame.keys_fields]
    exact frame.freeSpace_mem
  rw [jsonObjectSetNumber, jsonObjectSetValue_of_mem _ _ hmem, Frame.replaceKey_freeSpace]

theorem getProcesses_fields (frame : Frame) (freeSpace : Int) (processes : JsonObject JsonValue)
    (capacity : Nat) :
    jsonObjectGetObject (some ⟨frame.fields freeSpace (.object processes), capacity⟩) processesName =
      some processes := by
  simp [jsonObjectGetObject, jsonObjectGetValue, frame.getKey_processes, jsonValueGetObject]

theorem occupy_fields (frame : Frame) (worker : Worker) (freeSpace : Int)
    (processes : JsonObject JsonValue) (capacity : Nat) :
    occupy worker ⟨frame.fields freeSpace (.object processes), capacity⟩ =
      ⟨frame.fields (freeSpace - worker.processSize)
        (.object (jsonObjectSetValue processes worker.strProcessId
          (subSchema worker.processSize worker.processDelay)).1), capacity⟩ := by
  simp only [occupy, freeSpace_fields, setFreeSpace_fields, updateMember, getProcesses_fields,
    Frame.replaceKey_processes]

theorem splitOn_processes (worker : Worker) :
    (processesName ++ '.' :: worker.strProcessId).splitOn '.' = [processesName, worker.strProcessId] := by
  have hname : '.' ∉ processesName := by decide
  have hid : '.' ∉ worker.strProcessId := by
    unfold Worker.strProcessId
    rw [decimal_natCast]
    exact fun h => digit_ne (isDigit_of_mem_toDigits h) rfl rfl
  have hsegments : ∀ l ∈ [processesName, worker.strProcessId], '.' ∉ l := by
    intro l hl
    simp only [List.mem_cons, List.not_mem_nil, or_false] at hl
    rcases hl with rfl | rfl
    · exact hname
    · exact hid
  simpa [List.intercalate] using List.splitOn_intercalate '.' hsegments (by simp)

theorem vacate_fields (frame : Frame) (worker : Worker) (freeSpace : Int)
    (processes : JsonObject JsonValue) (capacity : Nat) :
    vacate worker ⟨frame.fields freeSpace (.object processes), capacity⟩ =
      ⟨frame.fields (freeSpace + worker.processSize)
        (.object (jsonObjectRemove processes worker.strProcessId).1), capacity⟩ := by
  simp only [vacate, freeSpace_fields, setFreeSpace_fields, jsonObjectDotremove, splitOn_processes,
    jsonObjectDotremoveSegments, getProcesses_fields, Frame.replaceKey_processes]

end DynamicPartitions.Refinement.Representation
