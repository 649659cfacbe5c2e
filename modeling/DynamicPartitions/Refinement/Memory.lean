import DynamicPartitions.Refinement.Representation

/-!
# The memory file of an allocator

The JSON array of an allocator's partitions, each in its frame. What a worker reads,
searches and writes is what the allocator does, and the schemas considered are those
whose parsed value is the memory of an empty allocator.
-/
namespace DynamicPartitions.Refinement.Memory

open DynamicPartitions.Lib.Table
open DynamicPartitions.Parson.Value
open DynamicPartitions.Parson.Parser
open DynamicPartitions.Parson.Serializer
open DynamicPartitions.Parson.RoundTrip
open DynamicPartitions.Parson.Acceptance
open DynamicPartitions.Abstract.Residents
open DynamicPartitions.Abstract.Accounting
open DynamicPartitions.Program.Algorithms
open DynamicPartitions.Program.MappedFile
open DynamicPartitions.Program.WorkerThread
open DynamicPartitions.Refinement.Representation

/-- An allocator of threads, with the room a process table has in the file. -/
abbrev Books := Allocator Nat tableBound

def partitionValue (frame : Frame) (p : Partition Nat) : JsonValue :=
  .object (frame.object p.freeSpace (tableValue p.processes))

def memoryValue (frames : List Frame) (partitions : List (Partition Nat)) : JsonValue :=
  .array ⟨List.zipWith partitionValue frames partitions, frames.length⟩

/-- The frames are those of the allocator's partitions. -/
structure Framed (frames : List Frame) (partitions : List (Partition Nat)) : Prop where
  sizes : partitions.map Partition.size = frames.map Frame.size
  count : frames.length ≤ arrayMaxCapacity

theorem Framed.length_eq {frames : List Frame} {partitions : List (Partition Nat)}
    (h : Framed frames partitions) : partitions.length = frames.length := by
  simpa using congrArg List.length h.sizes

theorem Framed.modify {frames : List Frame} {partitions : List (Partition Nat)}
    (h : Framed frames partitions) (k : Nat) {f : Partition Nat → Partition Nat}
    (hf : ∀ p, (f p).size = p.size) : Framed frames (partitions.modify k f) := by
  refine ⟨?_, h.count⟩
  rw [← h.sizes]
  refine List.ext_getElem? fun i => ?_
  rw [List.getElem?_map, List.getElem?_map, List.getElem?_modify]
  cases partitions[i]? with
  | none => rfl
  | some p =>
    by_cases hi : k = i
    · simp [hi, hf]
    · simp [hi]

theorem trim_partitionValue (frame : Frame) (p : Partition Nat) :
    trim (partitionValue frame p) = partitionValue frame p := by
  rw [partitionValue, Frame.object, Frame.trim_fields, trim_tableValue]
  rfl

theorem getElem?_memory (frames : List Frame) (partitions : List (Partition Nat)) (i : Nat) :
    (List.zipWith partitionValue frames partitions)[i]? =
      match frames[i]?, partitions[i]? with
      | some frame, some p => some (partitionValue frame p)
      | _, _ => none := by
  rw [List.getElem?_zipWith]
  cases frames[i]? <;> cases partitions[i]? <;> rfl

/-- The memory of an allocator is a value the parser can return. -/
theorem canonical_memoryValue {frames : List Frame} (a : Books) (h : Framed frames a.partitions) :
    Canonical (memoryValue frames a.partitions) := by
  have hitem : ∀ value ∈ List.zipWith partitionValue frames a.partitions,
      Accepted maxNesting value := by
    intro value hvalue
    obtain ⟨i, hi⟩ := List.mem_iff_getElem?.mp hvalue
    rw [getElem?_memory] at hi
    cases hframe : frames[i]? with
    | none => simp [hframe] at hi
    | some frame =>
      cases hp : a.partitions[i]? with
      | none => simp [hframe, hp] at hi
      | some p =>
        simp only [hframe, hp, Option.some.injEq] at hi
        rw [← hi, partitionValue]
        refine frame.accepted_object _ _ (accepted_tableValue (maxNesting - 4) (a.keys_nodup hp) ?_)
        exact a.tables_length p (List.mem_of_getElem? hp)
  have hlength : (List.zipWith partitionValue frames a.partitions).length = frames.length := by
    rw [List.length_zipWith, h.length_eq, Nat.min_self]
  refine ⟨⟨?_, fun value hvalue => (hitem value hvalue).1⟩, ?_⟩
  · exact hlength.le.trans h.count
  · have hmap : (List.zipWith partitionValue frames a.partitions).map trim =
        List.zipWith partitionValue frames a.partitions := by
      conv_rhs => rw [← List.map_id (List.zipWith partitionValue frames a.partitions)]
      exact List.map_congr_left fun value hvalue => (hitem value hvalue).2
    rw [memoryValue, trim_array, hmap, hlength]

/-! ## Printing forgets capacities -/

mutual

theorem serialize_trim (isPretty : Bool) (level : Nat) :
    ∀ value, jsonSerializeToBufferR isPretty level (trim value) =
      jsonSerializeToBufferR isPretty level value
  | .array ⟨items, _⟩ => by
    have hempty : trimItems items = [] ↔ items = [] := by cases items <;> simp [trimItems]
    simp only [trim, jsonSerializeToBufferR, serializeItems_trim isPretty level items, hempty]
  | .object ⟨entries, _⟩ => by
    have hempty : trimEntries entries = [] ↔ entries = [] := by cases entries <;> simp [trimEntries]
    simp only [trim, jsonSerializeToBufferR, serializeEntries_trim isPretty level entries, hempty]
  | .string _ => rfl
  | .boolean _ => rfl
  | .number _ => rfl
  | .null => rfl

theorem serializeItems_trim (isPretty : Bool) (level : Nat) :
    ∀ items, serializeItems isPretty level (trimItems items) = serializeItems isPretty level items
  | [] => rfl
  | value :: rest => by
    have hempty : trimItems rest = [] ↔ rest = [] := by cases rest <;> simp [trimItems]
    simp only [trimItems, serializeItems, serialize_trim isPretty (level + 1) value,
      serializeItems_trim isPretty level rest, hempty]

theorem serializeEntries_trim (isPretty : Bool) (level : Nat) :
    ∀ entries, serializeEntries isPretty level (trimEntries entries) =
      serializeEntries isPretty level entries
  | [] => rfl
  | (key, value) :: rest => by
    have hempty : trimEntries rest = [] ↔ rest = [] := by cases rest <;> simp [trimEntries]
    simp only [trimEntries, serializeEntries, serialize_trim isPretty (level + 1) value,
      serializeEntries_trim isPretty level rest, hempty]

end

theorem compact_trim (value : JsonValue) : compact (trim value) = compact value :=
  serialize_trim false 0 value

/-- An update of one object, seen through printing and parsing: if it does to every
partition what `f` does, it does to the memory what `f` does to the partitions. -/
theorem compact_updateArrayObject {update : JsonObject JsonValue → JsonObject JsonValue}
    {f : Partition Nat → Partition Nat}
    (hupdate : ∀ (frame : Frame) p,
      trim (.object (update (frame.object p.freeSpace (tableValue p.processes)))) =
        partitionValue frame (f p))
    (frames : List Frame) (partitions : List (Partition Nat)) (k : Nat)
    (hlength : partitions.length = frames.length) :
    compact (updateArrayObject k update (memoryValue frames partitions)) =
      compact (memoryValue frames (partitions.modify k f)) := by
  rw [← compact_trim]
  congr 1
  rw [memoryValue, updateArrayObject, trim_array, memoryValue]
  congr 2
  · refine List.ext_getElem? fun i => ?_
    rw [List.getElem?_map, List.getElem?_modify, getElem?_memory, getElem?_memory,
      List.getElem?_modify]
    cases hframe : frames[i]? with
    | none => simp
    | some frame =>
      cases hp : partitions[i]? with
      | none => simp
      | some p =>
        by_cases hi : k = i
        · simp only [if_pos hi]
          exact congrArg some (hupdate frame p)
        · simp only [if_neg hi]
          exact congrArg some (trim_partitionValue frame p)
  · simp [hlength]

theorem trim_occupy (worker : Worker) (frame : Frame) (p : Partition Nat) :
    trim (.object (occupy worker (frame.object p.freeSpace (tableValue p.processes)))) =
      partitionValue frame (p.enter tableBound worker.processId (processOf worker)) := by
  rw [Frame.object, tableValue, occupy_fields, Frame.trim_fields, Worker.strProcessId,
    ← idName, trim_setValue trim_processValue _ _ _ (trim_subSchema worker)]
  rfl

theorem trim_vacate (worker : Worker) (frame : Frame) (p : Partition Nat) :
    trim (.object (vacate worker (frame.object p.freeSpace (tableValue p.processes)))) =
      partitionValue frame (p.release worker.processId (processOf worker)) := by
  rw [Frame.object, tableValue, vacate_fields, Frame.trim_fields, Worker.strProcessId,
    ← idName, trim_remove trim_processValue]
  rfl

/-! ## What a worker does with the text it read -/

section Worker

variable {frames : List Frame} (a : Books) (h : Framed frames a.partitions) (worker : Worker)

/-- The text a read of the complete memory returns. -/
def printed (frames : List Frame) (partitions : List (Partition Nat)) : CString :=
  pretty (memoryValue frames partitions)

/-- The content of the complete memory file. -/
def memoryFile (frames : List Frame) (partitions : List (Partition Nat)) : Content :=
  stored (compact (memoryValue frames partitions))

include h in
theorem parseText_printed :
    parseText (some (printed frames a.partitions)) = some (memoryValue frames a.partitions) :=
  jsonParseString_pretty (canonical_memoryValue a h)

include h in
theorem admission_printed (k : Nat) :
    admission worker k (some (printed frames a.partitions)) =
      some (compact (memoryValue frames
        (a.partitions.modify k (Partition.enter tableBound worker.processId (processOf worker))))) := by
  rw [admission, parseText_printed a h, Option.map_some, jsonSerializeToString, Option.map_some]
  exact congrArg some (compact_updateArrayObject (trim_occupy worker) frames a.partitions k h.length_eq)

include h in
theorem devolution_printed (k : Nat) :
    devolution worker k (some (printed frames a.partitions)) =
      some (compact (memoryValue frames
        (a.partitions.modify k (Partition.release worker.processId (processOf worker))))) := by
  rw [devolution, parseText_printed a h, Option.map_some, jsonSerializeToString, Option.map_some]
  exact congrArg some (compact_updateArrayObject (trim_vacate worker) frames a.partitions k h.length_eq)

end Worker

def freeSpaceAt (partitions : List (Partition Nat)) (i : Nat) : Int :=
  (partitions[i]?.map Partition.freeSpace).getD 0

/-- The choice of `search_index` on a list of partitions. -/
def choose (algorithm : Algorithm) (partitions : List (Partition Nat)) (processSize : Int) :
    Option Nat :=
  searchLoop algorithm (freeSpaceAt partitions) processSize partitions.length 0 none

theorem jsonArrayGetObject_memory (frames : List Frame) (partitions : List (Partition Nat))
    (i : Nat) :
    jsonArrayGetObject (jsonValueGetArray (some (memoryValue frames partitions))) i =
      match frames[i]?, partitions[i]? with
      | some frame, some p => some (frame.object p.freeSpace (tableValue p.processes))
      | _, _ => none := by
  simp only [memoryValue, jsonValueGetArray, jsonArrayGetObject, Option.bind_some,
    jsonArrayGetValue, getElem?_memory]
  cases frames[i]? with
  | none => rfl
  | some frame => cases partitions[i]? <;> rfl

theorem searchIndex_memory (algorithm : Algorithm) {frames : List Frame}
    {partitions : List (Partition Nat)} (hlength : partitions.length = frames.length)
    (processSize : Int) :
    searchIndex (jsonValueGetArray (some (memoryValue frames partitions))) processSize algorithm =
      choose algorithm partitions processSize := by
  have hfree : (fun i => jsonObjectGetNumber (jsonArrayGetObject
      (jsonValueGetArray (some (memoryValue frames partitions))) i) freeSpaceName) =
      freeSpaceAt partitions := by
    funext i
    rw [jsonArrayGetObject_memory frames partitions i, freeSpaceAt]
    by_cases hi : i < frames.length
    · have hp : i < partitions.length := hlength ▸ hi
      simp only [List.getElem?_eq_getElem hi, List.getElem?_eq_getElem hp, Frame.object,
        freeSpace_fields, Option.map_some, Option.getD_some]
    · have hframe : frames[i]? = none := List.getElem?_eq_none (by omega)
      have hp : partitions[i]? = none := List.getElem?_eq_none (by omega)
      simp [hframe, hp, jsonObjectGetNumber, jsonValueGetNumber]
  have hcount : (((jsonValueGetArray (some (memoryValue frames partitions))).map
      jsonArrayGetCount).getD 0) = partitions.length := by
    simp [memoryValue, jsonValueGetArray, jsonArrayGetCount, hlength]
  rw [searchIndex, hfree, hcount]
  rfl

theorem placement_printed (algorithm : Algorithm) {frames : List Frame} (a : Books)
    (h : Framed frames a.partitions) (worker : Worker) :
    placement algorithm worker (some (printed frames a.partitions)) =
      choose algorithm a.partitions worker.processSize := by
  rw [placement, parseText_printed a h, searchIndex_memory algorithm h.length_eq]

/-- The chosen partition has room. -/
theorem choose_fits {algorithm : Algorithm} {partitions : List (Partition Nat)} {processSize : Int}
    {k : Nat} (h : choose algorithm partitions processSize = some k) :
    ∃ p, partitions[k]? = some p ∧ processSize ≤ p.freeSpace := by
  have hfits : Fits (freeSpaceAt partitions) processSize (0 + partitions.length)
      (choose algorithm partitions processSize) :=
    fits_searchLoop algorithm _ fun _ hk => by simp at hk
  obtain ⟨hlt, hsize⟩ := hfits k h
  have hk : k < partitions.length := by omega
  refine ⟨partitions[k], List.getElem?_eq_getElem hk, ?_⟩
  simpa [freeSpaceAt, List.getElem?_eq_getElem hk] using hsize

/-! ## The schemas considered -/

/-- A partition of the schema: a size within the range of an `int`, all of it free,
and nobody in it. -/
def InitialPartition (value : JsonValue) : Prop :=
  ∃ object size processes, value = .object object ∧
    jsonObjectGetValue object sizeName = some (.number size) ∧ 0 ≤ size ∧ size ≤ intMax ∧
    jsonObjectGetValue object freeSpaceName = some (.number size) ∧
    jsonObjectGetValue object processesName = some (.object processes) ∧ processes.entries = []

/-- The schema parses as an array of such partitions. -/
def InitialMemory (schema : CString) : Prop :=
  ∃ array, jsonParseString schema = some (.array array) ∧
    ∀ value ∈ array.items, InitialPartition value

/-- The memory of an allocator nobody is in. -/
def unoccupied (frames : List Frame) : Books :=
  Allocator.empty (frames.map Frame.size) fun n hn => by
    obtain ⟨frame, -, rfl⟩ := List.mem_map.mp hn
    exact frame.size_nonneg

theorem frame_of_initialPartition {value : JsonValue} (h : InitialPartition value)
    (hacc : Accepted maxNesting value) :
    ∃ frame : Frame, value = partitionValue frame ⟨frame.size, frame.size, []⟩ := by
  obtain ⟨⟨entries, capacity⟩, size, ⟨table, tableCapacity⟩, rfl, hsize, hnonneg, hle, hfree,
    hprocesses, hempty⟩ := h
  simp only at hempty
  subst hempty
  obtain ⟨⟨hlength, hnodup, hmembers⟩, htrim⟩ := hacc
  rw [trim_object] at htrim
  simp only [JsonValue.object.injEq, JsonObject.mk.injEq] at htrim
  obtain ⟨hmap, rfl⟩ := htrim
  have htrimmed : ∀ entry ∈ entries, trim entry.2 = entry.2 := fun entry hentry =>
    congrArg Prod.snd (List.map_eq_map_iff.mp (hmap.trans (List.map_id entries).symm) entry hentry)
  have htable := htrimmed _ (mem_of_getKey hprocesses)
  simp only [trim, trimEntries, List.length_nil, JsonValue.object.injEq, JsonObject.mk.injEq,
    true_and] at htable
  subst htable
  let frame : Frame :=
    { entries, size
      names_nodup := hnodup
      length_le := hlength
      members := fun entry hentry =>
        ⟨(hmembers entry hentry).1, (hmembers entry hentry).2, htrimmed entry hentry⟩
      size_eq := hsize
      freeSpace_mem := (getKey_isSome_iff _ _).mp (Option.isSome_iff_exists.mpr ⟨_, hfree⟩)
      processes_mem := (getKey_isSome_iff _ _).mp (Option.isSome_iff_exists.mpr ⟨_, hprocesses⟩)
      size_nonneg := hnonneg
      size_le := hle }
  refine ⟨frame, ?_⟩
  have hfill : frame.fields size (tableValue []) = entries := by
    unfold Frame.fields
    conv_rhs => rw [← List.map_id entries]
    refine List.map_congr_left fun entry hentry => ?_
    obtain ⟨name, value⟩ := entry
    have hget := getKey_of_mem hnodup hentry
    unfold fill
    split_ifs with hname hname'
    · simp only at hname
      subst hname
      exact Prod.ext rfl (Option.some.inj (hfree.symm.trans hget))
    · simp only at hname'
      subst hname'
      exact Prod.ext rfl (Option.some.inj (hprocesses.symm.trans hget))
    · rfl
  rw [partitionValue, Frame.object, hfill]

/-- An initial memory is the memory of an allocator nobody is in. -/
theorem initialMemory_frames {schema : CString} (h : InitialMemory schema) :
    ∃ frames : List Frame, Framed frames (unoccupied frames).partitions ∧
      jsonParseString schema = some (memoryValue frames (unoccupied frames).partitions) := by
  obtain ⟨⟨items, capacity⟩, hparse, hitems⟩ := h
  obtain ⟨⟨hlength, hstorable⟩, htrim⟩ := canonical_of_jsonParseString hparse
  rw [trim_array] at htrim
  simp only [JsonValue.array.injEq, JsonArray.mk.injEq] at htrim
  obtain ⟨hmap, rfl⟩ := htrim
  have htrimmed : ∀ value ∈ items, trim value = value :=
    List.map_eq_map_iff.mp (hmap.trans (List.map_id items).symm)
  have hframes : ∀ values : List JsonValue, (∀ value ∈ values, value ∈ items) →
      ∃ frames : List Frame, values =
        frames.map fun frame => partitionValue frame ⟨frame.size, frame.size, []⟩ := by
    intro values
    induction values with
    | nil => exact fun _ => ⟨[], rfl⟩
    | cons value rest ih =>
      intro hmem
      have hvalue := hmem value List.mem_cons_self
      obtain ⟨frame, hframe⟩ := frame_of_initialPartition (hitems value hvalue)
        ⟨hstorable value hvalue, htrimmed value hvalue⟩
      obtain ⟨frames, hrest⟩ := ih fun v hv => hmem v (List.mem_cons_of_mem _ hv)
      refine ⟨frame :: frames, ?_⟩
      rw [List.map_cons, ← hframe, ← hrest]
  obtain ⟨frames, hframes⟩ := hframes items fun _ hv => hv
  have hcount : items.length = frames.length := by rw [hframes, List.length_map]
  refine ⟨frames, ⟨?_, hcount ▸ hlength⟩, ?_⟩
  · simp [unoccupied, Allocator.empty, Function.comp_def]
  · rw [hparse, memoryValue, hcount, hframes]
    congr 3
    simp only [unoccupied, Allocator.empty, List.map_map]
    rw [List.zipWith_map_right, List.zipWith_self]
    rfl

/-! ## Schemas by their frames -/

/-- A partition with the three members of `schema.json`. -/
def plainFrame (size : Int) (hnonneg : 0 ≤ size) (hle : size ≤ intMax) : Frame where
  entries := [(sizeName, .number size), (freeSpaceName, .number size), (processesName, tableValue [])]
  size := size
  names_nodup := show [sizeName, freeSpaceName, processesName].Nodup by decide
  length_le := show 3 ≤ objectMaxCapacity by decide
  members := by
    intro entry hentry
    simp only [List.mem_cons, List.not_mem_nil, or_false] at hentry
    rcases hentry with rfl | rfl | rfl
    · exact ⟨show nul ∉ sizeName by decide, trivial, rfl⟩
    · exact ⟨show nul ∉ freeSpaceName by decide, trivial, rfl⟩
    · exact ⟨show nul ∉ processesName by decide,
        accepted_tableValue (maxNesting - 4) List.nodup_nil (Nat.zero_le _)⟩
  size_eq := rfl
  freeSpace_mem := show freeSpaceName ∈ [sizeName, freeSpaceName, processesName] by decide
  processes_mem := show processesName ∈ [sizeName, freeSpaceName, processesName] by decide
  size_nonneg := hnonneg
  size_le := hle

/-- A text of `schema.json` with the given frames. -/
def schemaOf (frames : List Frame) : CString := compact (memoryValue frames (unoccupied frames).partitions)

theorem framed_unoccupied {frames : List Frame} (h : frames.length ≤ arrayMaxCapacity) :
    Framed frames (unoccupied frames).partitions :=
  ⟨by simp [unoccupied, Allocator.empty, Function.comp_def], h⟩

theorem jsonParseString_schemaOf {frames : List Frame} (h : frames.length ≤ arrayMaxCapacity) :
    jsonParseString (schemaOf frames) = some (memoryValue frames (unoccupied frames).partitions) :=
  jsonParseString_serialize false (canonical_memoryValue _ (framed_unoccupied h))

theorem initialPartition_of_frame (frame : Frame) :
    InitialPartition (partitionValue frame ⟨frame.size, frame.size, []⟩) :=
  ⟨_, frame.size, tableObject processValue [], rfl, frame.getKey_size _ _, frame.size_nonneg, frame.size_le,
    frame.getKey_freeSpace _ _, frame.getKey_processes _ _, rfl⟩

theorem initialMemory_schemaOf {frames : List Frame} (h : frames.length ≤ arrayMaxCapacity) :
    InitialMemory (schemaOf frames) := by
  refine ⟨_, jsonParseString_schemaOf h, fun value hvalue => ?_⟩
  obtain ⟨i, hi⟩ := List.mem_iff_getElem?.mp hvalue
  simp only [getElem?_memory, unoccupied, Allocator.empty, List.getElem?_map] at hi
  cases hframe : frames[i]? with
  | none => simp [hframe] at hi
  | some frame =>
    simp only [hframe, Option.map_some, Option.some.injEq] at hi
    exact hi ▸ initialPartition_of_frame frame

theorem initMemory_schemaOf {frames : List Frame} (h : frames.length ≤ arrayMaxCapacity) :
    initMemory (schemaOf frames) = some (memoryFile frames (unoccupied frames).partitions) :=
  initFile_of_parse (jsonParseString_schemaOf h)

end DynamicPartitions.Refinement.Memory
