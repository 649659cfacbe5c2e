import DynamicPartitions.Properties.Conservation
import DynamicPartitions.Refinement.Sections

/-!
# Releases

A release undoes the admission of its worker and nothing else, whatever sections of
other workers ran in between, and the order of releases does not show in the memory
beyond the order of the table entries.
-/
namespace DynamicPartitions.Properties.Release

open DynamicPartitions.Lib.Table
open DynamicPartitions.Parson.Value
open DynamicPartitions.Parson.Serializer
open DynamicPartitions.Abstract.Residents
open DynamicPartitions.Program.Algorithms
open DynamicPartitions.Program.MappedFile
open DynamicPartitions.Program.WorkerThread
open DynamicPartitions.Refinement.Representation
open DynamicPartitions.Refinement.Memory
open DynamicPartitions.Refinement.Sections
open DynamicPartitions.Properties.Conservation

/-! ## One partition through a history -/

/-- Same names in the same order, and the same value under every name but two. -/
structure SameMembers (p q : JsonObject JsonValue) : Prop where
  names : keys q.entries = keys p.entries
  values : ∀ name, name ≠ freeSpaceName → name ≠ processesName →
    jsonObjectGetValue q name = jsonObjectGetValue p name

/-- The sections of a history that concern one partition. -/
def actAll (turns : List Turn) (p : JsonObject JsonValue) : JsonObject JsonValue :=
  turns.foldl (fun p turn => turn.act p) p

theorem isPartition_actAll (turns : List Turn) : ∀ {p : JsonObject JsonValue}, IsPartition p →
    IsPartition (actAll turns p) := by
  induction turns with
  | nil => exact fun h => h
  | cons turn turns ih => exact fun h => ih (turn.act_isPartition h)

theorem sameMembers_actAll (turns : List Turn) : ∀ p, SameMembers p (actAll turns p) := by
  induction turns with
  | nil => exact fun p => ⟨rfl, fun _ _ _ => rfl⟩
  | cons turn turns ih =>
    intro p
    have hrest := ih (turn.act p)
    constructor
    · exact hrest.names.trans (turn.keys_act p)
    · intro name hfree hprocesses
      exact (hrest.values name hfree hprocesses).trans (turn.getValue_act p hfree hprocesses)

/-- The entry of a worker survives the sections of the others. -/
theorem getKey_actAll {key : CString} : ∀ {turns : List Turn},
    (∀ turn ∈ turns, key ≠ turn.worker.strProcessId) → ∀ {p : JsonObject JsonValue}, IsPartition p →
    getKey (processesOf (actAll turns p)) key = getKey (processesOf p) key := by
  intro turns
  induction turns with
  | nil => exact fun _ _ _ => rfl
  | cons turn turns ih =>
    intro hothers p h
    have hrest := ih (fun other hother => hothers other (List.mem_cons_of_mem _ hother))
      (turn.act_isPartition h)
    exact hrest.trans (turn.getKey_act h (hothers turn List.mem_cons_self))

theorem strProcessId_ne {worker other : Worker} (h : other.processId ≠ worker.processId) :
    worker.strProcessId ≠ other.strProcessId := fun he =>
  h (idName_injective he).symm

/-! ## A release undoes its admission -/

/-- Number and order of the partitions and all their members but the two variable ones
are as before. -/
structure SameLayout (content content' : Content) : Prop where
  count : partitionsFound content' = partitionsFound content
  members : ∀ i p, partitionFound content i = some p →
    ∃ q, partitionFound content' i = some q ∧ SameMembers p q

/-- The release of `worker`, from `before` to `after`, takes back what its admission at
index `k`, from `content` to `admitted`, did. -/
structure Undoes (worker : Worker) (k : Nat) (content admitted before after : Content) : Prop where
  layout : SameLayout before after
  elsewhere : ∀ i, i ≠ k → partitionFound after i = partitionFound before i
  here : ∃ p₀ p₁ p₂ p₃, partitionFound content k = some p₀ ∧ partitionFound admitted k = some p₁ ∧
    partitionFound before k = some p₂ ∧ partitionFound after k = some p₃ ∧
    freeSpaceOf p₃ - freeSpaceOf p₂ = freeSpaceOf p₀ - freeSpaceOf p₁ ∧
    getKey (processesOf p₂) worker.strProcessId = some (processValue (processOf worker)) ∧
    ∀ key, getKey (processesOf p₃) key =
      if key = worker.strProcessId then none else getKey (processesOf p₂) key
  path : ∀ rootObject proObj,
    jsonObjectGetObject (some rootObject) processesName = some proObj →
    jsonObjectDotremove rootObject (processesName ++ '.' :: worker.strProcessId) =
      ({ rootObject with
          entries := replaceKey rootObject.entries processesName
            (.object (jsonObjectRemove proObj worker.strProcessId).1) },
        (jsonObjectRemove proObj worker.strProcessId).2)

/-- The dotted path removes the entry that the insertion key names. -/
theorem dotremove_processes (worker : Worker) {rootObject proObj : JsonObject JsonValue}
    (h : jsonObjectGetObject (some rootObject) processesName = some proObj) :
    jsonObjectDotremove rootObject (processesName ++ '.' :: worker.strProcessId) =
      ({ rootObject with
          entries := replaceKey rootObject.entries processesName
            (.object (jsonObjectRemove proObj worker.strProcessId).1) },
        (jsonObjectRemove proObj worker.strProcessId).2) := by
  rw [jsonObjectDotremove, splitOn_processes]
  simp only [jsonObjectDotremoveSegments, h]

theorem sameLayout_of_holds (turns : List Turn) {content content' : Content}
    {partitions : List (JsonObject JsonValue)} (h : Holds content partitions)
    (h' : Holds content' (turns.foldl Turn.change partitions)) : SameLayout content content' := by
  constructor
  · rw [h'.partitionsFound_eq, h.partitionsFound_eq, length_foldl_change]
  · intro i p hp
    rw [h.partitionFound_eq] at hp
    refine ⟨_, ?_, sameMembers_actAll (turns.filter fun turn => turn.memIndex = i) p⟩
    rw [h'.partitionFound_eq, getElem?_foldl_change, hp]
    rfl

/-- From an admission at index `k` of a table with room to the release by the same
worker, with any sections of other workers in between: the partitions stay in place, and
the release takes back exactly what the admission did. -/
theorem undoes_of_runs {content : Content} (hcontent : WellFormed content)
    {worker : Worker} {k : Nat} {p : JsonObject JsonValue} (hp : partitionFound content k = some p)
    (hroom : (processesOf p).length ≤ tableBound) {turns : List Turn}
    (hothers : ∀ turn ∈ turns, turn.worker.processId ≠ worker.processId) :
    ∃ admitted before after, (Turn.admits worker k).run content = some admitted ∧
      runTurns turns admitted = some before ∧ (Turn.releases worker k).run before = some after ∧
      SameLayout content before ∧ Undoes worker k content admitted before after := by
  obtain ⟨partitions, hholds⟩ := holds_of_wellFormed hcontent
  obtain ⟨admitted, hadmission, hadmitted⟩ := Turn.run_holds hholds (.admits worker k)
  obtain ⟨before, hturns, hbefore⟩ := runTurns_holds turns hadmitted
  obtain ⟨after, hrelease, hafter⟩ := Turn.run_holds hbefore (.releases worker k)
  have hlayout : SameLayout content before :=
    sameLayout_of_holds (.admits worker k :: turns) hholds hbefore
  refine ⟨admitted, before, after, hadmission, hturns, hrelease, hlayout, ?_⟩
  -- the partition at index `k` at the four moments
  have hp₀ : partitions[k]? = some p := (hholds.partitionFound_eq k).symm.trans hp
  have hpartition := hholds.isPartition p (List.mem_of_getElem? hp₀)
  have hp₁ : ((Turn.admits worker k).change partitions)[k]? =
      some ((Turn.admits worker k).act p) := (Turn.admits worker k).getElem?_change_self hp₀
  have hpartition₁ := (Turn.admits worker k).act_isPartition hpartition
  let here := turns.filter fun turn => turn.memIndex = k
  let p₂ := actAll here ((Turn.admits worker k).act p)
  have hp₂ : (turns.foldl Turn.change ((Turn.admits worker k).change partitions))[k]? = some p₂ := by
    rw [getElem?_foldl_change, hp₁]
    rfl
  have hpartition₂ : IsPartition p₂ := isPartition_actAll here hpartition₁
  have hp₃ : ((Turn.releases worker k).change
      (turns.foldl Turn.change ((Turn.admits worker k).change partitions)))[k]? =
      some ((Turn.releases worker k).act p₂) := (Turn.releases worker k).getElem?_change_self hp₂
  have hentry : getKey (processesOf p₂) worker.strProcessId =
      some (processValue (processOf worker)) := by
    rw [getKey_actAll (fun turn hturn => strProcessId_ne (hothers turn (List.mem_filter.mp hturn).1))
      hpartition₁, Turn.act, hpartition.processesOf_alter]
    exact getKey_enterKey_self hroom _ _
  constructor
  · exact sameLayout_of_holds [.releases worker k] hbefore hafter
  · intro i hi
    rw [hafter.partitionFound_eq, hbefore.partitionFound_eq]
    exact (Turn.releases worker k).getElem?_change_of_ne _ hi
  · refine ⟨p, (Turn.admits worker k).act p, p₂, (Turn.releases worker k).act p₂, hp,
      (hadmitted.partitionFound_eq k).trans hp₁, (hbefore.partitionFound_eq k).trans hp₂,
      (hafter.partitionFound_eq k).trans hp₃, ?_, hentry, ?_⟩
    · simp only [Turn.act]
      rw [hpartition₂.freeSpaceOf_alter, hpartition.freeSpaceOf_alter]
      omega
    · intro key
      rw [Turn.act, hpartition₂.processesOf_alter]
      exact getKey_removeKey hpartition₂.processes_nodup _ _
  · exact fun _ _ h => dotremove_processes worker h

/-- The three runs, the middle one of any length, are one run. -/
theorem runTurnsInt_between {turn turn' : Turn} {turns : List Turn} {content after : Content} :
    runTurnsInt (turn :: turns ++ [turn']) content = some after ↔
      ∃ admitted before, turn.runInt content = some admitted ∧
        runTurnsInt turns admitted = some before ∧ turn'.runInt before = some after := by
  simp [runTurnsInt, Option.bind_eq_some_iff]

theorem runTurns_between {turn turn' : Turn} {turns : List Turn} {content after : Content} :
    runTurns (turn :: turns ++ [turn']) content = some after ↔
      ∃ admitted before, turn.run content = some admitted ∧
        runTurns turns admitted = some before ∧ turn'.run before = some after := by
  simp [runTurns, Option.bind_eq_some_iff]

/-- In `int`, the same: the sections run to the release exactly where no free space leaves
the range, and there the release takes back what the admission did. -/
theorem release_undoes_admission {content : Content} (hcontent : WellFormed content)
    {worker : Worker} {k : Nat} {p : JsonObject JsonValue} (hp : partitionFound content k = some p)
    (hroom : (processesOf p).length ≤ tableBound) {turns : List Turn}
    (hothers : ∀ turn ∈ turns, turn.worker.processId ≠ worker.processId)
    (hplaced : ∀ turn ∈ turns, turn.memIndex < partitionsFound content) :
    FitsInt content (.admits worker k :: turns ++ [.releases worker k]) ↔
      ∃ admitted before after, (Turn.admits worker k).runInt content = some admitted ∧
        runTurnsInt turns admitted = some before ∧
        (Turn.releases worker k).runInt before = some after ∧
        SameLayout content before ∧ Undoes worker k content admitted before after := by
  obtain ⟨partitions, hholds⟩ := holds_of_wellFormed hcontent
  have hk : k < partitions.length :=
    (List.getElem?_eq_some_iff.mp ((hholds.partitionFound_eq k).symm.trans hp)).1
  have hall : ∀ turn ∈ .admits worker k :: turns ++ [.releases worker k],
      turn.memIndex < partitions.length := by
    intro turn hturn
    rw [List.mem_append, List.mem_cons, List.mem_singleton] at hturn
    rcases hturn with (rfl | hturn) | rfl
    · exact hk
    · exact hholds.partitionsFound_eq ▸ hplaced turn hturn
    · exact hk
  obtain ⟨admitted, before, after, hadmission, hturns, hrelease, hlayout, hundoes⟩ :=
    undoes_of_runs hcontent hp hroom hothers
  have hruns := runTurns_between.mpr ⟨admitted, before, hadmission, hturns, hrelease⟩
  constructor
  · intro hfits
    obtain ⟨admitted', before', hadmission', hturns', hrelease'⟩ :=
      runTurnsInt_between.mp ((runTurnsInt_iff _ hholds hall).mpr ⟨hruns, hfits⟩)
    -- the run in `int` passes through the same files
    obtain rfl := Option.some.inj (hadmission.symm.trans (Turn.run_of_runInt hadmission'))
    obtain rfl := Option.some.inj (hturns.symm.trans (runTurns_of_runTurnsInt hturns'))
    exact ⟨admitted, before, after, hadmission', hturns', hrelease', hlayout, hundoes⟩
  · rintro ⟨admitted', before', after', hadmission', hturns', hrelease', -, -⟩
    exact ((runTurnsInt_iff _ hholds hall).mp
      (runTurnsInt_between.mpr ⟨_, _, hadmission', hturns', hrelease'⟩)).2

theorem freeSpaceOf_frame (frame : Frame) (freeSpace : Int) (processes : JsonValue) :
    freeSpaceOf (frame.object freeSpace processes) = freeSpace :=
  freeSpace_fields frame freeSpace processes _

/-- A file of one partition, and sections at it. -/
theorem fitsInt_singleton {content : Content} {p : JsonObject JsonValue} (h : Holds content [p])
    {turns : List Turn} (hturns : ∀ turn ∈ turns, turn.memIndex = 0) :
    FitsInt content turns ↔ StaysInt (freeSpaceOf p) turns := by
  have hall : turns.filter (fun turn => turn.memIndex = 0) = turns :=
    List.filter_eq_self.mpr fun turn hturn => decide_eq_true (hturns turn hturn)
  constructor
  · intro hfits
    have hzero := hfits 0 p (h.partitionFound_eq 0)
    rwa [hall] at hzero
  · intro hstays i q hq
    rw [h.partitionFound_eq] at hq
    cases i with
    | zero =>
      obtain rfl := Option.some.inj hq
      rwa [hall]
    | succ i => cases hq

/-- The file of one partition whose table holds the given processes. -/
def partitionFile (frame : Frame) (freeSpace : Int) (processes : List (Nat × Process)) : Content :=
  stored (compact (memoryOf [frame.object freeSpace (tableValue processes)]))

theorem holds_partitionFile (frame : Frame) (freeSpace : Int) (processes : List (Nat × Process))
    (hnodup : (keys processes).Nodup) (hroom : processes.length ≤ tableBound + 1) :
    Holds (partitionFile frame freeSpace processes)
      [frame.object freeSpace (tableValue processes)] := by
  apply holds_stored (by simp [arrayMaxCapacity])
  intro p hp
  obtain rfl := List.mem_singleton.mp hp
  exact ⟨frame.accepted_object _ _ (accepted_tableValue (maxNesting - 4) hnodup hroom),
    ⟨_, frame.getKey_freeSpace _ _⟩, ⟨_, frame.getKey_processes _ _⟩⟩

/-- Twelve units, all of them free. -/
def twelveFree : Content := partitionFile (plainFrame 12 (by decide) (by decide)) 12 []

/-- Another worker comes and goes meanwhile. -/
theorem release_undoes_admission_twelveFree :
    ∃ admitted before after, (Turn.admits ⟨0, 7, 3, 30⟩ 0).runInt twelveFree = some admitted ∧
      runTurnsInt [.admits ⟨1, 8, 2, 40⟩ 0, .releases ⟨1, 8, 2, 40⟩ 0] admitted = some before ∧
      (Turn.releases ⟨0, 7, 3, 30⟩ 0).runInt before = some after ∧
      SameLayout twelveFree before ∧ Undoes ⟨0, 7, 3, 30⟩ 0 twelveFree admitted before after := by
  have hholds : Holds twelveFree _ := holds_partitionFile _ 12 [] List.nodup_nil (Nat.zero_le _)
  have hroom := processesOf_frame (plainFrame 12 (by decide) (by decide)) 12
    (tableObject processValue [])
  have hturns : ∀ turn ∈ [Turn.admits ⟨1, 8, 2, 40⟩ 0, .releases ⟨1, 8, 2, 40⟩ 0],
      turn.worker.processId ≠ 7 ∧ turn.memIndex = 0 := by
    intro turn hturn
    simp only [List.mem_cons, List.not_mem_nil, or_false] at hturn
    rcases hturn with rfl | rfl <;> exact ⟨by decide, rfl⟩
  refine (release_undoes_admission hholds.wellFormed (hholds.partitionFound_eq 0)
    (hroom ▸ Nat.zero_le _) (fun turn hturn => (hturns turn hturn).1) fun turn hturn => ?_).mp ?_
  · rw [(hturns turn hturn).2, hholds.partitionsFound_eq]
    exact Nat.zero_lt_one
  · rw [fitsInt_singleton hholds (by simp [Turn.memIndex]), freeSpaceOf_frame]
    decide

/-- A partition with all of `INT_MAX` free and a process entered: 7 is admitted, 8 releases,
and the release of 7 adds beyond the range. -/
theorem release_overflows :
    ¬ ∀ (content : Content) (worker : Worker) (k : Nat) (p : JsonObject JsonValue)
      (turns : List Turn), WellFormed content →
      (∀ i q, partitionFound content i = some q → InInt (freeSpaceOf q)) →
      partitionFound content k = some p → (processesOf p).length ≤ tableBound →
      getKey (processesOf p) worker.strProcessId = none →
      (∀ turn ∈ turns, turn.worker.processId ≠ worker.processId) →
      (∀ turn ∈ turns, turn.memIndex < partitionsFound content) →
      ∃ admitted before after, (Turn.admits worker k).runInt content = some admitted ∧
        runTurnsInt turns admitted = some before ∧
        (Turn.releases worker k).runInt before = some after ∧
        SameLayout content before ∧ Undoes worker k content admitted before after := by
  intro hclaim
  have hholds := holds_partitionFile (plainFrame intMax (by decide) (by decide)) intMax [(8, ⟨3, 30⟩)]
    (List.nodup_singleton 8) (by decide)
  have hprocesses := processesOf_frame (plainFrame intMax (by decide) (by decide)) intMax
    (tableObject processValue [(8, ⟨3, 30⟩)])
  have hint : ∀ i q, partitionFound (partitionFile (plainFrame intMax (by decide) (by decide)) intMax
      [(8, ⟨3, 30⟩)]) i = some q → InInt (freeSpaceOf q) := by
    intro i q hq
    rw [hholds.partitionFound_eq] at hq
    rw [List.mem_singleton.mp (List.mem_of_getElem? hq), freeSpaceOf_frame]
    decide
  obtain ⟨admitted, before, after, hadmission, hturns, hrelease, -, -⟩ :=
    hclaim _ ⟨0, 7, 3, 30⟩ 0 _ [.releases ⟨1, 8, 3, 30⟩ 0] hholds.wellFormed hint
      (hholds.partitionFound_eq 0) (hprocesses ▸ by decide) (hprocesses ▸ by decide)
      (by simp [Turn.worker]) (by simp [Turn.memIndex, hholds.partitionsFound_eq])
  have hruns := runTurnsInt_between.mpr ⟨admitted, before, hadmission, hturns, hrelease⟩
  have hfits := ((runTurnsInt_iff _ hholds (by simp [Turn.memIndex])).mp hruns).2
  rw [fitsInt_singleton hholds (by simp [Turn.memIndex]), freeSpaceOf_frame] at hfits
  exact absurd hfits (by decide)

/-! ## The order of releases -/

/-- Equal as lists of partitions, the table of each read as a finite map. -/
structure Alike (a b : Content) : Prop where
  count : partitionsFound a = partitionsFound b
  partitions : ∀ i p, partitionFound a i = some p → ∃ q, partitionFound b i = some q ∧
    SameMembers p q ∧ freeSpaceOf q = freeSpaceOf p ∧
    ∀ key, getKey (processesOf q) key = getKey (processesOf p) key

/-- The release sections of some workers, each at the index it holds. -/
def releasesOf (residents : List (Worker × Nat)) : List Turn :=
  residents.map fun resident => Turn.releases resident.1 resident.2

theorem freeSpaceOf_releases (residents : List (Worker × Nat)) : ∀ {p : JsonObject JsonValue},
    IsPartition p → freeSpaceOf (actAll (releasesOf residents) p) =
      freeSpaceOf p + (residents.map fun resident => resident.1.processSize).sum := by
  induction residents with
  | nil => exact fun _ => (Int.add_zero _).symm
  | cons resident residents ih =>
    intro p h
    have hrest := ih ((Turn.releases resident.1 resident.2).act_isPartition h)
    rw [Turn.act, h.freeSpaceOf_alter] at hrest
    rw [List.map_cons, List.sum_cons, ← Int.add_assoc]
    exact hrest

theorem getKey_releases (residents : List (Worker × Nat)) (key : CString) :
    ∀ {p : JsonObject JsonValue}, IsPartition p →
    getKey (processesOf (actAll (releasesOf residents) p)) key =
      if key ∈ residents.map (fun resident => resident.1.strProcessId) then none
      else getKey (processesOf p) key := by
  induction residents with
  | nil => exact fun _ => (if_neg List.not_mem_nil).symm
  | cons resident residents ih =>
    intro p h
    have hrest := ih ((Turn.releases resident.1 resident.2).act_isPartition h)
    rw [Turn.act, h.processesOf_alter, getKey_removeKey h.processes_nodup] at hrest
    refine hrest.trans ?_
    have hmem : key ∈ (resident :: residents).map (fun resident => resident.1.strProcessId) ↔
        key = resident.1.strProcessId ∨
          key ∈ residents.map fun resident => resident.1.strProcessId := by
      rw [List.map_cons, List.mem_cons]
    rw [if_congr hmem rfl rfl]
    by_cases hself : key = resident.1.strProcessId
    · rw [if_pos hself, if_pos (Or.inl hself), ite_self]
    · rw [if_neg hself, if_congr (or_iff_right hself) rfl rfl]

theorem filter_releasesOf (residents : List (Worker × Nat)) (i : Nat) :
    (releasesOf residents).filter (fun turn => turn.memIndex = i) =
      releasesOf (residents.filter fun resident => resident.2 = i) := by
  rw [releasesOf, List.filter_map, releasesOf]
  rfl

/-- Releases in two orders do the same to a partition, up to the order of its table. -/
theorem releases_perm {residents residents' : List (Worker × Nat)}
    (hperm : residents.Perm residents') {p : JsonObject JsonValue} (h : IsPartition p) :
    SameMembers (actAll (releasesOf residents) p) (actAll (releasesOf residents') p) ∧
    freeSpaceOf (actAll (releasesOf residents') p) = freeSpaceOf (actAll (releasesOf residents) p) ∧
    ∀ key, getKey (processesOf (actAll (releasesOf residents') p)) key =
      getKey (processesOf (actAll (releasesOf residents) p)) key := by
  have hmembers := sameMembers_actAll (releasesOf residents) p
  have hmembers' := sameMembers_actAll (releasesOf residents') p
  refine ⟨⟨?_, ?_⟩, ?_, ?_⟩
  · exact hmembers'.names.trans hmembers.names.symm
  · intro name hfree hprocesses
    exact (hmembers'.values name hfree hprocesses).trans (hmembers.values name hfree hprocesses).symm
  · rw [freeSpaceOf_releases residents h, freeSpaceOf_releases residents' h,
      (hperm.map fun resident => resident.1.processSize).sum_eq]
  · intro key
    rw [getKey_releases residents key h, getKey_releases residents' key h]
    have hmem := (hperm.map fun resident => resident.1.strProcessId).mem_iff (a := key)
    simp only [hmem]

/-- The search reads nothing but the free spaces. -/
theorem placement_of_alike {a b : Content} (ha : WellFormed a) (hb : WellFormed b) (h : Alike a b)
    (algorithm : Algorithm) (worker : Worker) :
    placement algorithm worker (reprint (cString a)) =
      placement algorithm worker (reprint (cString b)) := by
  obtain ⟨partitions, hholds⟩ := holds_of_wellFormed ha
  obtain ⟨partitions', hholds'⟩ := holds_of_wellFormed hb
  have hcount : partitions.length = partitions'.length := by
    rw [← hholds.partitionsFound_eq, ← hholds'.partitionsFound_eq, h.count]
  have hread : ∀ (l : List (JsonObject JsonValue)) (i : Nat),
      jsonArrayGetObject (jsonValueGetArray (some (memoryOf l))) i = l[i]? := by
    intro l i
    simp only [memoryOf, jsonValueGetArray, jsonArrayGetObject, Option.bind_some, jsonArrayGetValue,
      List.getElem?_map]
    cases l[i]? <;> rfl
  have hfree : (fun i : Nat => jsonObjectGetNumber partitions[i]? freeSpaceName) =
      fun i : Nat => jsonObjectGetNumber partitions'[i]? freeSpaceName := by
    funext i
    cases hp : partitions[i]? with
    | none =>
      have hlength := List.getElem?_eq_none_iff.mp hp
      rw [List.getElem?_eq_none (by omega)]
    | some p =>
      obtain ⟨q, hq, -, hspace, -⟩ := h.partitions i p ((hholds.partitionFound_eq i).trans hp)
      rw [hholds'.partitionFound_eq] at hq
      rw [hq]
      exact hspace.symm
  rw [placement, placement, hholds.parseText_reprint, hholds'.parseText_reprint, searchIndex,
    searchIndex]
  simp only [hread, hfree]
  simp [memoryOf, jsonValueGetArray, jsonArrayGetCount, hcount]

/-- The release sections of any workers, in two orders, leave memories alike, in which
every search has the same answer. -/
theorem release_order_irrelevant {content : Content} (hcontent : WellFormed content)
    {residents residents' : List (Worker × Nat)} (hperm : residents.Perm residents') :
    ∃ a b, runTurns (releasesOf residents) content = some a ∧
      runTurns (releasesOf residents') content = some b ∧ Alike a b ∧
      ∀ algorithm worker, placement algorithm worker (reprint (cString a)) =
        placement algorithm worker (reprint (cString b)) := by
  obtain ⟨partitions, hholds⟩ := holds_of_wellFormed hcontent
  obtain ⟨a, hruns, ha⟩ := runTurns_holds (releasesOf residents) hholds
  obtain ⟨b, hruns', hb⟩ := runTurns_holds (releasesOf residents') hholds
  have halike : Alike a b := by
    constructor
    · rw [ha.partitionsFound_eq, hb.partitionsFound_eq, length_foldl_change, length_foldl_change]
    · intro i p hp
      rw [ha.partitionFound_eq, getElem?_foldl_change, filter_releasesOf] at hp
      obtain ⟨old, hold, rfl⟩ := Option.map_eq_some_iff.mp hp
      refine ⟨actAll (releasesOf (residents'.filter fun resident => resident.2 = i)) old, ?_,
        releases_perm (hperm.filter _) (hholds.isPartition old (List.mem_of_getElem? hold))⟩
      rw [hb.partitionFound_eq, getElem?_foldl_change, filter_releasesOf, hold]
      rfl
  exact ⟨a, b, hruns, hruns', halike, placement_of_alike ha.wellFormed hb.wellFormed halike⟩

/-- Two workers admitted to one partition leave it in either order. -/
theorem release_order_irrelevant_tenUnits :
    ∃ content, runTurns [.admits ⟨0, 7, 3, 30⟩ 0, .admits ⟨1, 8, 2, 40⟩ 0]
        (memoryFile tenUnits (unoccupied tenUnits).partitions) = some content ∧
      ∃ a b, runTurns (releasesOf [(⟨0, 7, 3, 30⟩, 0), (⟨1, 8, 2, 40⟩, 0)]) content = some a ∧
        runTurns (releasesOf [(⟨1, 8, 2, 40⟩, 0), (⟨0, 7, 3, 30⟩, 0)]) content = some b ∧
        Alike a b ∧ ∀ algorithm worker, placement algorithm worker (reprint (cString a)) =
          placement algorithm worker (reprint (cString b)) := by
  have hcontent : WellFormed (memoryFile tenUnits (unoccupied tenUnits).partitions) :=
    wellFormed_memoryFile _ (framed_unoccupied (by decide))
  obtain ⟨partitions, hholds⟩ := holds_of_wellFormed hcontent
  obtain ⟨content, hrun, -⟩ :=
    runTurns_holds [.admits ⟨0, 7, 3, 30⟩ 0, .admits ⟨1, 8, 2, 40⟩ 0] hholds
  exact ⟨content, hrun, release_order_irrelevant (hcontent.runTurns hrun) (List.Perm.swap _ _ _)⟩

end DynamicPartitions.Properties.Release
