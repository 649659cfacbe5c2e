import DynamicPartitions.Program.Observation
import DynamicPartitions.Program.Spy
import DynamicPartitions.Refinement.WaitingList

/-!
# What Spy prints of complete files

The waiting list as it is, and every process table that is not empty, under the names
of the threads.
-/
namespace DynamicPartitions.Refinement.Display

open DynamicPartitions.Lib.Table
open DynamicPartitions.Parson.Value
open DynamicPartitions.Parson.Acceptance
open DynamicPartitions.Abstract.Residents
open DynamicPartitions.Program.MappedFile
open DynamicPartitions.Program.WorkerThread
open DynamicPartitions.Program.Observation
open DynamicPartitions.Program.Spy
open DynamicPartitions.Refinement.Representation
open DynamicPartitions.Refinement.Memory
open DynamicPartitions.Refinement.WaitingList

/-! ## The waiting list -/

theorem readWhole_waitingFile (r : Waiting) : readWhole (waitingFile r) = .ok (some (waitingText r)) :=
  readWhole_complete (canonical_waitingValue r)

theorem namesIn_waitingText (r : Waiting) :
    namesIn (parseText (some (waitingText r))) = r.ids.map idName := by
  rw [parseText_waitingText]
  exact keys_waiting r

/-! ## The tables -/

/-- What is printed of a partition. -/
def tableShown (p : Partition Nat) : Option (Option CString) :=
  if p.processes = [] then none else some (some (pretty (tableValue p.processes)))

/-- A loop over the indices of a list that treats each by its element. -/
theorem mapM_range {α β ε : Type} {f : Nat → Except ε β} {g : α → β} {xs : List α}
    (h : ∀ i x, xs[i]? = some x → f i = .ok (g x)) :
    (List.range xs.length).mapM f = .ok (xs.map g) := by
  induction xs generalizing f with
  | nil => rfl
  | cons x xs ih =>
    have hrest : (List.range xs.length).mapM (fun i => f (i + 1)) = .ok (xs.map g) :=
      ih fun i y hy => h (i + 1) y hy
    rw [List.length_cons, List.range_succ_eq_map, List.mapM_cons, List.mapM_map, h 0 x rfl]
    show (List.range xs.length).mapM (fun i => f (i + 1)) >>= _ = _
    rw [hrest]
    rfl

section Memory

variable {frames : List Frame} {a : Books} (h : Framed frames a.partitions)
include h

theorem spyOnPartition_memory {i : Nat} {p : Partition Nat} (hp : a.partitions[i]? = some p) :
    spyOnPartition (jsonValueGetArray (some (memoryValue frames a.partitions))) i =
      .ok (tableShown p) := by
  obtain ⟨hlt, -⟩ := List.getElem?_eq_some_iff.mp hp
  obtain ⟨frame, hframe⟩ : ∃ frame, frames[i]? = some frame :=
    ⟨_, List.getElem?_eq_getElem (h.length_eq ▸ hlt)⟩
  have hempty := jsonValueEquals_init (tableObject processValue p.processes)
  rw [spyOnPartition, jsonArrayGetObject_memory, hframe, hp]
  simp only [Frame.object, tableValue, getProcesses_fields]
  by_cases hnone : p.processes = []
  · have hentries : (tableObject processValue p.processes).entries = [] := by simp [tableObject, hnone]
    rw [if_pos (hempty.mpr hentries), tableShown, if_pos hnone]
  · have hentries : (tableObject processValue p.processes).entries ≠ [] := by simp [tableObject, hnone]
    rw [if_neg (fun hequal => hentries (hempty.mp hequal)), tableShown, if_neg hnone]
    rfl

theorem spyOnMemory_printed :
    spyOnMemory (some (printed frames a.partitions)) = .ok (a.partitions.filterMap tableShown) := by
  have hcount : ((jsonValueGetArray (some (memoryValue frames a.partitions))).map
      jsonArrayGetCount).getD 0 = a.partitions.length := by
    simp [memoryValue, jsonValueGetArray, jsonArrayGetCount, h.length_eq]
  have hloop := mapM_range fun i p hp => spyOnPartition_memory h hp
  rw [spyOnMemory, parseText_printed a h]
  simp only [hcount, hloop]
  show Except.ok _ = _
  simp

theorem listMemory_memoryFile :
    listMemory (memoryFile frames a.partitions) = .ok (a.partitions.filterMap tableShown) := by
  have hread : readWhole (memoryFile frames a.partitions) = .ok (some (printed frames a.partitions)) :=
    readWhole_complete (canonical_memoryValue a h)
  rw [listMemory, hread]
  exact spyOnMemory_printed h

end Memory

/-- The entries of an allocator's partition are named in what is printed of it. -/
theorem named_of_mem {a : Books} {i : Nat} {p : Partition Nat} (hp : a.partitions[i]? = some p)
    {id : Nat} {process : Process} (hmem : (id, process) ∈ p.processes) :
    ∃ text ∈ a.partitions.filterMap tableShown, idName id ∈ namesIn (parseText text) := by
  have hcanonical : Canonical (tableValue p.processes) :=
    accepted_tableValue (maxNesting - 2) (a.keys_nodup hp)
      (a.tables_length p (List.mem_of_getElem? hp))
  refine ⟨some (pretty (tableValue p.processes)), ?_, ?_⟩
  · apply List.mem_filterMap.mpr
    refine ⟨p, List.mem_of_getElem? hp, ?_⟩
    rw [tableShown, if_neg (List.ne_nil_of_mem hmem)]
  · have hparse : parseText (some (pretty (tableValue p.processes))) = some (tableValue p.processes) :=
      jsonParseString_pretty hcanonical
    rw [hparse]
    show idName id ∈ keys (tableObject processValue p.processes).entries
    rw [keys_tableObject]
    exact List.mem_map_of_mem (mem_keys_of_mem hmem)

end DynamicPartitions.Refinement.Display
