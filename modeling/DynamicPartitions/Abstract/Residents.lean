import DynamicPartitions.Lib.Table

/-!
# A partition and its residents

The abstract side of the memory. A partition counts its free space and keeps a table
of processes that takes a new entry only while it holds at most `bound` of them. The
residents are the processes that are in, whether a table recorded them or not.
-/
namespace DynamicPartitions.Abstract.Residents

open DynamicPartitions.Lib.Table

variable {Id : Type} [DecidableEq Id]

/-- What a table records of a process. -/
structure Process where
  size : Int
  delay : Int
deriving DecidableEq, Repr

structure Partition (Id : Type) where
  size : Int
  freeSpace : Int
  processes : List (Id × Process)
deriving DecidableEq, Repr

/-- A process in the partition at `index`. -/
structure Resident (Id : Type) where
  id : Id
  process : Process
  index : Nat
deriving DecidableEq, Repr

def Partition.enter (bound : Nat) (id : Id) (process : Process) (p : Partition Id) :
    Partition Id :=
  { p with
    freeSpace := p.freeSpace - process.size
    processes := enterKey bound p.processes id process }

def Partition.release (id : Id) (process : Process) (p : Partition Id) : Partition Id :=
  { p with
    freeSpace := p.freeSpace + process.size
    processes := removeKey p.processes id }

/-- The space the residents of a partition take. -/
def occupied (residents : Multiset (Resident Id)) (k : Nat) : Int :=
  ((residents.filter (·.index = k)).map (·.process.size)).sum

/-- The entries an exact table of a partition would hold. -/
def entriesAt (residents : Multiset (Resident Id)) (k : Nat) : Multiset (Id × Process) :=
  (residents.filter (·.index = k)).map fun r => (r.id, r.process)

omit [DecidableEq Id] in
theorem occupied_cons (r : Resident Id) (residents : Multiset (Resident Id)) (k : Nat) :
    occupied (r ::ₘ residents) k =
      (if r.index = k then r.process.size else 0) + occupied residents k := by
  unfold occupied
  rw [Multiset.filter_cons]
  split <;> simp

omit [DecidableEq Id] in
theorem entriesAt_cons (r : Resident Id) (residents : Multiset (Resident Id)) (k : Nat) :
    entriesAt (r ::ₘ residents) k =
      if r.index = k then (r.id, r.process) ::ₘ entriesAt residents k
      else entriesAt residents k := by
  unfold entriesAt
  rw [Multiset.filter_cons]
  split <;> simp

omit [DecidableEq Id] in
theorem occupied_nonneg {residents : Multiset (Resident Id)}
    (h : ∀ r ∈ residents, 0 < r.process.size) (k : Nat) : 0 ≤ occupied residents k := by
  refine Multiset.sum_nonneg fun x hx => ?_
  obtain ⟨r, hr, rfl⟩ := Multiset.mem_map.mp hx
  exact (h r (Multiset.mem_filter.mp hr).1).le

omit [DecidableEq Id] in
theorem size_le_occupied {residents : Multiset (Resident Id)}
    (h : ∀ r ∈ residents, 0 < r.process.size) {r : Resident Id} (hr : r ∈ residents) :
    r.process.size ≤ occupied residents r.index := by
  obtain ⟨rest, rfl⟩ := Multiset.exists_cons_of_mem hr
  have hrest := occupied_nonneg (fun q hq => h q (Multiset.mem_cons_of_mem hq)) r.index
  rw [occupied_cons, if_pos rfl]
  omega

omit [DecidableEq Id] in
theorem mem_entriesAt {r : Resident Id} {residents : Multiset (Resident Id)} (h : r ∈ residents) :
    (r.id, r.process) ∈ entriesAt residents r.index :=
  Multiset.mem_map_of_mem _ (Multiset.mem_filter.mpr ⟨h, rfl⟩)

omit [DecidableEq Id] in
theorem map_fst_entriesAt_le (residents : Multiset (Resident Id)) (k : Nat) :
    (entriesAt residents k).map Prod.fst ≤ residents.map Resident.id := by
  unfold entriesAt
  rw [Multiset.map_map]
  exact Multiset.map_le_map (Multiset.filter_le _ _)

omit [DecidableEq Id] in
theorem mem_map_id_of_mem_entriesAt {residents : Multiset (Resident Id)} {k : Nat}
    {entry : Id × Process} (h : entry ∈ entriesAt residents k) :
    entry.1 ∈ residents.map Resident.id :=
  Multiset.mem_of_le (map_fst_entriesAt_le residents k) (Multiset.mem_map_of_mem _ h)

/-- With distinct ids, forgetting one process takes its entry out of the table only. -/
theorem filter_entriesAt {r : Resident Id} {residents : Multiset (Resident Id)}
    (h : r.id ∉ residents.map Resident.id) (k : Nat) :
    (entriesAt (r ::ₘ residents) k).filter (fun entry => entry.1 ≠ r.id) =
      entriesAt residents k := by
  have hrest : (entriesAt residents k).filter (fun entry => entry.1 ≠ r.id) =
      entriesAt residents k := by
    refine Multiset.filter_eq_self.mpr fun entry hentry he => h ?_
    exact he ▸ mem_map_id_of_mem_entriesAt hentry
  rw [entriesAt_cons]
  split
  · rw [Multiset.filter_cons_of_neg _ (by simp), hrest]
  · exact hrest

end DynamicPartitions.Abstract.Residents
