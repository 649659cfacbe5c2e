import DynamicPartitions.Abstract.Residents

/-!
# The allocator

An allocator cannot be built with its books out of balance: in every partition the
free space and the residents add up to the size, and a table lists residents only.
Admitting and releasing keep that by construction.
-/
namespace DynamicPartitions.Abstract.Accounting

open DynamicPartitions.Lib.Table
open DynamicPartitions.Abstract.Residents

variable {Id : Type} [DecidableEq Id] {bound : Nat}

structure Allocator (Id : Type) [DecidableEq Id] (bound : Nat) where
  partitions : List (Partition Id)
  residents : Multiset (Resident Id)
  ids_nodup : (residents.map Resident.id).Nodup
  size_pos : ∀ r ∈ residents, 0 < r.process.size
  index_lt : ∀ r ∈ residents, r.index < partitions.length
  conserved : ∀ k p, partitions[k]? = some p → p.freeSpace + occupied residents k = p.size
  freeSpace_nonneg : ∀ p ∈ partitions, 0 ≤ p.freeSpace
  tables : ∀ k p, partitions[k]? = some p →
    (p.processes : Multiset (Id × Process)) ≤ entriesAt residents k
  tables_length : ∀ p ∈ partitions, p.processes.length ≤ bound + 1

namespace Allocator

theorem freeSpace_le_size (a : Allocator Id bound) {k : Nat} {p : Partition Id}
    (h : a.partitions[k]? = some p) : p.freeSpace ≤ p.size := by
  have hsum := a.conserved k p h
  have hocc := occupied_nonneg a.size_pos k
  omega

/-- The ids in a table are distinct. -/
theorem keys_nodup (a : Allocator Id bound) {k : Nat} {p : Partition Id}
    (h : a.partitions[k]? = some p) : (keys p.processes).Nodup := by
  have hle : ((keys p.processes : List Id) : Multiset Id) ≤ a.residents.map Resident.id := by
    refine le_trans ?_ (map_fst_entriesAt_le a.residents k)
    rw [keys, ← Multiset.map_coe]
    exact Multiset.map_le_map (a.tables k p h)
  exact Multiset.coe_nodup.mp (Multiset.nodup_of_le hle a.ids_nodup)

theorem mem_residents_of_mem_keys (a : Allocator Id bound) {k : Nat} {p : Partition Id}
    (h : a.partitions[k]? = some p) {id : Id} (hid : id ∈ keys p.processes) :
    id ∈ a.residents.map Resident.id := by
  obtain ⟨entry, hentry, rfl⟩ := List.mem_map.mp hid
  exact mem_map_id_of_mem_entriesAt (Multiset.mem_of_le (a.tables k p h) hentry)

/-- A process may enter: its id is new, it takes space, and the partition has it. -/
structure Admissible (a : Allocator Id bound) (r : Resident Id) : Prop where
  fresh : r.id ∉ a.residents.map Resident.id
  pos : 0 < r.process.size
  fits : ∃ p, a.partitions[r.index]? = some p ∧ r.process.size ≤ p.freeSpace

omit [DecidableEq Id] in
/-- Looking a partition up after one of them changed. -/
theorem getElem?_modify_cases {partitions : List (Partition Id)} {i k : Nat}
    {f : Partition Id → Partition Id} {q : Partition Id} (h : (partitions.modify i f)[k]? = some q) :
    ∃ p, partitions[k]? = some p ∧ q = if i = k then f p else p := by
  rw [List.getElem?_modify] at h
  obtain ⟨p, hp, rfl⟩ := Option.map_eq_some_iff.mp h
  exact ⟨p, hp, rfl⟩

/-- A process enters the partition it fits in. -/
def enter (a : Allocator Id bound) (r : Resident Id) (h : Admissible a r) : Allocator Id bound where
  partitions := a.partitions.modify r.index (Partition.enter bound r.id r.process)
  residents := r ::ₘ a.residents
  ids_nodup := by
    rw [Multiset.map_cons, Multiset.nodup_cons]
    exact ⟨h.fresh, a.ids_nodup⟩
  size_pos := by
    intro q hq
    rcases Multiset.mem_cons.mp hq with rfl | hq
    · exact h.pos
    · exact a.size_pos q hq
  index_lt := by
    intro q hq
    rw [List.length_modify]
    rcases Multiset.mem_cons.mp hq with rfl | hq
    · obtain ⟨p, hp, -⟩ := h.fits
      exact (List.getElem?_eq_some_iff.mp hp).1
    · exact a.index_lt q hq
  conserved := by
    intro k q hq
    obtain ⟨p, hp, rfl⟩ := getElem?_modify_cases hq
    have hsum := a.conserved k p hp
    rw [occupied_cons]
    split
    · simp only [Partition.enter]
      omega
    · omega
  freeSpace_nonneg := by
    intro q hq
    obtain ⟨k, hk⟩ := List.mem_iff_getElem?.mp hq
    obtain ⟨p, hp, rfl⟩ := getElem?_modify_cases hk
    have hnonneg := a.freeSpace_nonneg p (List.mem_of_getElem? hp)
    split
    · next hindex =>
      obtain ⟨p', hp', hfits⟩ := h.fits
      rw [hindex, hp] at hp'
      obtain rfl := Option.some.inj hp'
      simp only [Partition.enter]
      omega
    · exact hnonneg
  tables := by
    intro k q hq
    obtain ⟨p, hp, rfl⟩ := getElem?_modify_cases hq
    have htable := a.tables k p hp
    rw [entriesAt_cons]
    split
    · have hnew : r.id ∉ keys p.processes := fun hid =>
        h.fresh (a.mem_residents_of_mem_keys hp hid)
      simp only [Partition.enter, enterKey_of_not_mem bound hnew]
      split
      · rw [← Multiset.coe_add, Multiset.coe_singleton, add_comm, Multiset.singleton_add]
        exact Multiset.cons_le_cons _ htable
      · exact htable.trans (Multiset.le_cons_self _ _)
    · exact htable
  tables_length := by
    intro q hq
    obtain ⟨k, hk⟩ := List.mem_iff_getElem?.mp hq
    obtain ⟨p, hp, rfl⟩ := getElem?_modify_cases hk
    have hlen := a.tables_length p (List.mem_of_getElem? hp)
    split
    · exact length_enterKey_le bound _ _ _ hlen
    · exact hlen

/-- A resident leaves its partition. -/
def release (a : Allocator Id bound) (r : Resident Id) (h : r ∈ a.residents) :
    Allocator Id bound where
  partitions := a.partitions.modify r.index (Partition.release r.id r.process)
  residents := a.residents.erase r
  ids_nodup := by
    have hnodup := a.ids_nodup
    rw [← Multiset.cons_erase h, Multiset.map_cons, Multiset.nodup_cons] at hnodup
    exact hnodup.2
  size_pos := fun q hq => a.size_pos q (Multiset.mem_of_mem_erase hq)
  index_lt := fun q hq => by
    rw [List.length_modify]
    exact a.index_lt q (Multiset.mem_of_mem_erase hq)
  conserved := by
    intro k q hq
    obtain ⟨p, hp, rfl⟩ := getElem?_modify_cases hq
    have hsum := a.conserved k p hp
    rw [← Multiset.cons_erase h, occupied_cons] at hsum
    split
    · next hindex =>
      rw [if_pos hindex] at hsum
      simp only [Partition.release]
      omega
    · next hindex =>
      rw [if_neg hindex] at hsum
      omega
  freeSpace_nonneg := by
    intro q hq
    obtain ⟨k, hk⟩ := List.mem_iff_getElem?.mp hq
    obtain ⟨p, hp, rfl⟩ := getElem?_modify_cases hk
    have hnonneg := a.freeSpace_nonneg p (List.mem_of_getElem? hp)
    have hpos := a.size_pos r h
    split
    · simp only [Partition.release]
      omega
    · exact hnonneg
  tables := by
    intro k q hq
    obtain ⟨p, hp, rfl⟩ := getElem?_modify_cases hq
    have htable := a.tables k p hp
    have hnodup := a.ids_nodup
    rw [← Multiset.cons_erase h, Multiset.map_cons, Multiset.nodup_cons] at hnodup
    rw [← Multiset.cons_erase h] at htable
    split
    · simp only [Partition.release, coe_removeKey (a.keys_nodup hp)]
      rw [← filter_entriesAt hnodup.1 k]
      exact Multiset.filter_le_filter _ htable
    · next hindex =>
      rwa [entriesAt_cons, if_neg hindex] at htable
  tables_length := by
    intro q hq
    obtain ⟨k, hk⟩ := List.mem_iff_getElem?.mp hq
    obtain ⟨p, hp, rfl⟩ := getElem?_modify_cases hk
    have hlen := a.tables_length p (List.mem_of_getElem? hp)
    split
    · exact (length_removeKey_le _ _).trans hlen
    · exact hlen

/-- What a client asks of an allocator. -/
inductive Request (Id : Type) where
  | attempt (id : Id) (process : Process)
  | release (resident : Resident Id)
deriving DecidableEq

/-- One request, served in one piece: an attempt goes where `choose` says or is turned
away, a release gives back what a resident took. -/
inductive Serves (choose : List (Partition Id) → Int → Option Nat) :
    Allocator Id bound → Request Id → Allocator Id bound → Prop
  | rejected {a : Allocator Id bound} {id : Id} {process : Process}
      (hchoose : choose a.partitions process.size = none) :
      Serves choose a (.attempt id process) a
  | admitted {a : Allocator Id bound} {id : Id} {process : Process} {k : Nat}
      (hchoose : choose a.partitions process.size = some k) (h : Admissible a ⟨id, process, k⟩) :
      Serves choose a (.attempt id process) (a.enter ⟨id, process, k⟩ h)
  | released {a : Allocator Id bound} {r : Resident Id} (h : r ∈ a.residents) :
      Serves choose a (.release r) (a.release r h)

/-- An allocator nobody is in. -/
def empty (sizes : List Int) (h : ∀ n ∈ sizes, 0 ≤ n) : Allocator Id bound where
  partitions := sizes.map fun n => ⟨n, n, []⟩
  residents := 0
  ids_nodup := by simp
  size_pos := by simp
  index_lt := by simp
  conserved := by
    intro k p hp
    rw [List.getElem?_map] at hp
    obtain ⟨n, -, rfl⟩ := Option.map_eq_some_iff.mp hp
    simp [occupied]
  freeSpace_nonneg := by
    intro p hp
    obtain ⟨n, hn, rfl⟩ := List.mem_map.mp hp
    exact h n hn
  tables := by
    intro k p hp
    rw [List.getElem?_map] at hp
    obtain ⟨n, -, rfl⟩ := Option.map_eq_some_iff.mp hp
    simp
  tables_length := by
    intro p hp
    obtain ⟨n, -, rfl⟩ := List.mem_map.mp hp
    exact Nat.zero_le _

/-- Without residents the partitions are those the allocator was built with. -/
theorem partitions_of_no_residents (a : Allocator Id bound) (h : a.residents = 0) :
    a.partitions = a.partitions.map fun p => ⟨p.size, p.size, []⟩ := by
  refine List.ext_getElem? fun k => ?_
  rw [List.getElem?_map]
  cases hp : a.partitions[k]? with
  | none => rfl
  | some p =>
    have hsum := a.conserved k p hp
    have htable := a.tables k p hp
    rw [h] at hsum htable
    have hempty : p.processes = [] := by simpa [entriesAt] using htable
    simp only [occupied, Multiset.filter_zero, Multiset.map_zero, Multiset.sum_zero, add_zero] at hsum
    obtain ⟨size, freeSpace, processes⟩ := p
    simp only at hsum hempty
    rw [hempty, hsum, Option.map_some]

omit [DecidableEq Id] in
theorem sum_freeSpace_add (partitions : List (Partition Id)) :
    ∀ taken : Nat → Int, (∀ k p, partitions[k]? = some p → p.freeSpace + taken k = p.size) →
      (partitions.map Partition.freeSpace).sum + ∑ k ∈ Finset.range partitions.length, taken k =
        (partitions.map Partition.size).sum := by
  induction partitions with
  | nil => simp
  | cons p rest ih =>
    intro taken h
    have hfirst := h 0 p rfl
    have hrest := ih (fun k => taken (k + 1)) fun k q hq => h (k + 1) q hq
    rw [List.length_cons, Finset.sum_range_succ', List.map_cons, List.map_cons, List.sum_cons,
      List.sum_cons]
    omega

omit [DecidableEq Id] in
theorem sum_occupied (residents : Multiset (Resident Id)) (n : Nat)
    (h : ∀ r ∈ residents, r.index < n) :
    ∑ k ∈ Finset.range n, occupied residents k = (residents.map (·.process.size)).sum := by
  induction residents using Multiset.induction_on with
  | empty => simp [occupied]
  | cons r rest ih =>
    have hr := h r (Multiset.mem_cons_self r rest)
    simp only [occupied_cons, Finset.sum_add_distrib, Multiset.map_cons, Multiset.sum_cons]
    rw [ih fun q hq => h q (Multiset.mem_cons_of_mem hq), Finset.sum_ite_eq,
      if_pos (Finset.mem_range.mpr hr)]

/-- Over all partitions, what is free and what is taken is all there is. -/
theorem total_conserved (a : Allocator Id bound) :
    (a.partitions.map Partition.freeSpace).sum + (a.residents.map (·.process.size)).sum =
      (a.partitions.map Partition.size).sum := by
  rw [← sum_occupied a.residents a.partitions.length a.index_lt]
  exact sum_freeSpace_add a.partitions (occupied a.residents) a.conserved

/-! ## Exact tables -/

/-- The tables list every resident, not only residents. -/
def Exact (a : Allocator Id bound) : Prop :=
  ∀ k p, a.partitions[k]? = some p →
    (p.processes : Multiset (Id × Process)) = entriesAt a.residents k

theorem exact_empty (sizes : List Int) (h : ∀ n ∈ sizes, 0 ≤ n) :
    Exact (empty sizes h : Allocator Id bound) := by
  intro k p hp
  simp only [empty, List.getElem?_map] at hp
  obtain ⟨n, -, rfl⟩ := Option.map_eq_some_iff.mp hp
  simp [empty, entriesAt]

/-- A table with room records who enters. -/
theorem exact_enter {a : Allocator Id bound} {r : Resident Id} (h : Admissible a r) (hexact : Exact a)
    (hroom : ∀ p, a.partitions[r.index]? = some p → p.processes.length ≤ bound) :
    Exact (a.enter r h) := by
  intro k q hq
  obtain ⟨p, hp, rfl⟩ := getElem?_modify_cases hq
  simp only [enter, entriesAt_cons]
  split
  · next hindex =>
    have hnew : r.id ∉ keys p.processes := fun hid => h.fresh (a.mem_residents_of_mem_keys hp hid)
    simp only [Partition.enter, enterKey_of_not_mem bound hnew, if_pos (hroom p (hindex ▸ hp))]
    rw [← Multiset.coe_add, Multiset.coe_singleton, add_comm, Multiset.singleton_add, hexact k p hp]
  · exact hexact k p hp

theorem exact_release {a : Allocator Id bound} {r : Resident Id} (h : r ∈ a.residents)
    (hexact : Exact a) : Exact (a.release r h) := by
  intro k q hq
  obtain ⟨p, hp, rfl⟩ := getElem?_modify_cases hq
  have hnodup := a.ids_nodup
  have hentries := hexact k p hp
  rw [← Multiset.cons_erase h] at hnodup hentries
  rw [Multiset.map_cons, Multiset.nodup_cons] at hnodup
  simp only [release]
  split
  · simp only [Partition.release, coe_removeKey (a.keys_nodup hp)]
    rw [hentries]
    exact filter_entriesAt hnodup.1 k
  · next hindex => rw [hentries, entriesAt_cons, if_neg hindex]

/-- A request keeps the tables exact unless it goes to a table without room. -/
theorem Serves.exact {choose : List (Partition Id) → Int → Option Nat} {a b : Allocator Id bound}
    {q : Request Id} (h : Serves choose a q b) (hexact : Exact a)
    (hroom : ∀ id process k p, q = .attempt id process →
      choose a.partitions process.size = some k → a.partitions[k]? = some p →
      p.processes.length ≤ bound) : Exact b := by
  cases h with
  | rejected hchoose => exact hexact
  | admitted hchoose hadm => exact exact_enter hadm hexact fun p hp => hroom _ _ _ p rfl hchoose hp
  | released hr => exact exact_release hr hexact

end Allocator

end DynamicPartitions.Abstract.Accounting
