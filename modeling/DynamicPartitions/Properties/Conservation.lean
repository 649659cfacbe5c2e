import DynamicPartitions.Program.Observation
import DynamicPartitions.Program.Trails
import DynamicPartitions.Refinement.Runs
import DynamicPartitions.Refinement.Solo

/-!
# Space is conserved

What the allocator's books say, read off the memory file: in every partition the free
space and the admitted workers add up to the size, and a memory everybody has left is
the initial one.
-/
namespace DynamicPartitions.Properties.Conservation

open DynamicPartitions.Lib.Update
open DynamicPartitions.Parson.Value
open DynamicPartitions.Parson.Parser
open DynamicPartitions.Parson.Serializer
open DynamicPartitions.Abstract.Residents
open DynamicPartitions.Abstract.Accounting
open DynamicPartitions.Program.Algorithms
open DynamicPartitions.Program.MappedFile
open DynamicPartitions.Program.WorkerThread
open DynamicPartitions.Program.Threads
open DynamicPartitions.Program.Moves
open DynamicPartitions.Program.Exclusion
open DynamicPartitions.Program.Calls
open DynamicPartitions.Program.Observation
open DynamicPartitions.Program.Trails
open DynamicPartitions.Refinement.Representation
open DynamicPartitions.Refinement.Memory
open DynamicPartitions.Refinement.Simulation
open DynamicPartitions.Refinement.Runs
open DynamicPartitions.Refinement.WaitingList
open DynamicPartitions.Refinement.Solo

/-! ## Reading the memory of an allocator -/

section Reading

variable {frames : List Frame} {partitions : List (Partition Nat)} (h : Framed frames partitions)

include h in
theorem partitionCount_memory :
    partitionCount (some (memoryValue frames partitions)) = partitions.length := by
  simp [partitionCount, memoryValue, jsonValueGetArray, jsonArrayGetCount, h.length_eq]

include h in
/-- Below the count there are a partition and its frame, and their sizes agree. -/
theorem exists_partition {i : Nat} (hi : i < partitions.length) :
    ∃ frame p, frames[i]? = some frame ∧ partitions[i]? = some p ∧ p.size = frame.size ∧
      partitionAt (some (memoryValue frames partitions)) i =
        some (frame.object p.freeSpace (tableValue p.processes)) := by
  have hi' : i < frames.length := h.length_eq ▸ hi
  refine ⟨frames[i], partitions[i], List.getElem?_eq_getElem hi', List.getElem?_eq_getElem hi, ?_, ?_⟩
  · have hsize := congrArg (fun sizes : List Int => sizes[i]?) h.sizes
    simpa [hi, hi'] using hsize
  · rw [partitionAt, jsonArrayGetObject_memory]
    simp only [List.getElem?_eq_getElem hi', List.getElem?_eq_getElem hi]

theorem freeSpaceIn_of_partitionAt {memory : Option JsonValue} {i : Nat} {frame : Frame}
    {p : Partition Nat}
    (hat : partitionAt memory i = some (frame.object p.freeSpace (tableValue p.processes))) :
    freeSpaceIn memory i = p.freeSpace ∧ sizeIn memory i = frame.size ∧
      processesIn memory i = (tableObject processValue p.processes).entries := by
  refine ⟨?_, ?_, ?_⟩
  · rw [freeSpaceIn, hat, Frame.object, freeSpace_fields]
  · rw [sizeIn, hat]
    simp [jsonObjectGetNumber, jsonObjectGetValue, Frame.object, Frame.getKey_size,
      jsonValueGetNumber]
  · rw [processesIn, hat, Frame.object, tableValue, getProcesses_fields]
    rfl

end Reading

/-! ## The memory file in a quiet state -/

theorem quiet_of_between {s : Producer} (h : BetweenSections s) : Quiet .memory s := by
  intro thread hthread
  have hout := h thread hthread
  cases hpc : thread.pc with
  | writing call stage =>
    cases call with
    | registration => cases stage <;> simp [Pc.isWriting, WriteCall.file]
    | _ => simp [hpc, Pc.isCritical] at hout
  | _ => rfl

section Quiet

variable {algorithm : Algorithm} {frames : List Frame} {s : Producer} {a : Books}

/-- The memory file is complete whenever no worker is inside a write of it. -/
theorem memory_of_quiet (h : Refines algorithm frames s a) (hquiet : Quiet .memory s) :
    s.shared.memory = memoryFile frames a.partitions := by
  by_cases hbetween : BetweenSections s
  · exact h.idle hbetween
  · simp only [BetweenSections, not_forall, Bool.not_eq_false] at hbetween
    obtain ⟨thread, hthread, hcrit⟩ := hbetween
    have hview := h.view thread hthread hcrit
    have hstill := hquiet thread hthread
    unfold View at hview
    split at hview
    · exact hview.1
    · exact hview.1
    · next stage hpc =>
      cases stage with
      | opening => exact hview.2.1
      | stretching => simp [hpc, Pc.isWriting, WriteCall.file] at hstill
      | copying => simp [hpc, Pc.isWriting, WriteCall.file] at hstill
    · next stage hpc =>
      cases stage with
      | opening => exact hview.1
      | stretching => simp [hpc, Pc.isWriting, WriteCall.file] at hstill
      | copying => simp [hpc, Pc.isWriting, WriteCall.file] at hstill
    · exact hview

theorem memoryContents_of_quiet (h : Refines algorithm frames s a) (hquiet : Quiet .memory s) :
    memoryContents s = some (memoryValue frames a.partitions) := by
  rw [memoryContents, memory_of_quiet h hquiet, memoryFile, cString_stored_compact]
  exact Parson.Acceptance.jsonParseString_serialize false (canonical_memoryValue a h.framed)

/-- The allocator's residents of a partition are the workers of the state there. -/
theorem occupied_eq_residentSizes (h : Refines algorithm frames s a) (i : Nat) :
    occupied a.residents i = residentSizes s i := by
  rw [h.residents]
  unfold residentSizes residentsAt
  induction s.threads with
  | nil => rfl
  | cons thread rest ih =>
    rw [List.filterMap_cons, List.filter_cons]
    cases hres : residentOf thread with
    | none =>
      have hnone : thread.pc.residence = none := Option.map_eq_none_iff.mp hres
      simpa [hnone] using ih
    | some r =>
      obtain ⟨hindex, -, hprocess, -⟩ := residentOf_eq_some hres
      simp only [← Multiset.cons_coe, occupied_cons, ih, hindex, Option.some.injEq]
      by_cases hi : r.index = i
      · simp [hi, hprocess, processOf]
      · simp [hi]

end Quiet

/-! ## Two small memories -/

/-- A memory of one partition of ten units. -/
def tenUnits : List Frame := [plainFrame 10 (by decide) (by decide)]

def tenUnitsStart : Producer :=
  startOn (memoryFile tenUnits (unoccupied tenUnits).partitions)
    (stored (compact (.object jsonObjectInit)))

theorem starts_tenUnitsStart : Starts (schemaOf tenUnits) tenUnitsStart :=
  ⟨initMemory_schemaOf (by decide), rfl, rfl, rfl, rfl, rfl⟩

/-- A partition that takes 482 workers of one unit. -/
def wide : List Frame := [plainFrame 482 (by decide) (by decide)]

/-- So many workers of one unit sleep in that partition, and nothing else goes on. -/
structure Asleep (n : Nat) (s : Producer) : Prop where
  reachable : ReachableWhen everyCall always .firstFit (schemaOf wide) s
  halted : s.halted = none
  free : s.shared.semFindSpace = 1
  waiting : s.shared.processesOnWaiting = waitingFile .empty
  count : s.threads.length = n
  asleep : ∀ thread ∈ s.threads, thread.pc = .sleeping 0 ∧ thread.worker.processSize = 1 ∧
    thread.worker.processId < n

theorem between_of_asleep {n : Nat} {s : Producer} (h : Asleep n s) : BetweenSections s := by
  intro thread hthread
  rw [(h.asleep thread hthread).1]
  rfl

theorem residentsAt_of_asleep {n : Nat} {s : Producer} (h : Asleep n s) :
    residentsAt s 0 = s.threads := by
  refine List.filter_eq_self.mpr fun thread hthread => ?_
  simp [(h.asleep thread hthread).1, Pc.residence]

theorem residentSizes_of_asleep {n : Nat} {s : Producer} (h : Asleep n s) :
    residentSizes s 0 = n := by
  have hsizes : s.threads.map (·.worker.processSize) = List.replicate n 1 := by
    refine List.eq_replicate_iff.mpr ⟨by rw [List.length_map, h.count], fun size hsize => ?_⟩
    obtain ⟨thread, hthread, rfl⟩ := List.mem_map.mp hsize
    exact (h.asleep thread hthread).2.1
  rw [residentSizes, residentsAt_of_asleep h, hsizes]
  simp

theorem framed_wide : Framed wide (unoccupied wide).partitions := framed_unoccupied (by decide)

/-- Its table has at most 481 entries, and each worker has taken one unit. -/
theorem partition_of_asleep {n : Nat} {s : Producer} {a : Books} (h : Asleep n s)
    (ha : Refines .firstFit wide s a) :
    ∃ p, a.partitions = [p] ∧ p.freeSpace + n = 482 ∧ p.processes.length ≤ 481 := by
  have hlength : a.partitions.length = 1 := ha.framed.length_eq
  obtain ⟨p, hp⟩ := List.length_eq_one_iff.mp hlength
  have hsizes := ha.framed.sizes
  have hsum := a.conserved 0 p (by rw [hp]; rfl)
  rw [occupied_eq_residentSizes ha, residentSizes_of_asleep h] at hsum
  rw [hp] at hsizes
  have hsize : p.size = 482 := (List.cons.inj hsizes).1
  refine ⟨p, hp, hsum.trans hsize, ?_⟩
  exact a.tables_length p (by simp [hp])

theorem reachable_beside_asleep {n : Nat} {s : Producer} (h : Asleep n s) :
    ReachableWhen everyCall always .firstFit (schemaOf wide) (create s n 1 30) := by
  refine h.reachable.tail (.create 30 h.halted (fun thread hthread _ => ?_) (by decide))
  exact Nat.ne_of_lt (h.asleep thread hthread).2.2

/-- While the partition has a unit left, another worker is admitted and falls asleep. -/
theorem asleep_succ {n : Nat} {s : Producer} (h : Asleep n s) (hn : n < 482) :
    ∃ t, Asleep (n + 1) t := by
  let worker : Worker := ⟨s.threads.length, n, 1, 30⟩
  have hcreated := reachable_beside_asleep h
  obtain ⟨a, ha⟩ := simulated_of_reachable framed_wide (jsonParseString_schemaOf (by decide))
    (reachable_of_when h.reachable)
  have hchoose : choose .firstFit a.partitions 1 = some 0 := by
    obtain ⟨p, hp, hfree, -⟩ := partition_of_asleep h ha.refines
    have hfits : 1 ≤ p.freeSpace := by omega
    simp [hp, choose, searchLoop, searchRound, freeSpaceAt, hfits]
  have hi : (create s n 1 30).threads[s.threads.length]? = some (Thread.start worker) := by
    simp [create, worker]
  obtain ⟨thread, shared, ⟨hworker, events, hreach⟩, -, hpc, hfree, hwaiting⟩ :=
    admitted_alone hcreated h.halted hi h.free h.waiting ha.refines.framed
      (ha.refines.idle (between_of_asleep h)) hchoose
  refine ⟨_, hreach, h.halted, hfree, hwaiting, ?_, ?_⟩
  · simp [moved, create, h.count]
  · intro other hother
    obtain ⟨j, hj⟩ := List.mem_iff_getElem?.mp hother
    rcases getElem?_set_cases hj with ⟨-, rfl⟩ | ⟨hne, hold⟩
    · rw [hworker]
      exact ⟨hpc, rfl, Nat.lt_succ_self n⟩
    · have hlt : j < s.threads.length := by
        have hlt' := (List.getElem?_eq_some_iff.mp hold).1
        simp only [create, List.length_append, List.length_singleton] at hlt'
        omega
      simp only [create, List.getElem?_append_left hlt] at hold
      obtain ⟨hpc', hsize, hid⟩ := h.asleep other (List.mem_of_getElem? hold)
      exact ⟨hpc', hsize, Nat.lt_succ_of_lt hid⟩

theorem asleep_of_le : ∀ n : Nat, n ≤ 482 → ∃ s, Asleep n s := by
  intro n
  induction n with
  | zero =>
    intro _
    refine ⟨startOn (memoryFile wide (unoccupied wide).partitions) (waitingFile .empty), ?_⟩
    have hstart : Starts (schemaOf wide)
        (startOn (memoryFile wide (unoccupied wide).partitions) (waitingFile .empty)) :=
      ⟨initMemory_schemaOf (by decide), rfl, rfl, rfl, rfl, rfl⟩
    exact ⟨.start hstart, rfl, rfl, rfl, rfl, by simp [startOn]⟩
  | succ n ih =>
    intro hn
    obtain ⟨s, hs⟩ := ih (by omega)
    exact asleep_succ hs (by omega)

/-- Each of them has its ASIG line. -/
theorem logged_of_asleep {n : Nat} {s : Producer} (h : Asleep n s) {thread : Thread}
    (hthread : thread ∈ s.threads) :
    (thread.worker, .asig thread.worker.processId 1 thread.worker.processDelay) ∈ log s.history := by
  obtain ⟨hpc, hsize, -⟩ := h.asleep thread hthread
  have hfollows := (tracked_of_reachable (reachable_of_when h.reachable)).follows thread hthread
  rw [hpc] at hfollows
  have hlogged : .logged (.admitted 0) ∈ trail s.history thread.worker := by
    rw [hfollows]
    decide
  refine List.mem_filterMap.mpr ⟨_, (mem_trail rfl).mp hlogged, ?_⟩
  simp only [slogLine, hsize]

/-- Beside them another worker is just going to parse the memory for a partition. -/
theorem searching_beside_asleep {n : Nat} {s : Producer} (h : Asleep n s) :
    ∃ t thread stSize, Reachable .firstFit (schemaOf wide) t ∧ thread ∈ t.threads ∧
      thread.pc = .reading .placement (.mapping stSize) ∧ Quiet .memory t ∧
      residentSizes t 0 = n := by
  have hi : (create s n 1 30).threads[s.threads.length]? =
      some (Thread.start ⟨s.threads.length, n, 1, 30⟩) := by simp [create]
  obtain ⟨thread, -, hpc, -, events, hreach⟩ :=
    struck_alone (reachable_beside_asleep h) h.halted hi h.free h.waiting
  obtain ⟨a, ha⟩ := simulated_of_reachable framed_wide (jsonParseString_schemaOf (by decide))
    (reachable_of_when h.reachable)
  have hmemory : s.shared.memory = memoryFile wide a.partitions := ha.refines.idle (between_of_asleep h)
  have hopened := (when_of_reachable (reachable_of_when hreach)).move h.halted
    (getElem?_set_self_of_some hi thread) trivial (by rw [hpc]; rfl)
    (.opened hpc (show s.shared.memory.length ≠ 0 by rw [hmemory]; exact stored_ne_nil _))
  let opened := thread.at (.reading .placement (.mapping s.shared.memory.length))
  obtain ⟨t, ht, hthreads⟩ : ∃ t, Reachable .firstFit (schemaOf wide) t ∧
      t.threads = s.threads ++ [opened] :=
    ⟨_, reachable_of_when hopened, by simp [moved, create, opened, Shared.content, ReadCall.file]⟩
  refine ⟨t, opened, _, ht, by simp [hthreads], rfl, fun other hother => ?_, ?_⟩
  · rw [hthreads] at hother
    rcases List.mem_append.mp hother with hold | hnew
    · exact quiet_of_between (between_of_asleep h) other hold
    · obtain rfl := List.mem_singleton.mp hnew
      rfl
  · have hsizes := residentSizes_of_asleep h
    rw [residentSizes, residentsAt] at hsizes ⊢
    rw [hthreads, List.filter_append]
    simpa [opened, Thread.at, Pc.residence] using hsizes

/-! ## Results -/

/-- The free space plus what the residents took is the size the schema gives. -/
def Conserved (schema : CString) (s : Producer) : Prop :=
  partitionCount (memoryContents s) = partitionCount (jsonParseString schema) ∧
  ∀ i < partitionCount (jsonParseString schema),
    sizeIn (memoryContents s) i = sizeIn (jsonParseString schema) i ∧
    freeSpaceIn (memoryContents s) i + residentSizes s i = sizeIn (jsonParseString schema) i ∧
    0 ≤ freeSpaceIn (memoryContents s) i ∧
    freeSpaceIn (memoryContents s) i ≤ sizeIn (jsonParseString schema) i

/-- The two sums a worker computes from the memory it has just read are `int`s. -/
def NoOverflow (algorithm : Algorithm) (s : Producer) : Prop :=
  ∀ thread ∈ s.threads, ∀ stSize k,
    let data := reprint (cString s.shared.memory)
    (thread.pc = .reading .placement (.mapping stSize) →
      placement algorithm thread.worker data = some k →
      InInt (freeSpaceIn (parseText data) k - thread.worker.processSize)) ∧
    (thread.pc = .reading (.devolution k) (.mapping stSize) →
      InInt (freeSpaceIn (parseText data) k + thread.worker.processSize))

theorem conserved_of_quiet {algorithm : Algorithm} {schema : CString} {frames : List Frame}
    {s : Producer} {a : Books} (hframed : Framed frames (unoccupied frames).partitions)
    (hparse : jsonParseString schema = some (memoryValue frames (unoccupied frames).partitions))
    (h : Refines algorithm frames s a) (hquiet : Quiet .memory s) : Conserved schema s := by
  have hlength : a.partitions.length = (unoccupied frames).partitions.length :=
    h.framed.length_eq.trans hframed.length_eq.symm
  rw [Conserved, memoryContents_of_quiet h hquiet, hparse, partitionCount_memory h.framed,
    partitionCount_memory hframed]
  refine ⟨hlength, fun i hi => ?_⟩
  obtain ⟨frame, p, hframe, hp, hsize, hat⟩ := exists_partition h.framed (hlength ▸ hi)
  obtain ⟨frame', p', hframe', -, -, hat'⟩ := exists_partition hframed hi
  rw [hframe] at hframe'
  obtain rfl := Option.some.inj hframe'
  obtain ⟨hfree, hsizeIn, -⟩ := freeSpaceIn_of_partitionAt hat
  rw [hfree, hsizeIn, (freeSpaceIn_of_partitionAt hat').2.1, ← occupied_eq_residentSizes h, ← hsize]
  exact ⟨rfl, a.conserved i p hp, a.freeSpace_nonneg p (List.mem_of_getElem? hp),
    a.freeSpace_le_size hp⟩

theorem noOverflow_of_refines {algorithm : Algorithm} {frames : List Frame} {s : Producer}
    {a : Books} (hwell : WellFormed s) (h : Refines algorithm frames s a) :
    NoOverflow algorithm s := by
  intro thread hthread stSize k data
  have hpos := hwell.size_pos thread hthread
  have hmin : intMin ≤ 0 := by decide
  have hbounds : ∀ p, a.partitions[k]? = some p → 0 ≤ p.freeSpace ∧ p.size ≤ intMax ∧
      freeSpaceIn (some (memoryValue frames a.partitions)) k = p.freeSpace := by
    intro p hp
    obtain ⟨frame, p', -, hp', hsize, hat⟩ :=
      exists_partition h.framed (List.getElem?_eq_some_iff.mp hp).1
    obtain rfl := Option.some.inj (hp.symm.trans hp')
    exact ⟨a.freeSpace_nonneg p (List.mem_of_getElem? hp), hsize ▸ frame.size_le,
      (freeSpaceIn_of_partitionAt hat).1⟩
  have hdata : s.shared.memory = memoryFile frames a.partitions →
      data = some (printed frames a.partitions) := fun hmemory => by
    simp only [data, hmemory]
    exact reprint_memoryFile a h.framed
  refine ⟨fun hpc hplace => ?_, fun hpc => ?_⟩
  · have hview := h.view thread hthread (by simp [hpc, Pc.isCritical])
    simp only [View, hpc] at hview
    rw [hdata hview.1, placement_printed algorithm a h.framed] at hplace
    obtain ⟨p, hp, hfits⟩ := choose_fits hplace
    obtain ⟨hnonneg, hle, hfree⟩ := hbounds p hp
    have hpSize := a.freeSpace_le_size hp
    rw [hdata hview.1, parseText_printed a h.framed, hfree]
    exact ⟨by omega, by omega⟩
  · have hview := h.view thread hthread (by simp [hpc, Pc.isCritical])
    simp only [View, hpc] at hview
    have hmem : ⟨thread.worker.processId, processOf thread.worker, k⟩ ∈ a.residents := by
      rw [h.residents, Multiset.mem_coe]
      exact List.mem_filterMap.mpr ⟨thread, hthread, by simp [residentOf, hpc, Pc.residence]⟩
    have hp := List.getElem?_eq_getElem (a.index_lt _ hmem)
    obtain ⟨hnonneg, hle, hfree⟩ := hbounds _ hp
    have hsum := a.conserved k _ hp
    have htaken : thread.worker.processSize ≤ occupied a.residents k :=
      size_le_occupied a.size_pos hmem
    rw [hdata hview.1, parseText_printed a h.framed, hfree]
    exact ⟨by omega, by omega⟩

/-- Whatever the interleaving, space is conserved in every partition while no worker is
inside a write of the memory, and the workers' sums stay in range. -/
theorem space_conserved (algorithm : Algorithm) {schema : CString} (hschema : InitialMemory schema)
    {s : Producer} (hs : Reachable algorithm schema s) :
    (Quiet .memory s → Conserved schema s) ∧ NoOverflow algorithm s := by
  obtain ⟨frames, hframed, hparse⟩ := initialMemory_frames hschema
  obtain ⟨a, ha⟩ := simulated_of_reachable hframed hparse hs
  exact ⟨conserved_of_quiet hframed hparse ha.refines,
    noOverflow_of_refines (wellFormed_of_reachable hs) ha.refines⟩

/-- Two workers are asleep, and a third one is looking for a partition. -/
theorem space_conserved_asleep : ∃ s thread stSize, residentSizes s 0 = 2 ∧ thread ∈ s.threads ∧
    thread.pc = .reading .placement (.mapping stSize) ∧ Quiet .memory s ∧
    Conserved (schemaOf wide) s ∧ NoOverflow .firstFit s := by
  obtain ⟨asleep, hasleep⟩ := asleep_of_le 2 (by decide)
  obtain ⟨s, thread, stSize, hs, hthread, hpc, hquiet, hsizes⟩ := searching_beside_asleep hasleep
  obtain ⟨hconserved, hrange⟩ :=
    space_conserved .firstFit (initialMemory_schemaOf (by decide)) hs
  exact ⟨s, thread, stSize, hsizes, hthread, hpc, hquiet, hconserved hquiet, hrange⟩

/-! ## Nothing leaks -/

theorem residents_of_drained {algorithm : Algorithm} {frames : List Frame} {s : Producer}
    {a : Books} (h : Refines algorithm frames s a) (hdrained : Drained s) : a.residents = 0 := by
  rw [h.residents, Multiset.coe_eq_zero, List.filterMap_eq_nil_iff]
  exact fun thread hthread => by simp [residentOf, hdrained thread hthread]

/-- Between critical sections, once every admitted worker has released, the memory file
holds the value it started with, even if tables had turned processes away. -/
theorem drained_memory_initial (algorithm : Algorithm) {schema : CString}
    (hschema : InitialMemory schema) {s : Producer} (hs : Reachable algorithm schema s)
    (hbetween : BetweenSections s) (hdrained : Drained s) :
    memoryContents s = jsonParseString schema := by
  obtain ⟨frames, hframed, hparse⟩ := initialMemory_frames hschema
  obtain ⟨a, ha⟩ := simulated_of_reachable hframed hparse hs
  have hempty := a.partitions_of_no_residents (residents_of_drained ha.refines hdrained)
  have hunoccupied : a.partitions = (unoccupied frames).partitions := by
    have hsizes := ha.refines.framed.sizes
    rw [hempty]
    simp only [unoccupied, Allocator.empty, ← hsizes, List.map_map]
    rfl
  have hcontents : memoryContents s = some (memoryValue frames a.partitions) := by
    rw [memoryContents, ha.refines.idle hbetween, memoryFile, cString_stored_compact]
    exact Parson.Acceptance.jsonParseString_serialize false
      (canonical_memoryValue a ha.refines.framed)
  rw [hcontents, hunoccupied, hparse]

/-- A worker has been admitted and has released. -/
theorem released_after_asleep : ∃ s worker, Reachable .firstFit (schemaOf wide) s ∧
    BetweenSections s ∧ Drained s ∧ (worker, .wrote (.admission 0)) ∈ s.history ∧
    (worker, .wrote (.devolution 0)) ∈ s.history := by
  obtain ⟨asleep, hasleep⟩ := asleep_of_le 1 (by decide)
  obtain ⟨first, hfirst⟩ := List.length_eq_one_iff.mp hasleep.count
  have hi : asleep.threads[0]? = some first := by rw [hfirst]; rfl
  obtain ⟨a, ha⟩ := simulated_of_reachable framed_wide (jsonParseString_schemaOf (by decide))
    (reachable_of_when hasleep.reachable)
  obtain ⟨thread, shared, ⟨-, events, hreach⟩, hpc⟩ :=
    released_alone hasleep.reachable hasleep.halted hi hasleep.free
      (hasleep.asleep first (List.mem_of_getElem? hi)).1 ha.refines.framed
      (ha.refines.idle (between_of_asleep hasleep))
  have hset := getElem?_set_self_of_some hi thread
  have hfollows := (tracked_of_reachable (reachable_of_when hreach)).follows thread
    (List.mem_of_getElem? hset)
  rw [hpc] at hfollows
  have hdone := hreach.move hasleep.halted hset trivial (by rw [hpc]; rfl) (.released hpc)
  obtain ⟨t, ht, hthreads, hhistory⟩ : ∃ t, Reachable .firstFit (schemaOf wide) t ∧
      t.threads = [thread.at .finished] ∧
      t.history = (moved asleep 0 first thread shared events).history ++ [(thread.worker, .posted)] :=
    ⟨_, reachable_of_when hdone, by simp [moved, hfirst, afterPost], rfl⟩
  have hpast : ∀ event, isMark event = true → event ∈ returnedTrail 0 →
      (thread.worker, event) ∈ t.history := by
    intro event hmark hevent
    rw [hhistory]
    refine List.mem_append_left _ ((mem_trail hmark).mp ?_)
    rw [hfollows]
    exact List.mem_append_left _ hevent
  refine ⟨t, thread.worker, ht, fun other hother => ?_, fun other hother => ?_,
    hpast _ rfl (by decide), hpast _ rfl (by decide)⟩
  · rw [hthreads, List.mem_singleton] at hother
    rw [hother]
    rfl
  · rw [hthreads, List.mem_singleton] at hother
    rw [hother]
    rfl

/-- It is gone, and the memory is as it was. -/
theorem drained_memory_initial_released : ∃ s worker,
    (worker, .wrote (.admission 0)) ∈ s.history ∧ (worker, .wrote (.devolution 0)) ∈ s.history ∧
    memoryContents s = jsonParseString (schemaOf wide) := by
  obtain ⟨s, worker, hs, hbetween, hdrained, hadmitted, hreleased⟩ := released_after_asleep
  exact ⟨s, worker, hadmitted, hreleased, drained_memory_initial .firstFit
    (initialMemory_schemaOf (by decide)) hs hbetween hdrained⟩

end DynamicPartitions.Properties.Conservation
