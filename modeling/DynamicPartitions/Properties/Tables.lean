import DynamicPartitions.Program.Calls
import DynamicPartitions.Properties.Conservation

/-!
# The process tables

A table records exactly the residents of its partition as long as every admission goes
to a table with room. `json_object_add` has none left once it holds 481 entries.
-/
namespace DynamicPartitions.Properties.Tables

open DynamicPartitions.Lib.Table
open DynamicPartitions.Lib.Transition
open DynamicPartitions.Lib.Update
open DynamicPartitions.Parson.Value
open DynamicPartitions.Parson.Parser
open DynamicPartitions.Abstract.Residents
open DynamicPartitions.Abstract.Accounting
open DynamicPartitions.Program.Algorithms
open DynamicPartitions.Program.MappedFile
open DynamicPartitions.Program.WorkerThread
open DynamicPartitions.Program.Threads
open DynamicPartitions.Program.Moves
open DynamicPartitions.Program.Exclusion
open DynamicPartitions.Program.Calls
open DynamicPartitions.Program.Observation
open DynamicPartitions.Refinement.Representation
open DynamicPartitions.Refinement.Memory
open DynamicPartitions.Refinement.Simulation
open DynamicPartitions.Refinement.Runs
open DynamicPartitions.Properties.Conservation

/-! ## What exact tables look like in the file -/

/-- The entry of a worker in the table of its partition. -/
def entryOf (thread : Thread) : CString × JsonValue :=
  (thread.worker.strProcessId, processValue (processOf thread.worker))

/-- The sizes a table records, together. -/
def recordedSizes (memory : Option JsonValue) (i : Nat) : Int :=
  ((processesIn memory i).map fun entry =>
    jsonObjectGetNumber (jsonValueGetObject (some entry.2)) sizeName).sum

/-- Every partition lists its residents, each with its size and delay, and nobody else;
the sizes listed are the space taken; and nobody is listed in two partitions. -/
structure TablesExact (schema : CString) (s : Producer) : Prop where
  tables : ∀ i < partitionCount (jsonParseString schema),
    (processesIn (memoryContents s) i).Perm ((residentsAt s i).map entryOf)
  sums : ∀ i < partitionCount (jsonParseString schema),
    recordedSizes (memoryContents s) i =
      sizeIn (jsonParseString schema) i - freeSpaceIn (memoryContents s) i
  once : ∀ thread ∈ s.threads, thread.pc.residence ≠ none →
    ∃! i, i < partitionCount (jsonParseString schema) ∧
      thread.worker.strProcessId ∈ keys (processesIn (memoryContents s) i)

section Exact

variable {algorithm : Algorithm} {frames : List Frame} {s : Producer} {a : Books}

/-- The allocator's entries of a partition are the workers of the state there. -/
theorem entriesAt_eq_residents (h : Refines algorithm frames s a) (i : Nat) :
    entriesAt a.residents i = ((residentsAt s i).map fun thread =>
      (thread.worker.processId, processOf thread.worker) : List (Nat × Process)) := by
  rw [h.residents]
  unfold residentsAt
  induction s.threads with
  | nil => rfl
  | cons thread rest ih =>
    rw [List.filterMap_cons, List.filter_cons]
    cases hres : residentOf thread with
    | none =>
      have hnone : thread.pc.residence = none := Option.map_eq_none_iff.mp hres
      simpa [hnone] using ih
    | some r =>
      obtain ⟨hindex, hid, hprocess, -⟩ := residentOf_eq_some hres
      simp only [← Multiset.cons_coe, entriesAt_cons, ih, hindex, Option.some.injEq]
      by_cases hi : r.index = i
      · simp [hi, hid, hprocess]
      · simp [hi]

theorem recordedSizes_table {memory : Option JsonValue} {i : Nat} {processes : List (Nat × Process)}
    (h : processesIn memory i = (tableObject processValue processes).entries) :
    recordedSizes memory i = (processes.map fun entry => entry.2.size).sum := by
  rw [recordedSizes, h, tableObject, List.map_map]
  rfl

theorem sum_entriesAt (residents : Multiset (Resident Nat)) (i : Nat) :
    ((entriesAt residents i).map fun entry => entry.2.size).sum = occupied residents i := by
  rw [entriesAt, Multiset.map_map]
  rfl

theorem mem_keys_of_resident {memory : Option JsonValue} {i : Nat} {residents : List Thread}
    (h : (processesIn memory i).Perm (residents.map entryOf)) (name : CString) :
    name ∈ keys (processesIn memory i) ↔
      ∃ thread ∈ residents, thread.worker.strProcessId = name := by
  have hkeys : (keys (processesIn memory i)).Perm (keys (residents.map entryOf)) := h.map _
  rw [hkeys.mem_iff]
  simp [keys, entryOf]

/-- Workers in partitions have distinct names. -/
theorem eq_of_name_eq (hwell : WellFormed s) {thread other : Thread} (hthread : thread ∈ s.threads)
    (hother : other ∈ s.threads) (hin : thread.pc.residence ≠ none)
    (hin' : other.pc.residence ≠ none)
    (hname : thread.worker.strProcessId = other.worker.strProcessId) : thread = other := by
  obtain ⟨i, hi⟩ := List.mem_iff_getElem?.mp hthread
  obtain ⟨j, hj⟩ := List.mem_iff_getElem?.mp hother
  by_cases hij : i = j
  · subst hij
    exact Option.some.inj (hi.symm.trans hj)
  · refine absurd (idName_injective hname) (hwell.ids_distinct i j thread other hi hj hij ?_ ?_)
    · exact fun hpc => hin (by simp [hpc, Pc.residence])
    · exact fun hpc => hin' (by simp [hpc, Pc.residence])

theorem tablesExact_of_exact {schema : CString}
    (hframed : Framed frames (unoccupied frames).partitions)
    (hparse : jsonParseString schema = some (memoryValue frames (unoccupied frames).partitions))
    (hwell : WellFormed s) (h : Refines algorithm frames s a) (hexact : a.Exact)
    (hquiet : Quiet .memory s) : TablesExact schema s := by
  obtain ⟨hcount, hconserved⟩ := conserved_of_quiet hframed hparse h hquiet
  have hcontents := memoryContents_of_quiet h hquiet
  have hlength : a.partitions.length = partitionCount (jsonParseString schema) := by
    rw [← hcount, hcontents, partitionCount_memory h.framed]
  have htable : ∀ i < partitionCount (jsonParseString schema), ∃ processes : List (Nat × Process),
      processesIn (memoryContents s) i = (tableObject processValue processes).entries ∧
        (processes : Multiset (Nat × Process)) = entriesAt a.residents i := by
    intro i hi
    obtain ⟨frame, p, -, hp, -, hat⟩ := exists_partition h.framed (hlength ▸ hi)
    rw [hcontents]
    exact ⟨p.processes, (freeSpaceIn_of_partitionAt hat).2.2, hexact i p hp⟩
  have htables : ∀ i < partitionCount (jsonParseString schema),
      (processesIn (memoryContents s) i).Perm ((residentsAt s i).map entryOf) := by
    intro i hi
    obtain ⟨processes, hentries, hprocesses⟩ := htable i hi
    rw [entriesAt_eq_residents h] at hprocesses
    have hperm := (Multiset.coe_eq_coe.mp hprocesses).map (Prod.map idName processValue)
    rw [List.map_map] at hperm
    rw [hentries]
    exact hperm
  refine ⟨htables, fun i hi => ?_, fun thread hthread hin => ?_⟩
  · obtain ⟨processes, hentries, hprocesses⟩ := htable i hi
    have hsum := sum_entriesAt a.residents i
    rw [← hprocesses, Multiset.map_coe, Multiset.sum_coe, occupied_eq_residentSizes h] at hsum
    have hfree := (hconserved i hi).2.1
    rw [recordedSizes_table hentries, hsum]
    omega
  · obtain ⟨k, hk⟩ := Option.ne_none_iff_exists'.mp hin
    have hresident : (⟨thread.worker.processId, processOf thread.worker, k⟩ : Resident Nat) ∈
        a.residents := by
      rw [h.residents, Multiset.mem_coe]
      exact List.mem_filterMap.mpr ⟨thread, hthread, by simp [residentOf, hk]⟩
    have hlt : k < partitionCount (jsonParseString schema) := hlength ▸ a.index_lt _ hresident
    refine ⟨k, ⟨hlt, ?_⟩, ?_⟩
    · refine (mem_keys_of_resident (htables k hlt) _).mpr ⟨thread, ?_, rfl⟩
      exact List.mem_filter.mpr ⟨hthread, by simp [hk]⟩
    · rintro j ⟨hj, hmem⟩
      obtain ⟨other, hother, hname⟩ := (mem_keys_of_resident (htables j hj) _).mp hmem
      obtain ⟨hother, hat⟩ := List.mem_filter.mp hother
      have hat' : other.pc.residence = some j := of_decide_eq_true hat
      obtain rfl := eq_of_name_eq hwell hother hthread (by simp [hat']) hin hname
      exact Option.some.inj (hat'.symm.trans hk)

end Exact

/-! ## Tables with room stay exact -/

/-- A worker opens the memory for its admission write while the table of its partition
has room. -/
def TableHasRoom (s : Producer) (thread : Thread) : Prop :=
  ∀ k text, thread.pc = .writing (.admission k) (.opening text) →
    (processesIn (memoryContents s) k).length ≤ tableBound

/-- The tables are exact, and a worker past the opening of its admission write is
writing to one with room. -/
structure Recorded (s : Producer) (a : Books) : Prop where
  exact : a.Exact
  room : ∀ thread ∈ s.threads, ∀ k stage, thread.pc = .writing (.admission k) stage →
    (∀ text, stage ≠ .opening text) → ∀ p, a.partitions[k]? = some p →
    p.processes.length ≤ tableBound

section Step

variable {algorithm : Algorithm} {frames : List Frame} {s : Producer} {a b : Books} {i : Nat}
  {thread thread' : Thread} {shared' : Shared} {events : List Event}

theorem exact_of_move (h : Refines algorithm frames s a) (hrecorded : Recorded s a)
    (hi : s.threads[i]? = some thread)
    (hmove : Move algorithm thread s.shared thread' shared' events)
    (hserved : SequentialRun algorithm a (commits (events.map (Prod.mk thread.worker))) b)
    (htruthful : ∀ event ∈ events, Truthful algorithm frames a (thread.worker, event)) :
    b.Exact := by
  have hmem := List.mem_of_getElem? hi
  rcases commits_of_move hmove with hnone | ⟨hcrit, ⟨k, hdevolution⟩ | ⟨hadmission, hcase⟩⟩
  · rw [hnone] at hserved
    exact hserved.nil_inv ▸ hrecorded.exact
  · rw [hdevolution] at hserved
    exact Executes.single_inv hserved |>.exact hrecorded.exact fun _ _ _ _ hreq => by
      simp [request] at hreq
  · rw [hadmission] at hserved
    refine Executes.single_inv hserved |>.exact hrecorded.exact fun id process k p hreq hchoose hp => ?_
    simp only [request, Allocator.Request.attempt.injEq] at hreq
    obtain ⟨rfl, rfl⟩ := hreq
    rcases hcase with hplaced | ⟨k', text, hpc⟩
    · have hsearch := htruthful _ hplaced
      simp only [Truthful, searchIndex_memory algorithm h.framed.length_eq] at hsearch
      exact absurd (hsearch.trans hchoose) (by simp)
    · have hview := h.view thread hmem hcrit
      simp only [View, hpc] at hview
      obtain rfl := Option.some.inj (hview.1.symm.trans hchoose)
      exact hrecorded.room thread hmem k' _ hpc (by simp) p hp

omit i in
/-- A worker past the opening of its admission write was in that write before. -/
theorem past_opening {k : Nat} {stage : WriteStage}
    (hmove : Move algorithm thread s.shared thread' shared' events)
    (hpc : thread'.pc = .writing (.admission k) stage) (hpast : ∀ text, stage ≠ .opening text) :
    commits (events.map (Prod.mk thread.worker)) = [] ∧
      ∃ before, thread.pc = .writing (.admission k) before := by
  cases hmove with
  | @loaded call stSize hpc' hextent =>
    cases call with
    | placement =>
      simp only [afterRead] at hpc
      split at hpc
      · simp [Thread.at] at hpc
      · simp only [Thread.at, Pc.writing.injEq] at hpc
        exact absurd hpc.2.symm (hpast _)
    | _ => simp [afterRead, Thread.at] at hpc
  | truncated hpc' | stretched hpc' =>
    simp only [Thread.at, Pc.writing.injEq] at hpc
    exact ⟨rfl, _, hpc.1 ▸ hpc'⟩
  | @copied call text hpc' hfits => cases call <;> simp [Thread.at, afterWrite] at hpc
  | @acquired critical value hpc' hvalue => cases critical <;> simp [Thread.at, afterWait] at hpc
  | @released outcome hpc' => cases outcome <;> simp [Thread.at, afterPost] at hpc
  | _ => simp [Thread.at] at hpc

/-- A worker that opens the memory for its admission write finds the table of its
partition in the file. -/
theorem processesIn_of_opening (h : Refines algorithm frames s a) (hmem : thread ∈ s.threads)
    {k : Nat} {text : Option CString} (hpc : thread.pc = .writing (.admission k) (.opening text)) :
    ∃ p, a.partitions[k]? = some p ∧
      processesIn (memoryContents s) k = (tableObject processValue p.processes).entries := by
  have hview := h.view thread hmem (by simp [hpc, Pc.isCritical])
  simp only [View, hpc, Pending] at hview
  have hcontents : memoryContents s = some (memoryValue frames a.partitions) := by
    rw [memoryContents, hview.2.1, memoryFile, cString_stored_compact]
    exact Parson.Acceptance.jsonParseString_serialize false (canonical_memoryValue a h.framed)
  obtain ⟨p, hp, -⟩ := choose_fits hview.1
  obtain ⟨frame, p', -, hp', -, hat⟩ :=
    exists_partition h.framed (List.getElem?_eq_some_iff.mp hp).1
  obtain rfl := Option.some.inj (hp.symm.trans hp')
  exact ⟨p, hp, by rw [hcontents, (freeSpaceIn_of_partitionAt hat).2.2]⟩

theorem room_of_guard (h : Refines algorithm frames s a) (hmem : thread ∈ s.threads)
    (hguard : TableHasRoom s thread) {k : Nat} {text : Option CString}
    (hpc : thread.pc = .writing (.admission k) (.opening text)) {p : Partition Nat}
    (hp : a.partitions[k]? = some p) : p.processes.length ≤ tableBound := by
  obtain ⟨p', hp', htable⟩ := processesIn_of_opening h hmem hpc
  obtain rfl := Option.some.inj (hp.symm.trans hp')
  have hroom := hguard k text hpc
  rw [htable] at hroom
  simpa [tableObject] using hroom

theorem recorded_move (hwell : WellFormed s) (h : Refines algorithm frames s a)
    (hrecorded : Recorded s a) (hi : s.threads[i]? = some thread) (hguard : TableHasRoom s thread)
    (hmove : Move algorithm thread s.shared thread' shared' events)
    (hserved : SequentialRun algorithm a (commits (events.map (Prod.mk thread.worker))) b)
    (htruthful : ∀ event ∈ events, Truthful algorithm frames a (thread.worker, event)) :
    Recorded (moved s i thread thread' shared' events) b := by
  refine ⟨exact_of_move h hrecorded hi hmove hserved htruthful, ?_⟩
  intro other hother k stage hpc hpast p hp
  obtain ⟨j, hj⟩ := List.mem_iff_getElem?.mp hother
  rcases getElem?_set_cases hj with ⟨rfl, rfl⟩ | ⟨hne, hold⟩
  · obtain ⟨hnone, before, hbefore⟩ := past_opening hmove hpc hpast
    rw [hnone] at hserved
    obtain rfl := hserved.nil_inv
    have hmem := List.mem_of_getElem? hi
    cases before with
    | opening text => exact room_of_guard h hmem hguard hbefore hp
    | _ => exact hrecorded.room thread hmem k _ hbefore (by simp) p hp
  · have hroom := hrecorded.room other (List.mem_of_getElem? hold) k stage hpc hpast
    rcases commits_of_move hmove with hnone | ⟨hcrit, -⟩
    · rw [hnone] at hserved
      obtain rfl := hserved.nil_inv
      exact hroom p hp
    · -- only one of the two workers is inside a critical section
      exact absurd (critical_unique hwell hold hi (by simp [hpc, Pc.isCritical]) hcrit) hne

end Step

/-! ## Results -/

/-- In such a run the workers simulate an allocator with exact tables. -/
theorem recorded_of_run {algorithm : Algorithm} {schema : CString} {frames : List Frame} {s : Producer}
    (hframed : Framed frames (unoccupied frames).partitions)
    (hparse : jsonParseString schema = some (memoryValue frames (unoccupied frames).partitions))
    (hs : ReachableWhen piecewise TableHasRoom algorithm schema s) :
    ∃ a, Simulated algorithm frames s a ∧ Recorded s a := by
  refine reachableWhen_induction (P := fun s => ∃ a, Simulated algorithm frames s a ∧ Recorded s a)
    ?_ ?_ hs
  · intro s hstart
    have hthreads := hstart.2.2.2.1
    exact ⟨_, simulated_start hframed hparse hstart, Allocator.exact_empty _ _, by simp [hthreads]⟩
  · rintro s t hreach ⟨a, hsimulated, hrecorded⟩ hstep
    rcases stepWhen_cases (settled_piecewise s) hstep with
      ⟨processId, processSize, processDelay, -, -, rfl⟩ |
      ⟨i, thread, hi, hguard, ⟨reason, shared', hhalts, rfl, -⟩ |
        ⟨thread', shared', events, hmove, rfl⟩⟩
    · refine ⟨a, simulated_create hsimulated _ _ _, hrecorded.exact, ?_⟩
      intro thread hthread k stage hpc
      rcases List.mem_append.mp hthread with hold | hnew
      · exact hrecorded.room thread hold k stage hpc
      · rw [List.mem_singleton.mp hnew] at hpc
        cases hpc
    · exact ⟨a, simulated_stopped hsimulated hi hhalts, hrecorded.exact, hrecorded.room⟩
    · have hwell := wellFormed_of_reachable hreach
      obtain ⟨b, hserved, hb, htruthful⟩ :=
        simulated_move hwell hsimulated hi (move_of_callMove hmove)
      exact ⟨b, hb, recorded_move hwell hsimulated.refines hrecorded hi hguard
        (move_of_callMove hmove) hserved htruthful⟩

/-- In every run whose admissions go to tables with room, the tables are exact between
critical sections. -/
theorem tables_exact (algorithm : Algorithm) {schema : CString} (hschema : InitialMemory schema)
    {s : Producer} (hs : ReachableWhen piecewise TableHasRoom algorithm schema s)
    (hbetween : BetweenSections s) : TablesExact schema s := by
  obtain ⟨frames, hframed, hparse⟩ := initialMemory_frames hschema
  obtain ⟨a, hsimulated, hrecorded⟩ := recorded_of_run hframed hparse hs
  exact tablesExact_of_exact hframed hparse (wellFormed_of_reachable (reachable_of_when hs))
    hsimulated.refines hrecorded.exact (quiet_of_between hbetween)

/-- With at most 481 workers every table has room. -/
theorem tableHasRoom_of_few {algorithm : Algorithm} {schema : CString} (hschema : InitialMemory schema)
    {s : Producer} (hs : Reachable algorithm schema s) (hfew : s.threads.length ≤ tableBound + 1)
    {thread : Thread} (hthread : thread ∈ s.threads) : TableHasRoom s thread := by
  obtain ⟨frames, hframed, hparse⟩ := initialMemory_frames hschema
  obtain ⟨a, ha⟩ := simulated_of_reachable hframed hparse hs
  intro k text hpc
  obtain ⟨p, hp, htable⟩ := processesIn_of_opening ha.refines hthread hpc
  -- the table has entries of residents only, and this worker is none
  have hentries := Multiset.card_le_card (a.tables k p hp)
  rw [entriesAt_eq_residents ha.refines, Multiset.coe_card, Multiset.coe_card, List.length_map]
    at hentries
  have hresidents : (residentsAt s k).length < s.threads.length :=
    List.length_filter_lt_length_iff_exists.mpr ⟨thread, hthread, by simp [hpc, Pc.residence]⟩
  rw [htable, tableObject, List.length_map]
  omega

/-- So every run with no more of them is such a run. -/
theorem reachable_of_few {algorithm : Algorithm} {schema : CString} (hschema : InitialMemory schema)
    {s : Producer} (hs : Reachable algorithm schema s) (hfew : s.threads.length ≤ tableBound + 1) :
    ReachableWhen piecewise TableHasRoom algorithm schema s := by
  obtain ⟨start, hstart, hrun⟩ := hs
  induction hrun with
  | refl => exact .start hstart
  | @tail u v hrun hlast ih =>
    cases hlast with
    | create processDelay hhalted hfresh hpos =>
      simp only [create, List.length_append, List.length_singleton] at hfew
      exact (ih (by omega)).tail (.create processDelay hhalted hfresh hpos)
    | @run i t hstep =>
      obtain ⟨hhalted, thread, hi, hcase⟩ := step_cases hstep
      have hlength : v.threads.length = u.threads.length := by
        rcases hcase with ⟨reason, shared', -, rfl⟩ | ⟨thread', shared', events, -, rfl⟩
        · rfl
        · simp [moved]
      have hfew' : u.threads.length ≤ tableBound + 1 := hlength ▸ hfew
      refine (ih hfew').tail (.run hi ?_ ?_)
      · exact tableHasRoom_of_few hschema ⟨start, hstart, hrun⟩ hfew' (List.mem_of_getElem? hi)
      · rw [stride_piecewise]
        exact stepMany_one hstep

/-- 481 workers are asleep in one partition, each in its table. -/
theorem tables_exact_asleep : ∃ s, Asleep 481 s ∧ TablesExact (schemaOf wide) s := by
  have hschema : InitialMemory (schemaOf wide) := initialMemory_schemaOf (by decide)
  obtain ⟨s, hasleep⟩ := asleep_of_le 481 (by decide)
  have hroom := reachable_of_few hschema (reachable_of_when hasleep.reachable) hasleep.count.le
  exact ⟨s, hasleep, tables_exact .firstFit hschema hroom (between_of_asleep hasleep)⟩

/-! ## The 482nd resident -/

/-- With 482 workers in one partition, one of them is not in the table. -/
theorem resident_unrecorded :
    ¬ ∀ s, Reachable .firstFit (schemaOf wide) s → BetweenSections s →
      TablesExact (schemaOf wide) s := by
  intro hclaim
  obtain ⟨s, hs⟩ := asleep_of_le 482 (Nat.le_refl _)
  have hreach := reachable_of_when hs.reachable
  obtain ⟨a, ha⟩ := simulated_of_reachable framed_wide (jsonParseString_schemaOf (by decide)) hreach
  obtain ⟨p, hp, -, hshort⟩ := partition_of_asleep hs ha.refines
  have hcount : partitionCount (jsonParseString (schemaOf wide)) = 1 := by
    rw [jsonParseString_schemaOf (by decide), partitionCount_memory framed_wide]
    rfl
  have hperm := (hclaim s hreach (between_of_asleep hs)).tables 0 (by rw [hcount]; decide)
  obtain ⟨frame, q, -, hq, -, hat⟩ := exists_partition ha.refines.framed
    (show 0 < a.partitions.length by rw [hp]; exact Nat.one_pos)
  rw [hp] at hq
  obtain rfl : p = q := Option.some.inj hq
  rw [memoryContents_of_quiet ha.refines (quiet_of_between (between_of_asleep hs)),
    (freeSpaceIn_of_partitionAt hat).2.2] at hperm
  have hlength := hperm.length_eq
  simp only [tableObject, List.length_map, residentsAt_of_asleep hs, hs.count] at hlength
  omega

end DynamicPartitions.Properties.Tables
