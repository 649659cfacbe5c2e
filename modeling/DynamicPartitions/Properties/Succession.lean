import DynamicPartitions.Properties.Release
import DynamicPartitions.Refinement.Takeover

/-!
# One Producer after another

A Producer that is ended leaves the memory file as it is, with its residents in it, and
the next one starts on that file. No run ever gives back the space of a worker that died
with an earlier one, and its entry in the process table stays.
-/
namespace DynamicPartitions.Properties.Succession

open DynamicPartitions.Lib.Table
open DynamicPartitions.Parson.Value
open DynamicPartitions.Program.Algorithms
open DynamicPartitions.Program.MappedFile
open DynamicPartitions.Program.WorkerThread
open DynamicPartitions.Program.Threads
open DynamicPartitions.Program.Calls
open DynamicPartitions.Program.Observation
open DynamicPartitions.Refinement.Memory
open DynamicPartitions.Refinement.Sections
open DynamicPartitions.Refinement.Takeover
open DynamicPartitions.Properties.Conservation
open DynamicPartitions.Properties.Release

/-- Producer runs one after the other, from the files on, each ended at a moment at which
no worker is inside a write of the memory: the states in which they ended, and the files
they leave. -/
inductive Successive (memory processesOnWaiting : Content) :
    List Producer → Content → Content → Prop
  | first : Successive memory processesOnWaiting [] memory processesOnWaiting
  | next {ended : List Producer} {memory' processesOnWaiting' : Content} {algorithm : Algorithm}
      {s : Producer} : Successive memory processesOnWaiting ended memory' processesOnWaiting' →
      RunsFrom algorithm memory' processesOnWaiting' s → Quiet .memory s →
      Successive memory processesOnWaiting (ended ++ [s]) s.shared.memory s.shared.processesOnWaiting

/-- The space of the partition that died with the workers of ended runs. -/
def lost (ended : List Producer) (i : Nat) : Int := (ended.map fun s => residentSizes s i).sum

/-- No worker of the runs has the thread id that the name is. -/
def Foreign (key : CString) (runs : List Producer) : Prop :=
  ∀ run ∈ runs, ∀ thread ∈ run.threads, key ≠ thread.worker.strProcessId

/-! ## What a run hands on -/

/-- What has become of the partitions at the end of runs: the same members, less the
space that died with workers, and with the table entries the runs had no worker for. -/
structure Inherits (base partitions : List (JsonObject JsonValue)) (runs : List Producer) : Prop where
  length_eq : partitions.length = base.length
  each : ∀ i p, base[i]? = some p → ∃ q, partitions[i]? = some q ∧ SameMembers p q ∧
    freeSpaceOf q + lost runs i = freeSpaceOf p ∧
    ∀ key, Foreign key runs → getKey (processesOf q) key = getKey (processesOf p) key
  nonneg : (∀ p ∈ base, 0 ≤ freeSpaceOf p) → ∀ q ∈ partitions, 0 ≤ freeSpaceOf q

theorem SameMembers.trans {p q r : JsonObject JsonValue} (hfirst : SameMembers p q)
    (hsecond : SameMembers q r) : SameMembers p r := by
  constructor
  · exact hsecond.names.trans hfirst.names
  · intro name hfree hprocesses
    exact (hsecond.values name hfree hprocesses).trans (hfirst.values name hfree hprocesses)

theorem Inherits.refl (base : List (JsonObject JsonValue)) : Inherits base base [] := by
  refine ⟨rfl, fun i p hp => ⟨p, hp, ⟨rfl, fun _ _ _ => rfl⟩, ?_, fun _ _ => rfl⟩, fun h => h⟩
  simp [lost]

theorem Inherits.trans {base middle partitions : List (JsonObject JsonValue)}
    {runs more : List Producer} (hfirst : Inherits base middle runs)
    (hsecond : Inherits middle partitions more) : Inherits base partitions (runs ++ more) := by
  constructor
  case length_eq => exact hsecond.length_eq.trans hfirst.length_eq
  case each =>
    intro i p hp
    obtain ⟨q, hq, hsame, hfree, hentries⟩ := hfirst.each i p hp
    obtain ⟨r, hr, hsame', hfree', hentries'⟩ := hsecond.each i q hq
    have hlost : lost (runs ++ more) i = lost runs i + lost more i := by simp [lost]
    refine ⟨r, hr, SameMembers.trans hsame hsame', by omega, fun key hkey => ?_⟩
    have hruns : Foreign key runs := fun run hrun => hkey run (List.mem_append_left _ hrun)
    have hmore : Foreign key more := fun run hrun => hkey run (List.mem_append_right _ hrun)
    rw [hentries' key hmore, hentries key hruns]
  case nonneg => exact fun h => hsecond.nonneg (hfirst.nonneg h)

theorem freeSpaceOf_actAll (turns : List Turn) : ∀ {p : JsonObject JsonValue}, IsPartition p →
    freeSpaceOf (actAll turns p) = freeSpaceOf p - (turns.map taken).sum := by
  induction turns with
  | nil => simp [actAll]
  | cons turn turns ih =>
    intro p hp
    have hrest := ih (turn.act_isPartition hp)
    have hact := freeSpaceOf_act hp turn
    rw [List.map_cons, List.sum_cons]
    show freeSpaceOf (actAll turns (turn.act p)) = _
    omega

/-- What a Producer has made of a partition since an earlier state. -/
structure Became (origin s : Producer) (i : Nat) (p q : JsonObject JsonValue) : Prop where
  members : SameMembers p q
  space : freeSpaceOf q + residentSizes s i = freeSpaceOf p + residentSizes origin i
  entries : ∀ key, Foreign key [s] → getKey (processesOf q) key = getKey (processesOf p) key

theorem became_of_performs {base : List (JsonObject JsonValue)} {origin s : Producer}
    (hbase : ∀ p ∈ base, IsPartition p) (h : Performs base origin s) {i : Nat}
    {p : JsonObject JsonValue} (hp : base[i]? = some p) :
    ∃ q, (current base origin s)[i]? = some q ∧ Became origin s i p q := by
  let turns := (turnsSince origin s).filter fun turn => turn.memIndex = i
  have hpartition := hbase p (List.mem_of_getElem? hp)
  refine ⟨actAll turns p, ?_, sameMembers_actAll turns p, ?_, fun key hkey => ?_⟩
  · rw [current, after, getElem?_foldl_change, hp]
    rfl
  · have hspent : spent (turnsSince origin s) i = (turns.map taken).sum := rfl
    rw [freeSpaceOf_actAll turns hpartition, h.shares i, hspent]
    omega
  · refine getKey_actAll (fun turn hturn => ?_) hpartition
    obtain ⟨thread, hthread, hsame⟩ := h.authors turn (List.mem_filter.mp hturn).1
    rw [← hsame]
    exact hkey s List.mem_cons_self thread hthread

/-- One run, at any moment. -/
theorem inherits_run {memory processesOnWaiting : Content} {base : List (JsonObject JsonValue)}
    {s : Producer} (hbase : ∀ p ∈ base, IsPartition p)
    (h : Performs base (startOn memory processesOnWaiting) s) :
    Inherits base (current base (startOn memory processesOnWaiting) s) [s] := by
  constructor
  case length_eq => exact length_foldl_change _ _
  case nonneg => exact h.nonneg
  case each =>
    intro i p hp
    obtain ⟨q, hq, hbecame⟩ := became_of_performs hbase h hp
    have hspace := hbecame.space
    have hnobody : residentSizes (startOn memory processesOnWaiting) i = 0 := rfl
    have hlost : lost [s] i = residentSizes s i := by simp [lost]
    exact ⟨q, hq, hbecame.members, by omega, hbecame.entries⟩

/-- A succession of runs hands a complete file on. -/
theorem inherits_successive {memory processesOnWaiting memory' processesOnWaiting' : Content}
    {base : List (JsonObject JsonValue)} (hholds : Holds memory base) {ended : List Producer}
    (hruns : Successive memory processesOnWaiting ended memory' processesOnWaiting') :
    ∃ partitions, Holds memory' partitions ∧ Inherits base partitions ended := by
  induction hruns with
  | first => exact ⟨base, hholds, .refl base⟩
  | next _ hrun hquiet ih =>
    obtain ⟨partitions, hleft, hinherits⟩ := ih
    have hperforms := performs_of_run hleft hrun
    exact ⟨_, holds_of_quiet hperforms hquiet,
      hinherits.trans (inherits_run hleft.isPartition hperforms)⟩

/-! ## Results -/

/-- What is left of the partitions of the file `memory` in the file `memory'` after runs. -/
structure Leaves (memory memory' : Content) (runs : List Producer) : Prop where
  count : partitionsFound memory' = partitionsFound memory
  each : ∀ i p, partitionFound memory i = some p → ∃ q, partitionFound memory' i = some q ∧
    SameMembers p q ∧ freeSpaceOf q + lost runs i = freeSpaceOf p ∧
    ∀ key, Foreign key runs → getKey (processesOf q) key = getKey (processesOf p) key
  nonneg : (∀ i p, partitionFound memory i = some p → 0 ≤ freeSpaceOf p) →
    ∀ i q, partitionFound memory' i = some q → 0 ≤ freeSpaceOf q

/-- In every state of every later run in which the memory file is complete, the free space
of a partition, what its residents took, and what died in it with the workers of all
earlier runs are together the free space at the very beginning. -/
theorem dead_space_lost (algorithm : Algorithm) {memory processesOnWaiting memory' processesOnWaiting' : Content}
    (hmemory : WellFormed memory) {ended : List Producer}
    (hruns : Successive memory processesOnWaiting ended memory' processesOnWaiting')
    {s : Producer} (hs : RunsFrom algorithm memory' processesOnWaiting' s)
    (hquiet : Quiet .memory s) : Leaves memory s.shared.memory (ended ++ [s]) := by
  obtain ⟨base, hholds⟩ := holds_of_wellFormed hmemory
  obtain ⟨partitions, hleft, hinherits⟩ := inherits_successive hholds hruns
  have hperforms := performs_of_run hleft hs
  have hnow := holds_of_quiet hperforms hquiet
  have hall := hinherits.trans (inherits_run hleft.isPartition hperforms)
  constructor
  case count => rw [hnow.partitionsFound_eq, hholds.partitionsFound_eq, hall.length_eq]
  case each =>
    intro i p hp
    rw [hholds.partitionFound_eq] at hp
    rw [hnow.partitionFound_eq]
    exact hall.each i p hp
  case nonneg =>
    intro hnonneg i q hq
    rw [hnow.partitionFound_eq] at hq
    refine hall.nonneg (fun p hp => ?_) q (List.mem_of_getElem? hq)
    obtain ⟨j, hj⟩ := List.mem_iff_getElem?.mp hp
    exact hnonneg j p (by rwa [hholds.partitionFound_eq])

/-- A run from the files of Initializer is a run from the files as they are. -/
theorem runsFrom_of_reachable {algorithm : Algorithm} {schema : CString} {memory : Content}
    (hmemory : initMemory schema = some memory) {s : Producer} (hs : Reachable algorithm schema s) :
    ∃ processesOnWaiting, RunsFrom algorithm memory processesOnWaiting s := by
  obtain ⟨⟨⟨memory', processesOnWaiting, semFindSpace⟩, threads, history, halted⟩, hstarts, hrun⟩ := hs
  obtain ⟨hfile, -, hsem, hthreads, hhistory, hhalted⟩ := hstarts
  simp only at hfile hsem hthreads hhistory hhalted
  rw [hmemory, Option.some.injEq] at hfile
  subst hfile hsem hthreads hhistory hhalted
  exact ⟨processesOnWaiting, hrun⟩

/-- 482 workers die asleep, and the next Producer finds a partition without free space. -/
theorem dead_space_lost_wide : ∃ ended s : Producer, residentSizes ended 0 = 482 ∧
    s.threads = [] ∧ Leaves (memoryFile wide (unoccupied wide).partitions) s.shared.memory [ended, s] := by
  obtain ⟨ended, hasleep⟩ := asleep_of_le 482 (Nat.le_refl _)
  obtain ⟨processesOnWaiting, hrun⟩ :=
    runsFrom_of_reachable (initMemory_schemaOf (by decide)) (reachable_of_when hasleep.reachable)
  have hquiet : Quiet .memory ended := quiet_of_between (between_of_asleep hasleep)
  refine ⟨ended, startOn ended.shared.memory ended.shared.processesOnWaiting,
    residentSizes_of_asleep hasleep, rfl, ?_⟩
  exact dead_space_lost .firstFit (wellFormed_memoryFile _ framed_wide)
    (Successive.first.next hrun hquiet) .refl (by simp [Quiet, startOn])

end DynamicPartitions.Properties.Succession
