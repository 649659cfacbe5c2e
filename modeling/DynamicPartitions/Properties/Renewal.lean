import DynamicPartitions.Program.FileUpdate
import DynamicPartitions.Properties.Succession

/-!
# Initializer run again

Initializer rewrites both files and knows nothing of the workers that are asleep in the
partitions. Run under a working Producer, while no worker is inside a critical section, it
hands out their space again, and each of them still gives its size back: from then on a
partition has more space than the schema says, by what its residents took before.
-/
namespace DynamicPartitions.Properties.Renewal

open Relation (ReflTransGen)
open DynamicPartitions.Parson.Value
open DynamicPartitions.Parson.Parser
open DynamicPartitions.Parson.Serializer
open DynamicPartitions.Program.Algorithms
open DynamicPartitions.Program.MappedFile
open DynamicPartitions.Program.WorkerThread
open DynamicPartitions.Program.Threads
open DynamicPartitions.Program.Moves
open DynamicPartitions.Program.Calls
open DynamicPartitions.Program.Exclusion hiding WellFormed
open DynamicPartitions.Program.Observation
open DynamicPartitions.Program.FileUpdate hiding initMemory initMemoryProcessesOnWaiting
open DynamicPartitions.Refinement.Representation
open DynamicPartitions.Refinement.Memory
open DynamicPartitions.Refinement.Sections
open DynamicPartitions.Refinement.Takeover
open DynamicPartitions.Properties.Conservation
open DynamicPartitions.Properties.Release
open DynamicPartitions.Properties.Succession

/-! ## Initializer beside the workers -/

/-- The effects of a function that writes a file: open with truncation, stretch, copy. -/
def stages (text : CString) : List WriteStage :=
  [.opening (some text), .stretching text, .copying text]

/-- `main` of Initializer: the effects of `init_memory`, for the text of `schema.json`, and
of `init_memory_processes_on_waiting`. -/
def initializer (schema : CString) : Option (List (FileName × WriteStage)) := do
  let serializedString ← jsonSerializeToString (jsonParseString schema)
  let empty ← jsonSerializeToString (jsonParseString "{}".toList)
  return (stages serializedString).map (.memory, ·) ++ (stages empty).map (.processesOnWaiting, ·)

/-- One effect of another program on a file the workers share. -/
def affect (s : Producer) (file : FileName) (stage : WriteStage) : Producer :=
  { s with shared := s.shared.setContent (writeStep (s.shared.content file) stage).1 file }

/-- The effects take place in their order; between them the workers take steps, but none
that leads into a critical section. -/
inductive Interleaved (algorithm : Algorithm) : List (FileName × WriteStage) → Producer → Producer → Prop
  | ended (s : Producer) : Interleaved algorithm [] s s
  | worker {todo : List (FileName × WriteStage)} {s t u : Producer} : Step algorithm s t →
      BetweenSections t → Interleaved algorithm todo t u → Interleaved algorithm todo s u
  | effect {file : FileName} {stage : WriteStage} {todo : List (FileName × WriteStage)}
      {s u : Producer} : Interleaved algorithm todo (affect s file stage) u →
      Interleaved algorithm ((file, stage) :: todo) s u

/-- A memory file whose free spaces are not negative and stay `int`s when the residents of
the state give back what they hold. -/
structure Fitting (memory : Content) (origin : Producer) : Prop where
  wellFormed : WellFormed memory
  nonneg : ∀ i p, partitionFound memory i = some p → 0 ≤ freeSpaceOf p
  inInt : ∀ i p, partitionFound memory i = some p →
    freeSpaceOf p + residentSizes origin i ≤ intMax

/-- Runs of a Producer during which Initializer may be run again and again, each time with
a fitting memory in what `schema.json` then holds: the memory file as it was written last,
the state of the Producer when that was done, and its state now. -/
inductive RunsOver (algorithm : Algorithm) : Content → Producer → Producer → Prop
  | first {memory processesOnWaiting : Content} :
      Fitting memory (startOn memory processesOnWaiting) → RunsOver algorithm memory
        (startOn memory processesOnWaiting) (startOn memory processesOnWaiting)
  | step {memory : Content} {origin s t : Producer} : RunsOver algorithm memory origin s →
      Step algorithm s t → RunsOver algorithm memory origin t
  | renewed {memory memory' : Content} {origin s t : Producer} {schema : CString}
      {todo : List (FileName × WriteStage)} : RunsOver algorithm memory origin s →
      BetweenSections s → initMemory schema = some memory' → initializer schema = some todo →
      Interleaved algorithm todo s t → Fitting memory' t → RunsOver algorithm memory' t t

/-! ## What Initializer leaves -/

/-- A step that starts and ends between critical sections leaves the memory alone. -/
theorem memory_of_step {algorithm : Algorithm} {s t : Producer} (hstep : Step algorithm s t)
    (hbetween : BetweenSections s) (hbetween' : BetweenSections t) :
    t.shared.memory = s.shared.memory := by
  obtain ⟨-, hlive | ⟨i, thread, reason, shared', hi, hhalts, rfl⟩⟩ := live_or_halt hstep
  · cases hlive with
    | create => rfl
    | @move i thread thread' shared' events hi hmove =>
      have hset := Lib.Update.getElem?_set_self_of_some hi thread'
      exact (outside_section hmove (hbetween thread (List.mem_of_getElem? hi))
        (hbetween' thread' (List.mem_of_getElem? hset))).1
  · exact memory_of_halts_outside (hbetween thread (List.mem_of_getElem? hi)) hhalts

theorem wellFormed_step {algorithm : Algorithm} {s t : Producer} (h : Program.Exclusion.WellFormed s)
    (hstep : Step algorithm s t) : Program.Exclusion.WellFormed t := by
  obtain ⟨-, hlive | ⟨i, thread, reason, shared', -, hhalts, rfl⟩⟩ := live_or_halt hstep
  · exact wellFormed_live h hlive
  · exact wellFormed_stopped h hhalts

/-- What effects on both files do to the memory file. -/
def memoryAfter (todo : List (FileName × WriteStage)) (content : Content) : Content :=
  todo.foldl (fun content effect =>
    if effect.1 = .memory then (writeStep content effect.2).1 else content) content

structure Renewed (todo : List (FileName × WriteStage)) (s t : Producer) : Prop where
  wellFormed : Program.Exclusion.WellFormed t
  between : BetweenSections t
  memory : t.shared.memory = memoryAfter todo s.shared.memory

theorem renewed_of_interleaved {algorithm : Algorithm} {todo : List (FileName × WriteStage)}
    {s t : Producer} (hrun : Interleaved algorithm todo s t) (hwell : Program.Exclusion.WellFormed s)
    (hbetween : BetweenSections s) : Renewed todo s t := by
  induction hrun with
  | ended s => exact ⟨hwell, hbetween, rfl⟩
  | worker hstep hbetween' _ ih =>
    have hrest := ih (wellFormed_step hwell hstep) hbetween'
    refine ⟨hrest.wellFormed, hrest.between, ?_⟩
    rw [hrest.memory, memory_of_step hstep hbetween hbetween']
  | @effect file stage todo s u _ ih =>
    have haffected : Program.Exclusion.WellFormed (affect s file stage) := by
      have hsem : (affect s file stage).shared.semFindSpace = s.shared.semFindSpace := by
        cases file <;> rfl
      exact ⟨hsem ▸ hwell.exclusive, hwell.numbered, hwell.size_pos, hwell.ids_distinct⟩
    have hrest := ih haffected hbetween
    refine ⟨hrest.wellFormed, hrest.between, ?_⟩
    rw [hrest.memory, memoryAfter, memoryAfter, List.foldl_cons]
    cases file <;> rfl

theorem initializer_of_initMemory {schema : CString} {memory : Content}
    (h : initMemory schema = some memory) : ∃ text empty, memory = stored text ∧
      initializer schema = some ((stages text).map (.memory, ·) ++
        (stages empty).map (.processesOnWaiting, ·)) := by
  obtain ⟨text, htext, rfl⟩ := Option.map_eq_some_iff.mp h
  obtain ⟨empty, hempty⟩ : ∃ empty, jsonSerializeToString (jsonParseString "{}".toList) = some empty :=
    ⟨_, rfl⟩
  refine ⟨text, empty, rfl, ?_⟩
  simp only [initializer, htext, hempty, Option.bind_eq_bind, Option.bind_some, Option.pure_def]

/-- However the workers come between, the memory file is in the end what Initializer alone
would have made it. -/
theorem memory_of_initializer {schema : CString} {todo : List (FileName × WriteStage)} {memory : Content}
    (hmemory : initMemory schema = some memory) (htodo : initializer schema = some todo)
    (content : Content) : memoryAfter todo content = memory := by
  obtain ⟨text, empty, rfl, heffects⟩ := initializer_of_initMemory hmemory
  obtain rfl := Option.some.inj (heffects.symm.trans htodo)
  have hwaiting : ∀ content, memoryAfter ((stages empty).map (.processesOnWaiting, ·)) content = content :=
    fun _ => rfl
  calc memoryAfter ((stages text).map (.memory, ·) ++ (stages empty).map (.processesOnWaiting, ·)) content
      = memoryAfter ((stages text).map (.memory, ·)) content := by
        rw [memoryAfter, List.foldl_append]
        exact hwaiting _
    _ = strcpy (stretch [] text) text := by
        simp only [memoryAfter, stages, List.map_cons, List.map_nil, List.foldl_cons, List.foldl_nil,
          if_true, writeStep]
        split <;> rfl
    _ = stored text := by rw [stretch_nil, strcpy_zeros]

/-! ## Runs -/

theorem wellFormed_of_runsOver {algorithm : Algorithm} {memory : Content} {origin s : Producer}
    (h : RunsOver algorithm memory origin s) : Program.Exclusion.WellFormed s := by
  induction h with
  | first => exact wellFormed_startOn _ _
  | step _ hstep ih => exact wellFormed_step ih hstep
  | renewed _ hbetween _ _ hrun _ ih => exact (renewed_of_interleaved hrun ih hbetween).wellFormed

/-- When the files were written last, and what the Producer did from then on. -/
structure Since (algorithm : Algorithm) (memory : Content) (origin s : Producer) : Prop where
  wellFormed : Program.Exclusion.WellFormed origin
  between : BetweenSections origin
  fitting : Fitting memory origin
  memory : origin.shared.memory = memory
  run : ReflTransGen (Step algorithm) origin s

theorem since_of_runsOver {algorithm : Algorithm} {memory : Content} {origin s : Producer}
    (h : RunsOver algorithm memory origin s) : Since algorithm memory origin s := by
  induction h with
  | first hfitting =>
    exact ⟨wellFormed_startOn _ _, by simp [BetweenSections, startOn], hfitting, rfl, .refl⟩
  | step _ hstep ih => exact ⟨ih.wellFormed, ih.between, ih.fitting, ih.memory, ih.run.tail hstep⟩
  | renewed hearlier hbetween hmemory htodo hrun hfitting _ =>
    have hrenewed := renewed_of_interleaved hrun (wellFormed_of_runsOver hearlier) hbetween
    refine ⟨hrenewed.wellFormed, hrenewed.between, hfitting, ?_, .refl⟩
    rw [hrenewed.memory, memory_of_initializer hmemory htodo]

/-! ## Results -/

/-- What has become of a memory file as it was written last, in the state `origin`. -/
structure Outgrows (memory : Content) (origin s : Producer) : Prop where
  count : partitionsFound s.shared.memory = partitionsFound memory
  each : ∀ i p, partitionFound memory i = some p →
    ∃ q, partitionFound s.shared.memory i = some q ∧ Became origin s i p q
  nonneg : ∀ i q, partitionFound s.shared.memory i = some q → 0 ≤ freeSpaceOf q

/-- The free space of a partition that a worker has just read, and the one it computes, are
`int`s. (Where there is no partition, it computes its own size.) -/
def SumsInInt (algorithm : Algorithm) (s : Producer) : Prop :=
  ∀ thread ∈ s.threads, ∀ stSize k q, partitionFound s.shared.memory k = some q →
    (thread.pc = .reading .placement (.mapping stSize) →
      placement algorithm thread.worker (reprint (cString s.shared.memory)) = some k →
      InInt (freeSpaceOf q) ∧ InInt (freeSpaceOf q - thread.worker.processSize)) ∧
    (thread.pc = .reading (.devolution k) (.mapping stSize) →
      InInt (freeSpaceOf q) ∧ InInt (freeSpaceOf q + thread.worker.processSize))

/-- No resident holds more than all of them. -/
theorem share_le_residentSizes {s : Producer} (hwell : Program.Exclusion.WellFormed s) (i : Nat) :
    0 ≤ residentSizes s i ∧ ∀ thread ∈ s.threads, share i thread ≤ residentSizes s i := by
  have hshares : ∀ size ∈ s.threads.map (share i), 0 ≤ size := by
    intro size hsize
    obtain ⟨thread, hthread, rfl⟩ := List.mem_map.mp hsize
    have hpos := hwell.size_pos thread hthread
    unfold share
    split <;> omega
  rw [residentSizes_eq_sum]
  exact ⟨List.sum_nonneg hshares,
    fun thread hthread => List.single_le_sum hshares _ (List.mem_map_of_mem hthread)⟩

section Bounds

variable {algorithm : Algorithm} {base : List (JsonObject JsonValue)} {origin s : Producer}
  (hbase : ∀ p ∈ base, IsPartition p) (hperforms : Performs base origin s)
  (hnonneg : ∀ p ∈ base, 0 ≤ freeSpaceOf p)
  (hinInt : ∀ (i : Nat) p, base[i]? = some p → freeSpaceOf p + residentSizes origin i ≤ intMax)
include hbase hperforms hnonneg hinInt

/-- With what its residents hold, a partition never has more than an `int` of space. -/
theorem bounds_of_performs {i : Nat} {q : JsonObject JsonValue}
    (hq : (current base origin s)[i]? = some q) :
    0 ≤ freeSpaceOf q ∧ freeSpaceOf q + residentSizes s i ≤ intMax := by
  have hlength : (current base origin s).length = base.length := length_foldl_change _ _
  obtain ⟨hi, -⟩ := List.getElem?_eq_some_iff.mp hq
  have hp := List.getElem?_eq_getElem (hlength ▸ hi)
  obtain ⟨q', hq', hbecame⟩ := became_of_performs hbase hperforms hp
  obtain rfl := Option.some.inj (hq.symm.trans hq')
  refine ⟨hperforms.nonneg hnonneg q (List.mem_of_getElem? hq), ?_⟩
  rw [hbecame.space]
  exact hinInt i _ hp

theorem sumsInInt_of_performs (hwell : Program.Exclusion.WellFormed s) : SumsInInt algorithm s := by
  intro thread hthread stSize k q hq
  have hpos := hwell.size_pos thread hthread
  have hmin : intMin ≤ 0 := by decide
  have hholds : thread.pc.isCritical = true → (∀ call stage, thread.pc ≠ .writing call stage) →
      Holds s.shared.memory (current base origin s) := by
    intro hcrit hstill
    have hview := hperforms.view thread hthread hcrit
    unfold Sees at hview
    split at hview
    · next k stage hpc => exact absurd hpc (hstill _ _)
    · next k stage hpc => exact absurd hpc (hstill _ _)
    · exact hview
  have hshares := share_le_residentSizes hwell k
  constructor
  · intro hpc hplace
    have hnow := hholds (by simp [hpc, Pc.isCritical]) (by simp [hpc])
    rw [hnow.partitionFound_eq] at hq
    obtain ⟨q', hq', hfits⟩ := placement_fits hnow hplace
    obtain rfl := Option.some.inj (hq.symm.trans hq')
    obtain ⟨hlow, hhigh⟩ := bounds_of_performs hbase hperforms hnonneg hinInt hq
    exact ⟨⟨by omega, by omega⟩, ⟨by omega, by omega⟩⟩
  · intro hpc
    have hnow := hholds (by simp [hpc, Pc.isCritical]) (by simp [hpc])
    rw [hnow.partitionFound_eq] at hq
    obtain ⟨hlow, hhigh⟩ := bounds_of_performs hbase hperforms hnonneg hinInt hq
    have hshare := hshares.2 thread hthread
    simp only [share, hpc, Pc.residence, if_true] at hshare
    exact ⟨⟨by omega, by omega⟩, ⟨by omega, by omega⟩⟩

end Bounds

/-- In every state in which the memory file is complete, the free space of a partition and
what its residents take are together the free space in the schema and what the residents
took when Initializer was run last; and no worker's sum leaves the range of an `int`. -/
theorem renewal_inflates {algorithm : Algorithm} {memory : Content} {origin s : Producer}
    (hrun : RunsOver algorithm memory origin s) :
    (Quiet .memory s → Outgrows memory origin s) ∧ SumsInInt algorithm s := by
  have hsince := since_of_runsOver hrun
  obtain ⟨base, hholds⟩ := holds_of_wellFormed hsince.fitting.wellFormed
  obtain ⟨hwell, hperforms⟩ := performs_of_steps hsince.wellFormed hsince.between
    (hsince.memory ▸ hholds) hsince.run
  have hnonneg : ∀ p ∈ base, 0 ≤ freeSpaceOf p := by
    intro p hp
    obtain ⟨i, hi⟩ := List.mem_iff_getElem?.mp hp
    exact hsince.fitting.nonneg i p (by rwa [hholds.partitionFound_eq])
  have hinInt : ∀ (i : Nat) p, base[i]? = some p →
      freeSpaceOf p + residentSizes origin i ≤ intMax :=
    fun i p hp => hsince.fitting.inInt i p (by rwa [hholds.partitionFound_eq])
  refine ⟨fun hquiet => ?_, sumsInInt_of_performs hholds.isPartition hperforms hnonneg hinInt hwell⟩
  have hnow := holds_of_quiet hperforms hquiet
  constructor
  case count =>
    rw [hnow.partitionsFound_eq, hholds.partitionsFound_eq]
    exact length_foldl_change _ _
  case each =>
    intro i p hp
    rw [hholds.partitionFound_eq] at hp
    rw [hnow.partitionFound_eq]
    exact became_of_performs hholds.isPartition hperforms hp
  case nonneg =>
    intro i q hq
    rw [hnow.partitionFound_eq] at hq
    exact hperforms.nonneg hnonneg q (List.mem_of_getElem? hq)

/-- Initializer can run while the workers do nothing. -/
theorem interleaved_alone (algorithm : Algorithm) (todo : List (FileName × WriteStage)) (s : Producer) :
    ∃ t, Interleaved algorithm todo s t ∧ t.threads = s.threads := by
  induction todo generalizing s with
  | nil => exact ⟨s, .ended s, rfl⟩
  | cons effect todo ih =>
    obtain ⟨t, hrun, hthreads⟩ := ih (affect s effect.1 effect.2)
    exact ⟨t, .effect hrun, hthreads⟩

theorem runsOver_of_steps {algorithm : Algorithm} {memory : Content} {origin s t : Producer}
    (h : RunsOver algorithm memory origin s) (hs : ReflTransGen (Step algorithm) s t) :
    RunsOver algorithm memory origin t := by
  induction hs with
  | refl => exact h
  | tail _ hstep ih => exact .step ih hstep

/-- The memory of a schema fits while its residents take no more than an `int` beyond it. -/
theorem fitting_unoccupied {frames : List Frame} (hcount : frames.length ≤ arrayMaxCapacity)
    {origin : Producer}
    (h : ∀ i frame, frames[i]? = some frame → frame.size + residentSizes origin i ≤ intMax) :
    Fitting (memoryFile frames (unoccupied frames).partitions) origin := by
  have hframed := framed_unoccupied hcount
  have hfound : ∀ i p, partitionFound (memoryFile frames (unoccupied frames).partitions) i = some p →
      ∃ frame, frames[i]? = some frame ∧ freeSpaceOf p = frame.size := by
    intro i p hp
    rw [partitionFound, jsonParseString_memoryFile _ hframed, partitionAt,
      jsonArrayGetObject_memory] at hp
    simp only [unoccupied, Abstract.Accounting.Allocator.empty, List.getElem?_map] at hp
    cases hframe : frames[i]? with
    | none => simp [hframe] at hp
    | some frame =>
      simp only [hframe, Option.map_some, Option.some.injEq] at hp
      exact ⟨frame, rfl, hp ▸ freeSpaceOf_frame _ _ _⟩
  constructor
  case wellFormed => exact wellFormed_memoryFile _ hframed
  case nonneg =>
    intro i p hp
    obtain ⟨frame, -, hfree⟩ := hfound i p hp
    exact hfree ▸ frame.size_nonneg
  case inInt =>
    intro i p hp
    obtain ⟨frame, hframe, hfree⟩ := hfound i p hp
    exact hfree ▸ h i frame hframe

/-- 482 workers are asleep when Initializer is run again on the same schema. -/
theorem renewal_inflates_wide : ∃ s : Producer, residentSizes s 0 = 482 ∧
    (Quiet .memory s → Outgrows (memoryFile wide (unoccupied wide).partitions) s s) ∧
    SumsInInt .firstFit s := by
  obtain ⟨asleep, hasleep⟩ := asleep_of_le 482 (Nat.le_refl _)
  have hinit : initMemory (schemaOf wide) = some (memoryFile wide (unoccupied wide).partitions) :=
    initMemory_schemaOf (by decide)
  obtain ⟨processesOnWaiting, hrun⟩ :=
    runsFrom_of_reachable hinit (reachable_of_when hasleep.reachable)
  obtain ⟨text, empty, -, htodo⟩ := initializer_of_initMemory hinit
  obtain ⟨s, hinterleaved, hthreads⟩ := interleaved_alone .firstFit _ asleep
  have hsizes : residentSizes s 0 = 482 := by
    rw [residentSizes, residentsAt, hthreads]
    exact residentSizes_of_asleep hasleep
  have hfits : ∀ origin : Producer, residentSizes origin 0 ≤ 482 →
      Fitting (memoryFile wide (unoccupied wide).partitions) origin := by
    intro origin hle
    refine fitting_unoccupied (by decide) fun i frame hframe => ?_
    obtain ⟨rfl, rfl⟩ : i = 0 ∧ frame = plainFrame 482 (by decide) (by decide) := by
      cases i with
      | zero => exact ⟨rfl, (Option.some.inj hframe).symm⟩
      | succ i => cases hframe
    have hmax : (964 : Int) ≤ intMax := by decide
    show 482 + residentSizes origin 0 ≤ intMax
    omega
  have hstart := hfits (startOn (memoryFile wide (unoccupied wide).partitions) processesOnWaiting)
    (show (0 : Int) ≤ 482 by decide)
  have hover := RunsOver.renewed (runsOver_of_steps (.first hstart) hrun) (between_of_asleep hasleep)
    hinit htodo hinterleaved (hfits s hsizes.le)
  exact ⟨s, hsizes, renewal_inflates hover⟩

end DynamicPartitions.Properties.Renewal
