import DynamicPartitions.Lib.Descent
import DynamicPartitions.Properties.Listing
import DynamicPartitions.Properties.Semaphore

/-!
# Every worker comes to an end

A worker has at most 27 effects, so without new threads a Producer goes on for no more
than 27 steps a worker. When it cannot go on any more it has stopped, or every worker
has followed one of the two paths through `worker_thread` to the end and the memory file
is what Initializer wrote, byte for byte. Where no call on a file is interrupted it never
stops.
-/
namespace DynamicPartitions.Properties.Draining

open Relation (ReflTransGen)
open DynamicPartitions.Lib.Update
open DynamicPartitions.Lib.Descent
open DynamicPartitions.Parson.Value
open DynamicPartitions.Program.Algorithms
open DynamicPartitions.Program.WorkerThread
open DynamicPartitions.Program.Threads
open DynamicPartitions.Program.Moves
open DynamicPartitions.Program.Exclusion
open DynamicPartitions.Program.Calls
open DynamicPartitions.Program.Observation
open DynamicPartitions.Program.Trails
open DynamicPartitions.Refinement.Memory
open DynamicPartitions.Refinement.Runs
open DynamicPartitions.Properties.Conservation
open DynamicPartitions.Properties.Semaphore
open DynamicPartitions.Properties.Listing
open DynamicPartitions.Properties.Enlistment

/-! ## What a worker still has to do -/

/-- How many effects a worker is at most away from its end. -/
def stepsLeft : Pc → Nat
  | .reading .registration stage => 25 + stagesLeft stage
  | .writing .registration stage => 22 + writeStagesLeft stage
  | .semWait .admission => 22
  | .reading .removal stage => 19 + stagesLeft stage
  | .writing .removal stage => 16 + writeStagesLeft stage
  | .reading .placement stage => 14 + stagesLeft stage
  | .writing (.admission _) stage => 11 + writeStagesLeft stage
  | .slog (.admitted _) => 11
  | .semPost (.admitted _) => 10
  | .sleeping _ => 9
  | .semWait (.devolution _) => 8
  | .reading (.devolution _) stage => 5 + stagesLeft stage
  | .writing (.devolution _) stage => 2 + writeStagesLeft stage
  | .slog _ => 2
  | .semPost _ => 1
  | .finished => 0

theorem stepsLeft_le (pc : Pc) : stepsLeft pc ≤ 27 := by
  cases pc with
  | reading call stage => cases call <;> cases stage <;> simp [stepsLeft, stagesLeft]
  | writing call stage => cases call <;> cases stage <;> simp [stepsLeft, writeStagesLeft]
  | semWait critical => cases critical <;> simp [stepsLeft]
  | slog outcome | semPost outcome => cases outcome <;> simp [stepsLeft]
  | sleeping k => simp [stepsLeft]
  | finished => simp [stepsLeft]

theorem stepsLeft_pos {pc : Pc} (h : pc ≠ .finished) : 0 < stepsLeft pc := by
  cases pc with
  | reading call stage => cases call <;> cases stage <;> simp [stepsLeft, stagesLeft]
  | writing call stage => cases call <;> cases stage <;> simp [stepsLeft, writeStagesLeft]
  | semWait critical => cases critical <;> simp [stepsLeft]
  | slog outcome | semPost outcome => cases outcome <;> simp [stepsLeft]
  | sleeping k => simp [stepsLeft]
  | finished => exact absurd rfl h

theorem stepsLeft_of_move {algorithm : Algorithm} {thread thread' : Thread} {shared shared' : Shared}
    {events : List Event} (h : Move algorithm thread shared thread' shared' events) :
    stepsLeft thread'.pc < stepsLeft thread.pc := by
  cases h with
  | @opened call hpc hsize => cases call <;> simp [hpc, Thread.at, stepsLeft, stagesLeft]
  | @loaded call stSize hpc hextent =>
    cases call with
    | placement =>
      simp only [afterRead]
      split <;> simp [hpc, Thread.at, stepsLeft, stagesLeft, writeStagesLeft]
    | _ => simp [hpc, afterRead, Thread.at, stepsLeft, stagesLeft, writeStagesLeft]
  | @truncated call text hpc | @stretched call text hpc =>
    cases call <;> simp [hpc, Thread.at, stepsLeft, writeStagesLeft]
  | @copied call text hpc hfits =>
    cases call <;> simp [hpc, Thread.at, afterWrite, stepsLeft, stagesLeft, writeStagesLeft]
  | @acquired critical value hpc hvalue =>
    cases critical <;> simp [hpc, Thread.at, afterWait, stepsLeft, stagesLeft]
  | @logged outcome hpc => cases outcome <;> simp [hpc, Thread.at, stepsLeft]
  | @released outcome hpc => cases outcome <;> simp [hpc, Thread.at, afterPost, stepsLeft]
  | @woken k hpc => simp [hpc, Thread.at, stepsLeft]

/-! ## What the process still has to do -/

/-- A step of some worker. -/
def WorkerStep (algorithm : Algorithm) (s t : Producer) : Prop := ∃ i, step algorithm s i = some t

def work (s : Producer) : Nat :=
  if s.halted.isSome then 0 else (s.threads.map fun thread => stepsLeft thread.pc).sum

theorem work_le (s : Producer) : work s ≤ 27 * s.threads.length := by
  have hsum : (s.threads.map fun thread => stepsLeft thread.pc).sum ≤ s.threads.length * 27 := by
    have h := List.sum_le_card_nsmul (s.threads.map fun thread => stepsLeft thread.pc) 27
      (by simp [stepsLeft_le])
    simpa using h
  unfold work
  split <;> omega

theorem work_workerStep {algorithm : Algorithm} {s t : Producer} (h : WorkerStep algorithm s t) :
    work t < work s := by
  obtain ⟨i, hstep⟩ := h
  obtain ⟨hhalted, thread, hi, ⟨reason, shared', hhalts, rfl⟩ |
    ⟨thread', shared', events, hmove, rfl⟩⟩ := step_cases hstep
  · have hlive : thread.pc ≠ .finished := by
      cases hhalts with
      | empty hpc | outside hpc | null hpc | cut hpc => simp [hpc]
    have hpos := stepsLeft_pos hlive
    have hle := List.single_le_sum (by simp) _
      (List.mem_map_of_mem (f := fun thread => stepsLeft thread.pc) (List.mem_of_getElem? hi))
    simp only [work, stopped, hhalted, Option.isSome_some, Option.isSome_none, if_true,
      Bool.false_eq_true, if_false]
    omega
  · have hlower := stepsLeft_of_move hmove
    have hsum := sum_map_set (fun thread => stepsLeft thread.pc) hi thread'
    simp only [work, moved, hhalted, Option.isSome_none, Bool.false_eq_true, if_false]
    omega

/-- What one worker of a running process still has to do. -/
def workOf (s : Producer) (i : Nat) : Nat :=
  if s.halted.isSome then 0 else (s.threads[i]?.map fun thread => stepsLeft thread.pc).getD 0

theorem workOf_le (s : Producer) (i : Nat) : workOf s i ≤ 27 := by
  unfold workOf
  split
  · exact Nat.zero_le _
  · cases s.threads[i]? with
    | none => exact Nat.zero_le _
    | some thread => exact stepsLeft_le thread.pc

/-- The worker that moves has less to do, the others have no more. -/
theorem workOf_step {algorithm : Algorithm} {s t : Producer} {j : Nat}
    (h : step algorithm s j = some t) :
    workOf t j < workOf s j ∧ ∀ i, workOf t i ≤ workOf s i := by
  obtain ⟨hhalted, thread, hj, ⟨reason, shared', hhalts, rfl⟩ |
    ⟨thread', shared', events, hmove, rfl⟩⟩ := step_cases h
  · have hlive : thread.pc ≠ .finished := by
      cases hhalts with
      | empty hpc | outside hpc | null hpc | cut hpc => simp [hpc]
    have hpos := stepsLeft_pos hlive
    have hnone : ∀ i, workOf (stopped s reason shared') i = 0 := fun i => by simp [workOf, stopped]
    refine ⟨?_, fun i => (hnone i).trans_le (Nat.zero_le _)⟩
    rw [hnone]
    simpa [workOf, hhalted, hj] using hpos
  · have hlower := stepsLeft_of_move hmove
    have hself : workOf (moved s j thread thread' shared' events) j < workOf s j := by
      simpa [workOf, moved, hhalted, hj, getElem?_set_self_of_some hj] using hlower
    refine ⟨hself, fun i => ?_⟩
    by_cases hi : i = j
    · rw [hi]
      exact Nat.le_of_lt hself
    · have hsame : (s.threads.set j thread')[i]? = s.threads[i]? := List.getElem?_set_ne (Ne.symm hi)
      simp [workOf, moved, hhalted, hsame]

/-- The workers numbered in a schedule take a step each, one after the other. -/
def follow (algorithm : Algorithm) (schedule : List Nat) (s : Producer) : Option Producer :=
  schedule.foldlM (step algorithm) s

/-- No schedule lets a worker move more often than it has effects to go. -/
theorem count_le_workOf {algorithm : Algorithm} {t : Producer} (i : Nat) (schedule : List Nat) :
    ∀ {s : Producer}, follow algorithm schedule s = some t →
      schedule.count i ≤ workOf s i := by
  induction schedule with
  | nil => exact fun _ => Nat.zero_le _
  | cons j schedule ih =>
    intro s h
    obtain ⟨u, hstep, hrest⟩ := Option.bind_eq_some_iff.mp h
    obtain ⟨hself, hothers⟩ := workOf_step hstep
    have hle := ih hrest
    rw [List.count_cons]
    by_cases hj : j = i
    · subst hj
      simp only [beq_self_eq_true, if_true]
      omega
    · have hother := hothers i
      simp only [beq_eq_false_iff_ne.mpr hj, Bool.false_eq_true, if_false]
      omega

theorem reachable_workerStep {algorithm : Algorithm} {schema : CString} {s t : Producer}
    (hs : Reachable algorithm schema s) (h : WorkerStep algorithm s t) :
    Reachable algorithm schema t := by
  obtain ⟨start, hstart, hrun⟩ := hs
  obtain ⟨i, hstep⟩ := h
  exact ⟨start, hstart, hrun.tail (.run hstep)⟩

theorem reachable_of_workerSteps {algorithm : Algorithm} {schema : CString} {s t : Producer}
    (hs : Reachable algorithm schema s) (h : ReflTransGen (WorkerStep algorithm) s t) :
    Reachable algorithm schema t := by
  induction h with
  | refl => exact hs
  | tail _ hlast ih => exact reachable_workerStep ih hlast

/-- As long as a worker of a living process has not finished, some worker can move. -/
theorem exists_enabled (algorithm : Algorithm) {s : Producer} (hwell : WellFormed s)
    (hhalted : s.halted = none) {thread : Thread} (hthread : thread ∈ s.threads)
    (hlive : thread.pc ≠ .finished) :
    ∃ (i : Nat) (mover : Thread) (t : Producer), s.threads[i]? = some mover ∧
      step algorithm s i = some t := by
  by_cases hzero : s.shared.semFindSpace = 0
  · obtain ⟨j, holder, hj, hcrit⟩ := holder_of_zero hwell hzero
    have hsome : (step algorithm s j).isSome := by
      apply step_isSome algorithm hhalted hj
      · intro hpc
        simp [hpc, Pc.isCritical] at hcrit
      · intro critical hpc
        simp [hpc, Pc.isCritical] at hcrit
    obtain ⟨t, ht⟩ := Option.isSome_iff_exists.mp hsome
    exact ⟨j, holder, t, hj, ht⟩
  · obtain ⟨i, hi⟩ := List.mem_iff_getElem?.mp hthread
    obtain ⟨t, ht⟩ := Option.isSome_iff_exists.mp
      (step_isSome algorithm hhalted hi hlive fun _ _ => hzero)
    exact ⟨i, thread, t, hi, ht⟩

/-- A living process in which nobody can move has nobody left to move. -/
theorem finished_of_stuck {algorithm : Algorithm} {s : Producer} (hwell : WellFormed s)
    (hhalted : s.halted = none) (hstuck : Stuck (WorkerStep algorithm) s) :
    ∀ thread ∈ s.threads, thread.pc = .finished := by
  intro thread hthread
  by_contra hlive
  obtain ⟨i, mover, t, -, ht⟩ := exists_enabled algorithm hwell hhalted hthread hlive
  exact hstuck t ⟨i, ht⟩

/-! ## Calls taken whole -/

/-- A step of some worker, a call on a file being one step. -/
def CallStep (algorithm : Algorithm) (s t : Producer) : Prop :=
  ∃ (i : Nat) (thread : Thread), s.threads[i]? = some thread ∧
    stepMany algorithm i (stride everyCall thread.pc) s = some t

theorem stepsLeft_of_callMove {algorithm : Algorithm} {thread thread' : Thread}
    {shared shared' : Shared} {events : List Event}
    (h : CallMove everyCall algorithm thread shared thread' shared' events) :
    stepsLeft thread'.pc < stepsLeft thread.pc := by
  cases h with
  | @read call value hwhole hpc hvalue hcontent =>
    cases call with
    | placement =>
      simp only [afterRead]
      split <;> simp [hpc, Thread.at, stepsLeft, stagesLeft, writeStagesLeft]
    | _ => simp [hpc, afterRead, Thread.at, stepsLeft, stagesLeft, writeStagesLeft]
  | @write call text hwhole hpc =>
    cases call <;> simp [hpc, Thread.at, afterWrite, stepsLeft, stagesLeft, writeStagesLeft]
  | other hread hwrite hmove => exact stepsLeft_of_move hmove

section Whole

variable {cond : Producer → Thread → Prop} {algorithm : Algorithm} {schema : CString}
  {s t : Producer} (hschema : InitialMemory schema)
  (hs : ReachableWhen everyCall cond algorithm schema s)
include hschema hs

theorem settled_of_run : Settled everyCall s := by
  obtain ⟨⟨r, hlisted⟩, hrest⟩ := resting_of_run hschema hs
  exact settled_of_resting hschema (reachable_of_when hs) hlisted hrest

/-- Such a step is a move that leaves the process running. -/
theorem callMove_of_callStep (hhalted : s.halted = none) (h : CallStep algorithm s t) :
    ∃ (i : Nat) (thread thread' : Thread) (shared' : Shared) (events : List Event),
      s.threads[i]? = some thread ∧
      CallMove everyCall algorithm thread s.shared thread' shared' events ∧
      t = moved s i thread thread' shared' events := by
  obtain ⟨i, thread, hi, hsteps⟩ := h
  rcases comes_of_stepMany (settled_of_run hschema hs) hhalted hi hsteps with
    ⟨reason, shared', hhalts, -, hread, hwrite⟩ | ⟨thread', shared', events, hmove, ht⟩
  · exact (not_halts_outside hread hwrite hhalts).elim
  · exact ⟨i, thread, thread', shared', events, hi, hmove, ht⟩

theorem work_callStep (hhalted : s.halted = none) (h : CallStep algorithm s t) :
    t.halted = none ∧ t.threads.length = s.threads.length ∧ work t < work s := by
  obtain ⟨i, thread, thread', shared', events, hi, hmove, rfl⟩ :=
    callMove_of_callStep hschema hs hhalted h
  refine ⟨hhalted, by simp [moved], ?_⟩
  have hlower := stepsLeft_of_callMove hmove
  have hsum := sum_map_set (fun thread => stepsLeft thread.pc) hi thread'
  simp only [work, moved, hhalted, Option.isSome_none, Bool.false_eq_true, if_false]
  omega

omit hs in
/-- Whole calls never stop the process. -/
theorem running_of_calls {s : Producer} (hs : ReachableWhen everyCall cond algorithm schema s) :
    s.halted = none := by
  obtain ⟨start, hstart, hrun⟩ := hs
  induction hrun with
  | refl => exact hstart.2.2.2.2.2
  | @tail u v hrun hlast ih =>
    cases hlast with
    | create processDelay hhalted hfresh hpos => exact hhalted
    | run hi hcond hsteps =>
      exact (work_callStep hschema ⟨start, hstart, hrun⟩ ih ⟨_, _, hi, hsteps⟩).1

/-- A worker that can make one effect can make a whole call. -/
theorem callStep_of_step (hhalted : s.halted = none) {i : Nat} {thread : Thread}
    (hi : s.threads[i]? = some thread) (hstep : step algorithm s i = some t) :
    ∃ u, CallStep algorithm s u := by
  have hsettled := settled_of_run hschema hs
  have hrest := hsettled.resting thread (List.mem_of_getElem? hi)
  have hone : stride everyCall thread.pc = 1 → ∃ u, CallStep algorithm s u := by
    intro hstride
    refine ⟨t, i, thread, hi, ?_⟩
    rw [hstride]
    exact stepMany_one hstep
  cases hpc : thread.pc with
  | reading call stage =>
    cases stage with
    | opening =>
      obtain ⟨value, hvalue, hcontent⟩ := hsettled.complete call.file rfl
      have hstride : stride everyCall thread.pc = 2 := by rw [hpc]; rfl
      have hread : stepMany algorithm i 2 s = _ := stepMany_read hhalted hi hpc hvalue hcontent
      exact ⟨_, i, thread, hi, hstride ▸ hread⟩
    | mapping stSize => exact hone (by rw [hpc]; rfl)
  | writing call stage =>
    cases stage with
    | opening text =>
      cases text with
      | none => simp [hpc, AtRest, everyCall] at hrest
      | some text =>
        have hstride : stride everyCall thread.pc = 3 := by rw [hpc]; rfl
        have hwrite : stepMany algorithm i 3 s = _ := stepMany_write hhalted hi hpc
        exact ⟨_, i, thread, hi, hstride ▸ hwrite⟩
    | stretching text => exact hone (by rw [hpc]; rfl)
    | copying text => exact hone (by rw [hpc]; rfl)
  | _ => exact hone (by rw [hpc]; rfl)

end Whole

/-! ## Results -/

/-- Every worker has been rejected, or admitted to a partition and released again, with
all that belongs to it done once and in order; the semaphore is free, and the memory file
is the one the schema makes. -/
structure Done (schema : CString) (t : Producer) : Prop where
  finished : ∀ thread ∈ t.threads, thread.pc = .finished
  paths : ∀ thread ∈ t.threads, trail t.history thread.worker = rejectedPath ∨
    ∃ k, trail t.history thread.worker = admittedPath k
  free : t.shared.semFindSpace = 1
  restored : initMemory schema = some t.shared.memory

theorem done_of_finished {algorithm : Algorithm} {schema : CString} (hschema : InitialMemory schema)
    {t : Producer} (ht : Reachable algorithm schema t)
    (hfinished : ∀ thread ∈ t.threads, thread.pc = .finished) : Done schema t := by
  have hbetween : BetweenSections t := fun thread hthread => by rw [hfinished thread hthread]; rfl
  have hdrained : Drained t := fun thread hthread => by rw [hfinished thread hthread]; rfl
  obtain ⟨frames, hframed, hparse⟩ := initialMemory_frames hschema
  obtain ⟨a, ha⟩ := simulated_of_reachable hframed hparse ht
  constructor
  case finished => exact hfinished
  case paths =>
    intro thread hthread
    have hfollows := (tracked_of_reachable ht).follows thread hthread
    rwa [hfinished thread hthread] at hfollows
  case free =>
    have hsum := (wellFormed_of_reachable ht).exclusive
    have hnone : t.threads.countP (·.pc.isCritical) = 0 :=
      List.countP_eq_zero.mpr fun thread hthread => by simp [hbetween thread hthread]
    omega
  case restored =>
    have hempty := a.partitions_of_no_residents (residents_of_drained ha.refines hdrained)
    have hpartitions : a.partitions = (unoccupied frames).partitions := by
      have hsizes := ha.refines.framed.sizes
      rw [hempty]
      simp only [unoccupied, Abstract.Accounting.Allocator.empty, ← hsizes, List.map_map]
      rfl
    rw [initMemory, initFile_of_parse hparse, ha.refines.idle hbetween, hpartitions]
    rfl

/-- From any reachable state, no schedule lets one of the workers there are make more than
27 steps, some schedule goes on until nobody can move, and where nobody can move the
process has been stopped or is done. -/
theorem workers_drain (algorithm : Algorithm) {schema : CString} (hschema : InitialMemory schema)
    {s : Producer} (hs : Reachable algorithm schema s) :
    (∀ schedule t, follow algorithm schedule s = some t → ∀ i, schedule.count i ≤ 27) ∧
    (∀ n t, Steps (WorkerStep algorithm) s n t → n ≤ 27 * s.threads.length) ∧
    (∃ t, ReflTransGen (WorkerStep algorithm) s t ∧ Stuck (WorkerStep algorithm) t) ∧
    ∀ t, ReflTransGen (WorkerStep algorithm) s t → Stuck (WorkerStep algorithm) t →
      t.halted ≠ none ∨ Done schema t := by
  have hlowers : ∀ u v : Producer, True → WorkerStep algorithm u v → work v < work u :=
    fun _ _ _ => work_workerStep
  have hkeeps : ∀ u v : Producer, True → WorkerStep algorithm u v → True := fun _ _ _ _ => trivial
  refine ⟨fun schedule t hrun i => (count_le_workOf i schedule hrun).trans (workOf_le s i),
    fun n t hsteps => ?_, ?_, fun t hrun hstuck => ?_⟩
  · have hle := (Steps.add_measure_le hkeeps hlowers trivial hsteps).2
    have hwork := work_le s
    omega
  · obtain ⟨t, hrun, -, hstuck⟩ := exists_stuck hkeeps hlowers (work s) s trivial (Nat.le_refl _)
    exact ⟨t, hrun, hstuck⟩
  · by_cases hhalted : t.halted = none
    · have ht := reachable_of_workerSteps hs hrun
      exact .inr (done_of_finished hschema ht
        (finished_of_stuck (wellFormed_of_reachable ht) hhalted hstuck))
    · exact .inl hhalted

theorem workers_drain_twoWorkers :
    (∀ schedule t, follow .firstFit schedule twoWorkers = some t → ∀ i, schedule.count i ≤ 27) ∧
    (∀ n t, Steps (WorkerStep .firstFit) twoWorkers n t → n ≤ 27 * 2) ∧
    (∃ t, ReflTransGen (WorkerStep .firstFit) twoWorkers t ∧ Stuck (WorkerStep .firstFit) t) ∧
    ∀ t, ReflTransGen (WorkerStep .firstFit) twoWorkers t → Stuck (WorkerStep .firstFit) t →
      t.halted ≠ none ∨ Done (schemaOf tenUnits) t :=
  workers_drain .firstFit (initialMemory_schemaOf (by decide))
    (reachable_of_when (reachable_twoWorkers piecewise always .firstFit))

/-- With every call on a file taken whole, every schedule of the workers there are comes
to the same end: after at most 27 steps for every worker there is, with the process alive,
all is done. -/
theorem calls_drain (algorithm : Algorithm) {schema : CString} (hschema : InitialMemory schema)
    {s : Producer} (hs : ReachableWhen everyCall always algorithm schema s) :
    (∀ n t, Steps (CallStep algorithm) s n t → n ≤ 27 * s.threads.length) ∧
    (∃ t, ReflTransGen (CallStep algorithm) s t ∧ Stuck (CallStep algorithm) t) ∧
    ∀ t, ReflTransGen (CallStep algorithm) s t →
      t.halted = none ∧ (Stuck (CallStep algorithm) t → Done schema t) := by
  let alive (t : Producer) : Prop :=
    ReachableWhen everyCall always algorithm schema t ∧ t.halted = none
  have hkeeps : ∀ u v, alive u → CallStep algorithm u v → alive v := by
    rintro u v ⟨hu, hrunning⟩ hstep
    obtain ⟨hrunning', -, -⟩ := work_callStep hschema hu hrunning hstep
    obtain ⟨i, thread, hi, hsteps⟩ := hstep
    exact ⟨hu.tail (.run hi trivial hsteps), hrunning'⟩
  have hlowers : ∀ u v, alive u → CallStep algorithm u v → work v < work u :=
    fun u v hu hstep => (work_callStep hschema hu.1 hu.2 hstep).2.2
  have hs' : alive s := ⟨hs, running_of_calls hschema hs⟩
  refine ⟨fun n t hsteps => ?_, ?_, fun t hrun => ?_⟩
  · have hle := (Steps.add_measure_le hkeeps hlowers hs' hsteps).2
    have hwork := work_le s
    omega
  · obtain ⟨t, hrun, -, hstuck⟩ := exists_stuck hkeeps hlowers (work s) s hs' (Nat.le_refl _)
    exact ⟨t, hrun, hstuck⟩
  · have ht : alive t := by
      induction hrun with
      | refl => exact hs'
      | tail _ hlast ih => exact hkeeps _ _ ih hlast
    refine ⟨ht.2, fun hstuck => ?_⟩
    have hreach := reachable_of_when ht.1
    apply done_of_finished hschema hreach
    intro thread hthread
    by_contra hlive
    obtain ⟨i, mover, u, hi, hstep⟩ :=
      exists_enabled algorithm (wellFormed_of_reachable hreach) ht.2 hthread hlive
    obtain ⟨v, hv⟩ := callStep_of_step hschema ht.1 ht.2 hi hstep
    exact hstuck v hv

theorem calls_drain_twoWorkers :
    (∀ n t, Steps (CallStep .bestFit) twoWorkers n t → n ≤ 27 * 2) ∧
    (∃ t, ReflTransGen (CallStep .bestFit) twoWorkers t ∧ Stuck (CallStep .bestFit) t) ∧
    ∀ t, ReflTransGen (CallStep .bestFit) twoWorkers t →
      t.halted = none ∧ (Stuck (CallStep .bestFit) t → Done (schemaOf tenUnits) t) :=
  calls_drain .bestFit (initialMemory_schemaOf (by decide)) (reachable_twoWorkers everyCall always .bestFit)

end DynamicPartitions.Properties.Draining
