import DynamicPartitions.Program.Trails
import DynamicPartitions.Properties.Conservation

/-!
# The memory file is serializable

The critical sections take effect in the order in which the workers acquired the
semaphore, each as one request served by the allocator, and what a worker read and
decided is what the allocator was at that moment.
-/
namespace DynamicPartitions.Properties.Serializability

open DynamicPartitions.Lib.Transition
open DynamicPartitions.Lib.Update
open DynamicPartitions.Parson.Value
open DynamicPartitions.Parson.Parser
open DynamicPartitions.Program.Algorithms
open DynamicPartitions.Program.WorkerThread
open DynamicPartitions.Program.Threads
open DynamicPartitions.Program.Moves
open DynamicPartitions.Program.Exclusion
open DynamicPartitions.Program.Observation
open DynamicPartitions.Program.Trails
open DynamicPartitions.Refinement.Representation
open DynamicPartitions.Refinement.Memory
open DynamicPartitions.Refinement.Simulation
open DynamicPartitions.Refinement.Runs
open DynamicPartitions.Properties.Conservation

/-- The acquisitions of the semaphore, in order. -/
def acquisitions (history : List (Worker × Event)) : List (Worker × Critical) :=
  history.filterMap fun
    | (worker, .waited critical) => some (worker, critical)
    | _ => none

/-- The critical section a worker is in, as long as it has not taken effect. -/
def openSection (thread : Thread) : Option (Worker × Critical) :=
  match thread.pc with
  | .reading .removal _ | .writing .removal _ | .reading .placement _
  | .writing (.admission _) _ => some (thread.worker, .admission)
  | .reading (.devolution k) _ | .writing (.devolution k) _ => some (thread.worker, .devolution k)
  | _ => none

theorem openSection_of_not_critical (thread : Thread) (h : thread.pc.isCritical = false) :
    openSection thread = none := by
  unfold openSection
  cases hpc : thread.pc with
  | reading call stage => cases call <;> simp [hpc, Pc.isCritical] at h ⊢
  | writing call stage => cases call <;> simp [hpc, Pc.isCritical] at h ⊢
  | _ => rfl

/-- One move opens a section as it acquires the semaphore and closes it as it commits. -/
theorem openSection_move {algorithm : Algorithm} {thread thread' : Thread}
    {shared shared' : Shared} {events : List Event}
    (h : Move algorithm thread shared thread' shared' events) :
    (openSection thread).toList ++ acquisitions (events.map (Prod.mk thread.worker)) =
      commits (events.map (Prod.mk thread.worker)) ++ (openSection thread').toList := by
  cases h with
  | @opened call hpc hsize => cases call <;> simp [openSection, hpc, Thread.at, acquisitions, commits]
  | @loaded call stSize hpc hextent =>
    cases call with
    | placement =>
      simp only [afterRead]
      split <;> simp [openSection, hpc, Thread.at, acquisitions, commits, commit,
        List.filterMap_cons]
    | _ => simp [openSection, hpc, afterRead, Thread.at, acquisitions, commits, commit]
  | @truncated call text hpc => cases call <;> simp [openSection, hpc, Thread.at, acquisitions, commits]
  | @stretched call text hpc => cases call <;> simp [openSection, hpc, Thread.at, acquisitions, commits]
  | @copied call text hpc hfits =>
    cases call <;>
      simp [openSection, hpc, Thread.at, afterWrite, acquisitions, commits, commit]
  | @acquired critical value hpc hvalue =>
    cases critical <;>
      simp [openSection, hpc, Thread.at, afterWait, acquisitions, commits, commit]
  | @logged outcome hpc => simp [openSection, hpc, Thread.at, acquisitions, commits, commit]
  | @released outcome hpc =>
    cases outcome <;>
      simp [openSection, hpc, Thread.at, afterPost, acquisitions, commits, commit]
  | @woken memIndex hpc => simp [openSection, hpc, Thread.at, acquisitions, commits]

/-- The acquisitions are the commits and the section still open, if there is one. -/
def InOrder (s : Producer) : Prop :=
  acquisitions s.history = commits s.history ++ s.threads.filterMap openSection

theorem inOrder_live {algorithm : Algorithm} {s t : Producer} (hwell : WellFormed s)
    (h : InOrder s) (hstep : Live algorithm s t) : InOrder t := by
  unfold InOrder at h ⊢
  cases hstep with
  | @create processId processSize delay hfresh hpos =>
    have hnone : openSection (Thread.start ⟨s.threads.length, processId, processSize, delay⟩) =
      none := rfl
    simpa [create, List.filterMap_cons, hnone] using h
  | @move i thread thread' shared' events hi hmove =>
    have hevents := openSection_move hmove
    have hsplit : acquisitions (s.history ++ events.map (Prod.mk thread.worker)) =
        acquisitions s.history ++ acquisitions (events.map (Prod.mk thread.worker)) :=
      List.filterMap_append
    simp only [moved, hsplit, commits_append, h]
    rcases filterMap_move openSection_of_not_critical hwell hi hmove with
      ⟨hbefore, hafter⟩ | ⟨hout, hout', hsame⟩
    · rw [hbefore, hafter, List.append_assoc, hevents, List.append_assoc]
    · rw [openSection_of_not_critical _ hout, openSection_of_not_critical _ hout'] at hevents
      obtain ⟨hnone, hnone'⟩ : acquisitions (events.map (Prod.mk thread.worker)) = [] ∧
          commits (events.map (Prod.mk thread.worker)) = [] := by
        have hcommits := (outside_move hmove hout hout').2.2.1
        rw [hcommits] at hevents
        exact ⟨by simpa using hevents, hcommits⟩
      rw [hsame, hnone, hnone', List.append_nil, List.append_nil]

theorem inOrder_of_reachable {algorithm : Algorithm} {schema : CString} {s : Producer}
    (h : Reachable algorithm schema s) : InOrder s :=
  reachable_induction
    (fun _ ⟨_, _, _, hthreads, hhistory, _⟩ => by
      rw [InOrder, hthreads, hhistory]
      rfl)
    (fun _ _ _ hwell _ hP hstep => inOrder_live hwell hP hstep) (fun _ _ _ _ _ _ _ _ hP => hP) h

/-! ## Results -/

/-- The state of a Producer as the outcome of a sequential run of its critical sections,
in the order of the acquisitions. -/
structure Serialized (algorithm : Algorithm) (frames : List Frame) (s : Producer) (a : Books) :
    Prop where
  /-- The sections that have taken effect, run one after the other, give the allocator. -/
  sequential : SequentialRun algorithm (unoccupied frames) (commits s.history) a
  /-- They are the acquisitions in their order; at most the last one is still open. -/
  order : ∃ unfinished, acquisitions s.history = commits s.history ++ unfinished ∧
    unfinished.length ≤ 1 ∧ (BetweenSections s → unfinished = [])
  /-- The file holds the partitions of the allocator. -/
  file : Quiet .memory s → memoryContents s = some (memoryValue frames a.partitions)
  /-- Every read of the memory returned, and every decision was taken on, the whole
  state as the sections before it left it. -/
  reads : EachAfter (TruthfulSoFar algorithm frames) s.history
  /-- Every worker has done its writes once each, in the order of the source. -/
  once : ∀ thread ∈ s.threads, Follows (trail s.history thread.worker) thread.pc

theorem length_openSections {s : Producer} (hwell : WellFormed s) :
    (s.threads.filterMap openSection).length ≤ 1 := by
  by_cases hbetween : BetweenSections s
  · have hnil : s.threads.filterMap openSection = [] := List.filterMap_eq_nil_iff.mpr
      fun thread hthread => openSection_of_not_critical thread (hbetween thread hthread)
    rw [hnil]
    exact Nat.zero_le 1
  · simp only [BetweenSections, not_forall, Bool.not_eq_false] at hbetween
    obtain ⟨thread, hthread, hcrit⟩ := hbetween
    obtain ⟨i, hi⟩ := List.mem_iff_getElem?.mp hthread
    rw [filterMap_eq_of_unique hi fun j other hj hne =>
      openSection_of_not_critical other (not_critical_of_other hwell hi hcrit hj hne)]
    cases openSection thread <;> simp

/-- Every run of a Producer is serializable: for an initial memory there is a list of
frames such that in every reachable state the memory file, the reads, the decisions and
the order of the critical sections are those of a sequential run of the allocator. -/
theorem memory_serializable (algorithm : Algorithm) {schema : CString}
    (hschema : InitialMemory schema) :
    ∃ frames : List Frame,
      jsonParseString schema = some (memoryValue frames (unoccupied frames).partitions) ∧
      ∀ s, Reachable algorithm schema s → ∃ a, Serialized algorithm frames s a := by
  obtain ⟨frames, hframed, hparse⟩ := initialMemory_frames hschema
  refine ⟨frames, hparse, fun s hs => ?_⟩
  obtain ⟨a, ha⟩ := simulated_of_reachable hframed hparse hs
  have hwell := wellFormed_of_reachable hs
  refine ⟨a, ha.sequential, ⟨_, inOrder_of_reachable hs, length_openSections hwell, ?_⟩,
    fun hquiet => memoryContents_of_quiet ha.refines hquiet, ha.truthful,
    (tracked_of_reachable hs).follows⟩
  exact fun hbetween => List.filterMap_eq_nil_iff.mpr fun thread hthread =>
    openSection_of_not_critical thread (hbetween thread hthread)

theorem memory_serializable_tenUnits :
    ∃ frames : List Frame,
      jsonParseString (schemaOf tenUnits) =
        some (memoryValue frames (unoccupied frames).partitions) ∧
      ∀ s, Reachable .worstFit (schemaOf tenUnits) s → ∃ a, Serialized .worstFit frames s a :=
  memory_serializable .worstFit (initialMemory_schemaOf (by decide))

end DynamicPartitions.Properties.Serializability
