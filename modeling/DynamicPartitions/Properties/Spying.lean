import DynamicPartitions.Program.Spy
import DynamicPartitions.Properties.Survival
import DynamicPartitions.Refinement.Solo

/-!
# What a call of Spy shows

Spy shows a complete state as long as it opens the file while it is not truncated and
parses it while no worker is in the middle of writing it.
-/
namespace DynamicPartitions.Properties.Spying

open Relation (ReflTransGen)
open DynamicPartitions.Lib.Update
open DynamicPartitions.Parson.Value
open DynamicPartitions.Parson.Acceptance
open DynamicPartitions.Abstract.Rosters
open DynamicPartitions.Program.Algorithms
open DynamicPartitions.Program.MappedFile
open DynamicPartitions.Program.WorkerThread
open DynamicPartitions.Program.Threads
open DynamicPartitions.Program.Calls
open DynamicPartitions.Program.Spy
open DynamicPartitions.Refinement.Representation
open DynamicPartitions.Refinement.Memory
open DynamicPartitions.Refinement.Simulation
open DynamicPartitions.Refinement.Runs
open DynamicPartitions.Refinement.WaitingList
open DynamicPartitions.Refinement.Solo
open DynamicPartitions.Properties.Conservation
open DynamicPartitions.Properties.Enlistment
open DynamicPartitions.Properties.Survival

/-- The memory is protected from the workers; the waiting list needs undisturbed ones. -/
def workersFor : FileName → Producer → Thread → Prop
  | .memory => always
  | .processesOnWaiting => Undisturbed

/-- Spy opens the file while it is not truncated, parses it while no worker is in the
middle of writing it, and has mapped as much of it as it parses. -/
def SpyUndisturbed (file : FileName) (s : Producer) : ReadStage → Prop
  | .opening => ∀ thread ∈ s.threads, thread.pc.hasTruncated file = false
  | .mapping stSize => Quiet file s ∧ parseExtent (cString (s.shared.content file)) ≤ pageUp stSize

/-- The call has not brought Spy down, and a text it has returned shows a complete value
that the file held during the call. -/
structure ShowsComplete (scene : Scene) : Prop where
  stays : ∀ reason, scene.spy ≠ .gone reason
  shows : ∀ data, scene.spy = .returned data →
    ∃ value, Canonical value ∧ data = some (pretty value) ∧ stored (compact value) ∈ scene.held

/-- A writer of the memory that has not just truncated it has stretched it. -/
theorem memory_not_empty {algorithm : Algorithm} {frames : List Frame} {s : Producer} {a : Books}
    (h : Refines algorithm frames s a) {thread : Thread} (hthread : thread ∈ s.threads)
    (hwriting : thread.pc.isWriting .memory = true)
    (hwhole : thread.pc.hasTruncated .memory = false) :
    (s.shared.content .memory).length ≠ 0 := by
  have hview := h.view thread hthread
  cases hpc : thread.pc with
  | writing call stage =>
    cases stage with
    | opening text => simp [hpc, Pc.isWriting] at hwriting
    | stretching text =>
      simp only [hpc, Pc.isWriting, Pc.hasTruncated] at hwriting hwhole
      simp [hwriting] at hwhole
    | copying text =>
      have hzeros : s.shared.memory = zeros text := by
        cases call with
        | admission k =>
          simp only [View, Pending, hpc, Pc.isCritical, forall_const] at hview
          exact hview.2.1.trans (congrArg zeros hview.2.2.symm)
        | devolution k =>
          simp only [View, Pending, hpc, Pc.isCritical, forall_const] at hview
          exact hview.1.trans (congrArg zeros hview.2.symm)
        | _ => simp [hpc, Pc.isWriting, WriteCall.file] at hwriting
      rw [Shared.content, hzeros, zeros, List.length_replicate]
      omega
  | _ => simp [hpc, Pc.isWriting] at hwriting

section File

variable {algorithm : Algorithm} {schema : CString} (hschema : InitialMemory schema)
  {file : FileName} {s : Producer}
  (hs : ReachableWhen piecewise (workersFor file) algorithm schema s)
include hschema hs

theorem complete_of_quiet (hquiet : Quiet file s) :
    ∃ value, Canonical value ∧ s.shared.content file = stored (compact value) := by
  cases file with
  | memory =>
    obtain ⟨frames, hframed, hparse⟩ := initialMemory_frames hschema
    obtain ⟨a, ha⟩ := simulated_of_reachable hframed hparse (reachable_of_when hs)
    exact ⟨_, canonical_memoryValue a ha.refines.framed, memory_of_quiet ha.refines hquiet⟩
  | processesOnWaiting =>
    obtain ⟨r, hr⟩ := (intact_of_undisturbed hschema hs).1.idle hquiet
    exact ⟨_, canonical_waitingValue r, hr⟩

/-- Nor is it empty, except between a truncation and the stretching that follows. -/
theorem not_empty (hwhole : ∀ thread ∈ s.threads, thread.pc.hasTruncated file = false) :
    (s.shared.content file).length ≠ 0 := by
  cases file with
  | processesOnWaiting => exact not_empty_of_intact (intact_of_undisturbed hschema hs).1 hwhole
  | memory =>
    by_cases hquiet : Quiet .memory s
    · obtain ⟨value, -, hcontent⟩ := complete_of_quiet hschema hs hquiet
      rw [hcontent]
      exact stored_ne_nil _
    · simp only [Quiet, not_forall, Bool.not_eq_false] at hquiet
      obtain ⟨thread, hthread, hwriting⟩ := hquiet
      obtain ⟨frames, hframed, hparse⟩ := initialMemory_frames hschema
      obtain ⟨a, ha⟩ := simulated_of_reachable hframed hparse (reachable_of_when hs)
      exact memory_not_empty ha.refines hthread hwriting (hwhole thread hthread)

theorem showsComplete_opening {held : List Content}
    (hwhole : ∀ thread ∈ s.threads, thread.pc.hasTruncated file = false) :
    ShowsComplete ⟨s, spyAfter (readStep (s.shared.content file) .opening), held⟩ := by
  have hsize := not_empty hschema hs hwhole
  simp only [readStep, if_neg hsize, spyAfter]
  constructor
  · simp
  · simp

theorem showsComplete_mapping {held : List Content} {stSize : Nat} (hquiet : Quiet file s)
    (hmapped : parseExtent (cString (s.shared.content file)) ≤ pageUp stSize)
    (hheld : s.shared.content file ∈ held) :
    ShowsComplete ⟨s, spyAfter (readStep (s.shared.content file) (.mapping stSize)), held⟩ := by
  obtain ⟨value, hvalue, hcontent⟩ := complete_of_quiet hschema hs hquiet
  rw [hcontent, cString_stored_compact] at hmapped
  have hread : readStep (s.shared.content file) (.mapping stSize) = .done (some (pretty value)) := by
    rw [hcontent]
    exact readStep_mapping hvalue hmapped
  rw [hread, spyAfter]
  constructor
  · simp
  · intro data hdata
    obtain rfl := SpyPc.returned.inj hdata
    exact ⟨value, hvalue, rfl, hcontent ▸ hheld⟩

end File

/-- While Spy is not disturbed it shows complete states, of either file, of any number of
workers. -/
theorem spy_complete (algorithm : Algorithm) {schema : CString} (hschema : InitialMemory schema)
    (file : FileName) {scene : Scene}
    (h : SceneReachable (workersFor file) (SpyUndisturbed file) algorithm schema file scene) :
    ShowsComplete scene := by
  obtain ⟨s, hs, hrun⟩ := h
  suffices hinv : ReachableWhen piecewise (workersFor file) algorithm schema scene.producer ∧
      scene.producer.shared.content file ∈ scene.held ∧ ShowsComplete scene from hinv.2.2
  induction hrun with
  | refl =>
    refine ⟨hs, List.mem_singleton.mpr rfl, ?_⟩
    constructor
    · simp
    · simp
  | @tail scene' scene _ hlast ih =>
    obtain ⟨hreach, hheld, hshows⟩ := ih
    cases hlast with
    | @producer t hstep =>
      refine ⟨hreach.tail hstep, List.mem_append_right _ (List.mem_singleton.mpr rfl),
        hshows.stays, fun data hdata => ?_⟩
      obtain ⟨value, hvalue, htext, hmem⟩ := hshows.shows data hdata
      exact ⟨value, hvalue, htext, List.mem_append_left _ hmem⟩
    | @spy stage hreading hcond =>
      refine ⟨hreach, hheld, ?_⟩
      cases stage with
      | opening => exact showsComplete_opening hschema hreach hcond
      | mapping stSize => exact showsComplete_mapping hschema hreach hcond.1 hcond.2 hheld

/-- The Producer goes on in the middle of a call of Spy. -/
theorem scene_of_run {cond : Producer → Thread → Prop} (spyCond : Producer → ReadStage → Prop)
    {algorithm : Algorithm} (file : FileName) {s t : Producer}
    (hrun : ReflTransGen (StepWhen piecewise cond algorithm) s t) (spy : SpyPc)
    (held : List Content) :
    ∃ later, ReflTransGen (SceneStep cond spyCond algorithm file) ⟨s, spy, held⟩
      ⟨t, spy, held ++ later⟩ := by
  induction hrun with
  | refl => exact ⟨[], by rw [List.append_nil]⟩
  | @tail u t _ hlast ih =>
    obtain ⟨later, hscene⟩ := ih
    refine ⟨later ++ [t.shared.content file], hscene.tail ?_⟩
    rw [← List.append_assoc]
    exact .producer hlast

/-- Spy opens the empty waiting list. A worker writes itself into it, another one reads
it, and then Spy parses it. -/
theorem reachable_shown : ∃ scene later,
    SceneReachable (workersFor .processesOnWaiting) (SpyUndisturbed .processesOnWaiting) .firstFit
      (schemaOf tenUnits) .processesOnWaiting scene ∧
    scene.held = waitingFile .empty :: later ∧
    scene.spy = .returned (some (waitingText (Roster.empty.enlist 7))) := by
  obtain ⟨s, first, second, hcalm, -, -, -, -, -, hfile, -⟩ := second_registering
  have hmapped : parseExtent (compact (waitingValue (Roster.empty.enlist 7))) ≤
      pageUp (waitingFile .empty).length := by
    have hextent := parseExtent_le (compact (waitingValue (Roster.empty.enlist 7)))
    have hlength : (compact (waitingValue (Roster.empty.enlist 7))).length < 4096 := by decide
    have hpage := pageSize_le_pageUp (stored_ne_nil (compact (waitingValue .empty)))
    unfold pageSize at hpage
    exact hextent.trans (hlength.trans_le hpage)
  have hopen : SceneStep (workersFor .processesOnWaiting) (SpyUndisturbed .processesOnWaiting) .firstFit
      .processesOnWaiting ⟨twoWorkers, .reading .opening, [waitingFile .empty]⟩ _ :=
    .call rfl (fun thread hthread => hasTruncated_of_not_writing (quiet_twoWorkers thread hthread))
      (readStep_opening (compact (waitingValue .empty)))
  obtain ⟨later, hbetween⟩ := scene_of_run (SpyUndisturbed .processesOnWaiting) .processesOnWaiting
    hcalm.run (.reading (.mapping (waitingFile .empty).length)) [waitingFile .empty]
  have hparse := readStep_mapping (canonical_waitingValue (Roster.empty.enlist 7)) hmapped
  rw [← cString_stored_compact, ← waitingFile, ← hfile] at hmapped
  rw [← waitingFile, ← hfile] at hparse
  have hscene := (ReflTransGen.head hopen hbetween).tail (.call rfl ⟨hcalm.quiet, hmapped⟩ hparse)
  exact ⟨_, later, ⟨twoWorkers, reachable_twoWorkers piecewise Undisturbed .firstFit, hscene⟩, rfl, rfl⟩

theorem spy_complete_changed : ∃ scene later, scene.held = waitingFile .empty :: later ∧
    scene.spy = .returned (some (waitingText (Roster.empty.enlist 7))) ∧ ShowsComplete scene := by
  obtain ⟨scene, later, hscene, hheld, hreturned⟩ := reachable_shown
  exact ⟨scene, later, hheld, hreturned,
    spy_complete .firstFit (initialMemory_schemaOf (by decide)) .processesOnWaiting hscene⟩

/-! ## A truncated memory -/

/-- A worker is about to write its admission. -/
theorem admission_prepared :
    ∃ s thread text, Reachable .firstFit (schemaOf tenUnits) s ∧ s.halted = none ∧
      s.threads[0]? = some thread ∧ thread.pc = .writing (.admission 0) (.opening (some text)) := by
  have hframed : Framed tenUnits (unoccupied tenUnits).partitions := framed_unoccupied (by decide)
  obtain ⟨thread, hworker, hpc, hstruck⟩ :=
    struck_alone (i := 0) (reachable_twoWorkers everyCall always .firstFit) rfl rfl rfl rfl
  have hread := hstruck.read rfl rfl .placement hpc (canonical_memoryValue (unoccupied tenUnits) hframed) rfl
  have hplace : placement .firstFit thread.worker
      (some (pretty (memoryValue tenUnits (unoccupied tenUnits).partitions))) = some 0 := by
    refine (placement_printed .firstFit (unoccupied tenUnits) hframed thread.worker).trans ?_
    rw [hworker]
    decide
  simp only [afterRead, hplace] at hread
  obtain ⟨-, events, hreach⟩ := hread
  exact ⟨_, _, _, reachable_of_when hreach, rfl, getElem?_set_self_of_some rfl _,
    congrArg (fun text => Pc.writing (.admission 0) (.opening text))
      (admission_printed (unoccupied tenUnits) hframed thread.worker 0)⟩

/-- It has just opened the memory. -/
theorem memory_truncated :
    ∃ s, ReachableWhen piecewise always .firstFit (schemaOf tenUnits) s ∧ s.shared.memory = [] := by
  obtain ⟨s, thread, text, hreach, hhalted, hi, hpc⟩ := admission_prepared
  have htruncated := (when_of_reachable hreach).move (i := 0) hhalted hi trivial (by rw [hpc]; rfl)
    (.truncated hpc)
  exact ⟨_, htruncated, rfl⟩

/-- Spy then opens an empty file and takes the exit branch. -/
theorem truncated_memory_opened :
    ¬ ∀ file scene, SceneReachable always whenever .firstFit (schemaOf tenUnits) file scene →
      ShowsComplete scene := by
  intro hclaim
  obtain ⟨s, hs, hempty⟩ := memory_truncated
  have hgone : SceneReachable always whenever .firstFit (schemaOf tenUnits) .memory
      ⟨s, .gone .exit, [s.shared.memory]⟩ := by
    have hopen : readStep (s.shared.content .memory) .opening = .halt .exit := by
      rw [Shared.content, hempty]
      rfl
    have hstep : SceneStep always whenever .firstFit .memory
        ⟨s, .reading .opening, [s.shared.memory]⟩ _ := .call rfl trivial hopen
    exact ⟨s, hs, .single hstep⟩
  exact (hclaim .memory _ hgone).stays .exit rfl

end DynamicPartitions.Properties.Spying
