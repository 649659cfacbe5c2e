import DynamicPartitions.Lib.Transition
import DynamicPartitions.Properties.Enlistment
import DynamicPartitions.Refinement.Descriptors

/-!
# When Killer's cleanup is final

Killer does not wait for the workers it has signalled. A file it has removed exists
again exactly when a worker has opened it for writing since; nobody removes it then.
-/
namespace DynamicPartitions.Properties.Removal

open DynamicPartitions.Lib.Naming
open DynamicPartitions.Lib.Transition
open DynamicPartitions.Parson.Value
open DynamicPartitions.Program.Algorithms
open DynamicPartitions.Program.MappedFile
open DynamicPartitions.Program.Threads hiding Effect FreshId create Step Starts
open DynamicPartitions.Program.Shutdown
open DynamicPartitions.Refinement.Descriptors
open DynamicPartitions.Properties.Enlistment

variable {algorithm : Algorithm} {s t : Cleanup} {label : Label}
  {entries : List (Cleanup × Label)} {file : FileName}

/-- If the step opens the file for writing, Killer has not removed it yet. -/
def Timely (file : FileName) (entry : Cleanup × Label) : Prop :=
  opensForWriting entry.1 entry.2 = some file → entry.1.killer.hasRemoved file = false

/-! ## One step and one file -/

/-- The step leaves to Killer what it had removed, and creates the file if it opens it. -/
structure Keeps (s : Cleanup) (label : Label) (t : Cleanup) (file : FileName) : Prop where
  removed : t.killer.hasRemoved file = s.killer.hasRemoved file
  created : opensForWriting s label = some file → t.system.files.link file ≠ none
  same : opensForWriting s label ≠ some file →
    t.system.files.link file = s.system.files.link file

/-- The step removes the file. -/
structure Removes (s : Cleanup) (label : Label) (t : Cleanup) (file : FileName) : Prop where
  before : s.killer.hasRemoved file = false
  after : t.killer.hasRemoved file = true
  absent : t.system.files.link file = none
  opensNone : opensForWriting s label = none

theorem keeps_work {i : Nat} (h : work algorithm s i = some t) (file : FileName) :
    Keeps s (.worker i) t file := by
  obtain ⟨-, -, hkiller, opener, effect, hopener, hstep, hsystem, -⟩ := work_cases h
  have hopens : opensForWriting s (.worker i) = opener.thread.pc.creates := by
    rw [opensForWriting, hopener, Option.bind_some]
  constructor
  · rw [hkiller]
  · intro hcreates
    rw [hsystem]
    exact linked_of_creates hstep (hopens ▸ hcreates)
  · intro hcreates
    rw [hsystem]
    exact link_of_not_creates hstep (hopens ▸ hcreates)

/-- A step that opens nothing for writing and leaves Killer's progress and the file alone. -/
theorem Keeps.of_same (hopens : opensForWriting s label = none)
    (hremoved : t.killer.hasRemoved file = s.killer.hasRemoved file)
    (hlink : t.system.files.link file = s.system.files.link file) : Keeps s label t file := by
  constructor
  · exact hremoved
  · intro hcreates
    rw [hopens] at hcreates
    cases hcreates
  · exact fun _ => hlink

theorem removes_or_keeps_killProducer (h : killProducer s = some t) (file : FileName) :
    Keeps s .killer t file ∨ Removes s .killer t file := by
  rcases killProducer_cases h with ⟨hstage, rfl⟩ | ⟨hstage, rfl⟩ | ⟨hstage, rfl⟩
  · left
    apply Keeps.of_same rfl
    · rw [hstage]
      rfl
    · rfl
  · cases file with
    | memory =>
      right
      exact ⟨by rw [hstage]; rfl, rfl, Catalog.link_remove_self .., rfl⟩
    | processesOnWaiting =>
      left
      apply Keeps.of_same rfl
      · rw [hstage]
        rfl
      · exact Catalog.link_remove_of_ne _ (by decide)
  · cases file with
    | memory =>
      left
      apply Keeps.of_same rfl
      · rw [hstage]
        rfl
      · exact Catalog.link_remove_of_ne _ (by decide)
    | processesOnWaiting =>
      right
      exact ⟨by rw [hstage]; rfl, rfl, Catalog.link_remove_self .., rfl⟩

theorem removes_or_keeps (h : Step algorithm s label t) (file : FileName) :
    Keeps s label t file ∨ Removes s label t file := by
  cases label with
  | main processId processSize processDelay =>
    obtain ⟨-, -, -, rfl⟩ := create_cases h
    exact .inl (Keeps.of_same rfl rfl rfl)
  | worker i => exact .inl (keeps_work h file)
  | handler =>
    obtain rfl := handle_cases h
    exact .inl (Keeps.of_same rfl rfl rfl)
  | killer => exact removes_or_keeps_killProducer h file

/-! ## Whole runs -/

/-- While Killer has not removed a file every step was timely; afterwards the file is
absent exactly if every step was. -/
theorem absent_iff_timely (hstart : Starts s) (hrun : Run (Step algorithm) s entries t)
    (file : FileName) :
    (t.killer.hasRemoved file = false → ∀ entry ∈ entries, Timely file entry) ∧
    (t.killer.hasRemoved file = true →
      (t.system.files.link file = none ↔ ∀ entry ∈ entries, Timely file entry)) := by
  induction hrun with
  | nil =>
    constructor
    · exact fun _ _ h => nomatch h
    · intro hremoved
      rw [hstart.killer] at hremoved
      cases hremoved
  | @snoc entries t u label _ hlast ih =>
    rw [forall_mem_snoc]
    rcases removes_or_keeps hlast file with hkeeps | hremoves
    · rw [hkeeps.removed]
      constructor
      · exact fun hremoved => ⟨ih.1 hremoved, fun _ => hremoved⟩
      · intro hremoved
        by_cases hopens : opensForWriting t label = some file
        · have hlate : ¬ Timely file (t, label) := by
            intro htimely
            have hbefore := htimely hopens
            rw [hremoved] at hbefore
            cases hbefore
          constructor
          · exact fun habsent => absurd habsent (hkeeps.created hopens)
          · exact fun hall => absurd hall.2 hlate
        · have hlast : Timely file (t, label) := fun h => absurd h hopens
          rw [hkeeps.same hopens, ih.2 hremoved]
          exact (and_iff_left hlast).symm
    · have hlast : Timely file (t, label) := fun _ => hremoves.before
      constructor
      · intro hremoved
        rw [hremoves.after] at hremoved
        cases hremoved
      · exact fun _ => iff_of_true hremoves.absent ⟨ih.1 hremoves.before, hlast⟩

/-- Once Killer has finished and Producer has ended, the files are gone exactly if no
worker opened one for writing after Killer had removed it. -/
theorem cleanup_final_iff (hstart : Starts s) (hrun : Run (Step algorithm) s entries t)
    (hdone : Finished t) :
    (∀ file, t.system.files.link file = none) ↔
      ∀ entry ∈ entries, ∀ file, Timely file entry := by
  have hremoved : ∀ file, t.killer.hasRemoved file = true := by
    intro file
    rw [hdone.killer]
    rfl
  constructor
  · intro habsent entry hentry file
    exact ((absent_iff_timely hstart hrun file).2 (hremoved file)).mp (habsent file) entry hentry
  · intro htimely file
    apply ((absent_iff_timely hstart hrun file).2 (hremoved file)).mpr
    exact fun entry hentry => htimely entry hentry file

/-! ## Killer does not wait -/

/-- Killer has taken all its steps and nobody else a single one. -/
def abandoned (s : Cleanup) : Cleanup :=
  { s with
      system := { s.system with
        files := (s.system.files.remove .memory).remove .processesOnWaiting }
      signalled := true
      killer := .exited }

theorem run_abandoned (algorithm : Algorithm) (hstart : Starts s) :
    ∃ entries, Run (Step algorithm) s entries (abandoned s) ∧
      ∀ entry ∈ entries, entry.2 = .killer := by
  obtain ⟨system, openers, ended, signalled, killer⟩ := s
  obtain ⟨rfl, rfl, rfl⟩ := hstart
  let signalled : Cleanup := ⟨system, openers, none, true, .deletingMemory⟩
  have hsent : Step algorithm ⟨system, openers, none, false, .sendingSignal⟩ .killer signalled := rfl
  have hmemory : Step algorithm signalled .killer
    (delete signalled .memory .deletingProcessesOnWaiting) := rfl
  have hwaiting : Step algorithm (delete signalled .memory .deletingProcessesOnWaiting) .killer
    (abandoned signalled) := rfl
  refine ⟨_, ((Run.nil.snoc hsent).snoc hmemory).snoc hwaiting, ?_⟩
  simp

/-- Where the handler runs right after Killer, both files are gone. -/
theorem cleanup_final_twoWorkers :
    ∃ entries t, Run (Step .firstFit) (approach twoWorkers) entries t ∧ Finished t ∧
      ∀ file, t.system.files.link file = none := by
  have hstart : Starts (approach twoWorkers) := starts_approach rfl
  obtain ⟨entries, hkilled, hentries⟩ := run_abandoned .firstFit hstart
  have hquit : Step .firstFit (abandoned (approach twoWorkers)) .handler
    { abandoned (approach twoWorkers) with signalled := false, ended := some .quit } := rfl
  have hrun := hkilled.snoc hquit
  have hdone : Finished
    { abandoned (approach twoWorkers) with signalled := false, ended := some .quit } := ⟨rfl, rfl⟩
  refine ⟨_, _, hrun, hdone, (cleanup_final_iff hstart hrun hdone).mpr ?_⟩
  rw [forall_mem_snoc]
  constructor
  · intro entry hentry file hopens
    rw [hentries entry hentry] at hopens
    cases hopens
  · exact fun file hopens => nomatch hopens

/-- Wherever a worker is about to write a text, a run exists in which the file it writes
outlives both programs: the worker opens it after Killer has finished. -/
theorem late_opening_survives (algorithm : Algorithm) (hstart : Starts s) {i : Nat}
    {opener : Opener} {call : WriteCall} {text : CString} (hopener : s.openers[i]? = some opener)
    (hpc : opener.thread.pc = .writing call (.opening (some text))) :
    ∃ entries t, Run (Step algorithm) s entries t ∧ Finished t ∧
      t.system.files.link call.file ≠ none := by
  obtain ⟨entries, hkilled, -⟩ := run_abandoned algorithm hstart
  have hworker : ∃ after system, workerStep algorithm opener (abandoned s).system =
      some (.run after system) := by
    simp [workerStep, hpc, writeStep]
  obtain ⟨after, system, hworker⟩ := hworker
  have hcreated : system.files.link call.file ≠ none :=
    linked_of_creates hworker (by rw [hpc, Pc.creates])
  have hwork : Step algorithm (abandoned s) (.worker i)
      { abandoned s with system, openers := s.openers.set i after } := by
    have hrunning : (abandoned s).ended = none := hstart.running
    have hsame : (abandoned s).openers[i]? = some opener := hopener
    simp only [Step, next, work, hrunning, hsame, hworker]
    rfl
  have hquit : Step algorithm { abandoned s with system, openers := s.openers.set i after } .handler
      { abandoned s with
          system
          openers := s.openers.set i after
          signalled := false
          ended := some .quit } := by
    simp [Step, next, handle, abandoned, hstart.running]
  exact ⟨_, _, (hkilled.snoc hwork).snoc hquit, ⟨rfl, rfl⟩, hcreated⟩

/-- A worker reached from Initializer's files registers after Killer has finished. -/
theorem cleanup_undone :
    ¬ ∀ s entries t, Starts s → Run (Step .firstFit) s entries t → Finished t →
      ∀ file, t.system.files.link file = none := by
  intro hclaim
  obtain ⟨s, thread, -, hrunning, hthreads, hpc⟩ := first_registering .firstFit
  have hopener : ∃ fd, (approach s).openers[0]? = some ⟨thread, fd⟩ := by
    simp [approach, hthreads]
  obtain ⟨fd, hopener⟩ := hopener
  have hstart := starts_approach hrunning
  obtain ⟨entries, t, hrun, hdone, hsurvives⟩ :=
    late_opening_survives .firstFit hstart hopener hpc
  exact hsurvives (hclaim _ _ _ hstart hrun hdone _)

end DynamicPartitions.Properties.Removal
