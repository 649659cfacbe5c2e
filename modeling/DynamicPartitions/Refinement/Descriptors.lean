import DynamicPartitions.Lib.Transition
import DynamicPartitions.Program.Shutdown

/-!
# Descriptors while nothing is removed

As long as both files stay where they are, every open descriptor stands for the file
it was opened on, and the workers with descriptors do what the workers without do.
-/
namespace DynamicPartitions.Refinement.Descriptors

open DynamicPartitions.Lib.Naming
open DynamicPartitions.Lib.Transition
open DynamicPartitions.Parson.Value
open DynamicPartitions.Program.Algorithms
open DynamicPartitions.Program.MappedFile
open DynamicPartitions.Program.WorkerThread
open DynamicPartitions.Program.Threads hiding Effect FreshId create Step Starts
open DynamicPartitions.Program.Shutdown

/-! ## The two files in place -/

def inodeOf : FileName → Nat
  | .memory => 0
  | .processesOnWaiting => 1

theorem inodeOf_injective : Function.Injective inodeOf := by
  intro file other h
  cases file <;> cases other <;> first | rfl | cases h

/-- The file whose descriptor the worker holds. -/
def openFile : Pc → Option FileName
  | .reading call (.mapping _) => some call.file
  | .writing call (.stretching _) | .writing call (.copying _) => some call.file
  | _ => none

def Attached (opener : Opener) : Prop :=
  ∀ file, openFile opener.thread.pc = some file → opener.fd = inodeOf file

structure Holds (shared : Shared) (system : System) : Prop where
  linked : ∀ file, system.files.link file = some (inodeOf file)
  content : ∀ file, bytes system.files (inodeOf file) = shared.content file
  semFindSpace : system.semFindSpace = shared.semFindSpace

variable {algorithm : Algorithm} {opener : Opener} {shared : Shared} {system : System}

theorem content_setContent_self (shared : Shared) (content : Content) (file : FileName) :
    (shared.setContent content file).content file = content := by
  cases file <;> rfl

theorem content_setContent_of_ne (shared : Shared) (content : Content) {file other : FileName}
    (h : other ≠ file) : (shared.setContent content file).content other = shared.content other := by
  cases file <;> cases other <;> first | rfl | exact absurd rfl h

theorem Holds.store (h : Holds shared system) (file : FileName) (content : Content) :
    Holds (shared.setContent content file)
      { system with files := system.files.store (inodeOf file) content } := by
  constructor
  · exact h.linked
  · intro other
    have hold := h.content other
    unfold bytes at hold ⊢
    rw [List.getD_eq_getElem?_getD] at hold ⊢
    by_cases hother : other = file
    · have hlt := system.files.linked file _ (h.linked file)
      rw [hother, content_setContent_self, Catalog.objects_store, List.getElem?_set_self hlt]
      rfl
    · have hne : inodeOf other ≠ inodeOf file := fun he => hother (inodeOf_injective he)
      rw [content_setContent_of_ne _ _ hother, Catalog.getElem?_store_of_ne _ hne, hold]
  · rw [h.semFindSpace]
    cases file <;> rfl

theorem Holds.setSem (h : Holds shared system) (value : Nat) :
    Holds { shared with semFindSpace := value } { system with semFindSpace := value } := by
  constructor
  · exact h.linked
  · intro file
    rw [h.content file]
    cases file <;> rfl
  · rfl

theorem openForReading_eq (h : Holds shared system) (hopener : Attached opener) {call : ReadCall}
    {stage : ReadStage} (hpc : opener.thread.pc = .reading call stage) :
    openForReading system.files opener.fd call stage = some (inodeOf call.file) := by
  cases stage with
  | opening => exact h.linked call.file
  | mapping stSize => rw [openForReading, hopener call.file (by rw [hpc, openFile])]

theorem openForWriting_eq (h : Holds shared system) (hopener : Attached opener) {call : WriteCall}
    {stage : WriteStage} (hpc : opener.thread.pc = .writing call stage) :
    openForWriting system.files opener.fd call stage = (inodeOf call.file, system.files) := by
  cases stage with
  | opening serializedString => exact Catalog.acquire_of_linked (h.linked call.file) []
  | stretching text | copying text =>
    rw [openForWriting, hopener call.file (by rw [hpc, openFile])]

theorem openFile_afterRead (thread : Thread) (data : Option CString) (call : ReadCall) :
    openFile (afterRead algorithm thread data call).1.pc = none := by
  cases call with
  | placement =>
    rw [afterRead]
    split <;> rfl
  | registration | removal | devolution memIndex => rfl

theorem openFile_afterWrite (call : WriteCall) : openFile (afterWrite call) = none := by
  cases call <;> rfl

/-! ## One worker -/

/-- The two models answer a step alike. -/
inductive Agrees : Program.Threads.Effect → Effect → Prop
  | halt {reason : Halt} {shared : Shared} {system : System} : Holds shared system →
      Agrees (.halt reason shared) (.halt reason system)
  | run {opener : Opener} {shared : Shared} {system : System} (events : List Event) :
      Holds shared system → Attached opener →
      Agrees (.run opener.thread shared events) (.run opener system)

theorem Agrees.run_detached {thread : Thread} (events : List Event) (hholds : Holds shared system)
    (hopen : openFile thread.pc = none) (fd : Nat) :
    Agrees (.run thread shared events) (.run ⟨thread, fd⟩ system) := by
  show Agrees (.run (Opener.mk thread fd).thread shared events) _
  apply Agrees.run events hholds
  intro file hfile
  rw [hopen] at hfile
  cases hfile

theorem Agrees.run_attached {thread : Thread} {file : FileName} (hholds : Holds shared system)
    (hopen : openFile thread.pc = none ∨ openFile thread.pc = some file) :
    Agrees (.run thread shared []) (.run ⟨thread, inodeOf file⟩ system) := by
  show Agrees (.run (Opener.mk thread (inodeOf file)).thread shared []) _
  apply Agrees.run [] hholds
  intro other hother
  rcases hopen with hopen | hopen
  · rw [hopen] at hother
    cases hother
  · rw [hopen] at hother
    obtain rfl := Option.some.inj hother
    rfl

theorem agrees_reading (h : Holds shared system) (hopener : Attached opener) {call : ReadCall}
    {stage : ReadStage} (hpc : opener.thread.pc = .reading call stage) {effect : Effect}
    (hstep : workerStep algorithm opener system = some effect) :
    ∃ effect', threadStep algorithm opener.thread shared = some effect' ∧ Agrees effect' effect := by
  simp only [workerStep, hpc, openForReading_eq h hopener hpc, h.content] at hstep
  simp only [threadStep, hpc]
  cases hread : readStep (shared.content call.file) stage with
  | halt reason =>
    rw [hread] at hstep
    obtain rfl := Option.some.inj hstep
    exact ⟨_, rfl, .halt h⟩
  | next after =>
    rw [hread] at hstep
    obtain rfl := Option.some.inj hstep
    refine ⟨_, rfl, Agrees.run_attached h ?_⟩
    cases after with
    | opening => exact .inl rfl
    | mapping stSize => exact .inr rfl
  | done data =>
    rw [hread] at hstep
    obtain rfl := Option.some.inj hstep
    exact ⟨_, rfl, Agrees.run_detached _ h (openFile_afterRead ..) _⟩

theorem agrees_writing (h : Holds shared system) (hopener : Attached opener) {call : WriteCall}
    {stage : WriteStage} (hpc : opener.thread.pc = .writing call stage) {effect : Effect}
    (hstep : workerStep algorithm opener system = some effect) :
    ∃ effect', threadStep algorithm opener.thread shared = some effect' ∧ Agrees effect' effect := by
  simp only [workerStep, hpc, openForWriting_eq h hopener hpc, h.content] at hstep
  simp only [threadStep, hpc]
  rcases hwrite : writeStep (shared.content call.file) stage with ⟨content, progress⟩
  have hholds := h.store call.file content
  rw [hwrite] at hstep
  cases progress with
  | halt reason =>
    obtain rfl := Option.some.inj hstep
    exact ⟨_, rfl, .halt hholds⟩
  | next after =>
    obtain rfl := Option.some.inj hstep
    refine ⟨_, rfl, Agrees.run_attached hholds ?_⟩
    cases after with
    | opening serializedString => exact .inl rfl
    | stretching text | copying text => exact .inr rfl
  | done result =>
    obtain rfl := Option.some.inj hstep
    exact ⟨_, rfl, Agrees.run_detached _ hholds (openFile_afterWrite call) _⟩

theorem agrees_workerStep (h : Holds shared system) (hopener : Attached opener) {effect : Effect}
    (hstep : workerStep algorithm opener system = some effect) :
    ∃ effect', threadStep algorithm opener.thread shared = some effect' ∧ Agrees effect' effect := by
  cases hpc : opener.thread.pc with
  | reading call stage => exact agrees_reading h hopener hpc hstep
  | writing call stage => exact agrees_writing h hopener hpc hstep
  | semWait critical =>
    simp only [workerStep, hpc, h.semFindSpace] at hstep
    simp only [threadStep, hpc]
    cases hvalue : shared.semFindSpace with
    | zero =>
      rw [hvalue] at hstep
      cases hstep
    | succ value =>
      rw [hvalue] at hstep
      obtain rfl := Option.some.inj hstep
      refine ⟨_, rfl, Agrees.run_detached _ (h.setSem value) ?_ _⟩
      cases critical <;> rfl
  | slog outcome =>
    simp only [workerStep, hpc] at hstep
    simp only [threadStep, hpc]
    obtain rfl := Option.some.inj hstep
    exact ⟨_, rfl, Agrees.run_detached _ h rfl _⟩
  | semPost outcome =>
    simp only [workerStep, hpc, h.semFindSpace] at hstep
    simp only [threadStep, hpc]
    obtain rfl := Option.some.inj hstep
    refine ⟨_, rfl, Agrees.run_detached _ (h.setSem _) ?_ _⟩
    cases outcome <;> rfl
  | sleeping memIndex =>
    simp only [workerStep, hpc] at hstep
    simp only [threadStep, hpc]
    obtain rfl := Option.some.inj hstep
    exact ⟨_, rfl, Agrees.run_detached _ h rfl _⟩
  | finished =>
    simp only [workerStep, hpc] at hstep
    cases hstep

/-! ## The process -/

structure Mirrors (s : Producer) (u : Cleanup) : Prop where
  holds : Holds s.shared u.system
  threads : u.openers.map Opener.thread = s.threads
  attached : ∀ opener ∈ u.openers, Attached opener
  ended : u.ended = s.halted.map .halted

variable {s : Producer} {u v : Cleanup}

theorem Mirrors.running (h : Mirrors s u) (hended : u.ended = none) : s.halted = none := by
  have hmap := h.ended
  rw [hended] at hmap
  exact Option.map_eq_none_iff.mp hmap.symm

theorem mirrors_work (h : Mirrors s u) {i : Nat} (hstep : work algorithm u i = some v) :
    ∃ t, Program.Threads.step algorithm s i = some t ∧ Mirrors t v := by
  obtain ⟨hended, -, -, opener, effect, hopener, hworker, hsystem, hafter⟩ := work_cases hstep
  have hmem : opener ∈ u.openers := List.mem_of_getElem? hopener
  have hthread : s.threads[i]? = some opener.thread := by
    rw [← h.threads, List.getElem?_map, hopener]
    rfl
  obtain ⟨effect', hworker', hagrees⟩ := agrees_workerStep h.holds (h.attached opener hmem) hworker
  simp only [Program.Threads.step, h.running hended, hthread, hworker']
  rcases hafter with ⟨reason, rfl, hopeners, hhalted⟩ | ⟨after, rfl, hopeners, hrunning⟩
  · cases hagrees with
    | halt hholds =>
      refine ⟨_, rfl, hholds, ?_, ?_, hhalted⟩
      · rw [hopeners]
        exact h.threads
      · rw [hopeners]
        exact h.attached
  · cases hagrees with
    | run events hholds hattached =>
      refine ⟨_, rfl, hholds, ?_, ?_, ?_⟩
      · rw [hopeners, List.map_set, h.threads]
      · intro other hother
        rw [hopeners] at hother
        rcases List.mem_or_eq_of_mem_set hother with hother | rfl
        · exact h.attached other hother
        · exact hattached
      · exact hrunning

theorem mirrors_create (h : Mirrors s u) {processId : Nat} {processSize processDelay : Int}
    (hstep : create u processId processSize processDelay = some v) :
    ∃ t, Program.Threads.Step algorithm s t ∧ Mirrors t v := by
  obtain ⟨hended, hfresh, hsize, rfl⟩ := create_cases hstep
  have hlength : s.threads.length = u.openers.length := by rw [← h.threads, List.length_map]
  refine ⟨Program.Threads.create s processId processSize processDelay,
    .create processDelay (h.running hended) ?_ hsize, h.holds, ?_, ?_, h.ended⟩
  · intro thread hthread
    rw [← h.threads] at hthread
    obtain ⟨opener, hopener, rfl⟩ := List.mem_map.mp hthread
    exact hfresh opener hopener
  · rw [List.map_append, h.threads, ← hlength]
    rfl
  · intro opener hopener
    rcases List.mem_append.mp hopener with hopener | hopener
    · exact h.attached opener hopener
    · obtain rfl := List.mem_singleton.mp hopener
      exact fun _ hfile => nomatch hfile

/-- Killer has removed nothing and the handler has not run. -/
def Untouched (u : Cleanup) : Prop :=
  (∀ file, u.killer.hasRemoved file = false) ∧ u.ended ≠ some .quit

/-- Of Killer's steps only the first one leaves the files alone. -/
theorem killProducer_untouched (hstep : killProducer u = some v) (hv : Untouched v) :
    u.killer = .sendingSignal ∧
      v = { u with signalled := u.ended.isNone, killer := .deletingMemory } := by
  rcases killProducer_cases hstep with hfirst | ⟨-, rfl⟩ | ⟨-, rfl⟩
  · exact hfirst
  · exact nomatch hv.1 .memory
  · exact nomatch hv.1 .memory

theorem untouched_of_step {label : Label} (hstep : Step algorithm u label v) (hv : Untouched v) :
    Untouched u := by
  cases label with
  | main processId processSize processDelay =>
    obtain ⟨-, -, -, rfl⟩ := create_cases hstep
    exact hv
  | worker i =>
    obtain ⟨hended, -, hkiller, -⟩ := work_cases hstep
    constructor
    · rw [← hkiller]
      exact hv.1
    · rw [hended]
      exact nofun
  | handler =>
    obtain rfl := handle_cases hstep
    exact absurd rfl hv.2
  | killer =>
    obtain ⟨hstage, rfl⟩ := killProducer_untouched hstep hv
    constructor
    · intro file
      rw [hstage]
      rfl
    · exact hv.2

theorem mirrors_step {label : Label} (h : Mirrors s u) (hstep : Step algorithm u label v)
    (hv : Untouched v) :
    ∃ t, Relation.ReflTransGen (Program.Threads.Step algorithm) s t ∧ Mirrors t v := by
  cases label with
  | main processId processSize processDelay =>
    obtain ⟨t, hcreate, ht⟩ := mirrors_create h hstep
    exact ⟨t, .single hcreate, ht⟩
  | worker i =>
    obtain ⟨t, hwork, ht⟩ := mirrors_work h hstep
    exact ⟨t, .single (.run hwork), ht⟩
  | handler =>
    obtain rfl := handle_cases hstep
    exact absurd rfl hv.2
  | killer =>
    obtain ⟨-, rfl⟩ := killProducer_untouched hstep hv
    exact ⟨s, .refl, h.holds, h.threads, h.attached, h.ended⟩

/-- Up to Killer's first `remove`, and unless the handler has run, a run of both programs
is a run of Producer alone. -/
theorem mirrors_run {entries : List (Cleanup × Label)} (h : Mirrors s u)
    (hrun : Run (Step algorithm) u entries v) (hv : Untouched v) :
    ∃ t, Relation.ReflTransGen (Program.Threads.Step algorithm) s t ∧ Mirrors t v := by
  induction hrun with
  | nil => exact ⟨s, .refl, h⟩
  | snoc _ hlast ih =>
    obtain ⟨t, hbefore, ht⟩ := ih (untouched_of_step hlast hv)
    obtain ⟨t', hafter, ht'⟩ := mirrors_step ht hlast hv
    exact ⟨t', hbefore.trans hafter, ht'⟩

/-! ## Killer comes to a Producer at work -/

/-- The workers of a Producer on the files it has, when Killer is about to send its signal. -/
def approach (s : Producer) : Cleanup where
  system :=
    { files :=
        { link := fun file => some (inodeOf file)
          objects := [s.shared.memory, s.shared.processesOnWaiting]
          linked := fun file index h => by
            obtain rfl := Option.some.inj h
            cases file <;> simp [inodeOf] }
      semFindSpace := s.shared.semFindSpace }
  openers := s.threads.map fun thread => ⟨thread, ((openFile thread.pc).map inodeOf).getD 0⟩
  ended := s.halted.map .halted
  signalled := false
  killer := .sendingSignal

theorem starts_approach (h : s.halted = none) : Starts (approach s) := by
  constructor
  · rfl
  · rfl
  · exact Option.map_eq_none_iff.mpr h

theorem mirrors_approach (s : Producer) : Mirrors s (approach s) := by
  constructor
  · constructor
    · exact fun _ => rfl
    · intro file
      cases file <;> rfl
    · rfl
  · rw [approach, List.map_map]
    exact List.map_id s.threads
  · intro opener hopener file hfile
    obtain ⟨thread, -, rfl⟩ := List.mem_map.mp hopener
    change ((openFile thread.pc).map inodeOf).getD 0 = inodeOf file
    rw [hfile]
    rfl
  · rfl

/-- Killer comes to a reachable Producer: until it removes a file or the handler runs, both
programs together show nothing but reachable Producers. -/
theorem reachable_before_removal {schema : CString} (hs : Reachable algorithm schema s)
    {entries : List (Cleanup × Label)} (hrun : Run (Step algorithm) (approach s) entries v)
    (hv : Untouched v) : ∃ t, Reachable algorithm schema t ∧ Mirrors t v := by
  obtain ⟨start, hstart, hbefore⟩ := hs
  obtain ⟨t, hafter, ht⟩ := mirrors_run (mirrors_approach s) hrun hv
  exact ⟨t, ⟨start, hstart, hbefore.trans hafter⟩, ht⟩

end DynamicPartitions.Refinement.Descriptors
