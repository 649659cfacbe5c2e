import DynamicPartitions.Lib.Naming
import DynamicPartitions.Program.Threads

/-!
# Producer while Killer cleans up

The workers of Producer on files that are removed under them, and Killer from its
`kill` on. A call works on the inode its `open` returned: a read of a missing file
ends the process, a write creates it. Killer waits for nobody, and the handler of
its signal runs at some later time.
-/
namespace DynamicPartitions.Program.Shutdown

open DynamicPartitions.Lib.Naming
open DynamicPartitions.Program.Algorithms
open DynamicPartitions.Program.MappedFile
open DynamicPartitions.Program.WorkerThread
open DynamicPartitions.Program.Threads

/-- The inodes with their bytes, under the two paths. -/
abbrev Files := Catalog FileName Content

def bytes (files : Files) (inode : Nat) : Content := files.objects.getD inode []

/-- A worker and the inode its call has open; between calls `fd` is stale. -/
structure Opener where
  thread : Thread
  fd : Nat

/-- What the workers share. -/
structure System where
  files : Files
  semFindSpace : Nat

/-! ## One worker -/

/-- `open` with `O_RDONLY` where a read begins. -/
def openForReading (files : Files) (fd : Nat) (call : ReadCall) : ReadStage → Option Nat
  | .opening => files.link call.file
  | .mapping _ => some fd

/-- `open` with `O_RDWR | O_CREAT | O_TRUNC` where a write begins. -/
def openForWriting (files : Files) (fd : Nat) (call : WriteCall) : WriteStage → Nat × Files
  | .opening _ => files.acquire call.file []
  | .stretching _ | .copying _ => (fd, files)

inductive Effect where
  | halt (reason : Halt) (system : System)
  | run (opener : Opener) (system : System)

def Effect.system : Effect → System
  | .halt _ system | .run _ system => system

/-- One step of one worker, if it is not blocked or finished. -/
def workerStep (algorithm : Algorithm) (opener : Opener) (system : System) : Option Effect :=
  let thread := opener.thread
  match thread.pc with
  | .reading call stage =>
    match openForReading system.files opener.fd call stage with
    -- the file is missing
    | none => some (.halt .exit system)
    | some fd =>
      match readStep (bytes system.files fd) stage with
      | .halt reason => some (.halt reason system)
      | .next stage => some (.run ⟨thread.at (.reading call stage), fd⟩ system)
      | .done data => some (.run ⟨(afterRead algorithm thread data call).1, fd⟩ system)
  | .writing call stage =>
    let (fd, files) := openForWriting system.files opener.fd call stage
    match writeStep (bytes files fd) stage with
    | (content, .halt reason) => some (.halt reason { system with files := files.store fd content })
    | (content, .next stage) =>
      some (.run ⟨thread.at (.writing call stage), fd⟩
        { system with files := files.store fd content })
    | (content, .done ()) =>
      some (.run ⟨thread.at (afterWrite call), fd⟩ { system with files := files.store fd content })
  | .semWait critical =>
    match system.semFindSpace with
    | 0 => none
    | value + 1 =>
      some (.run ⟨thread.at (afterWait critical), opener.fd⟩ { system with semFindSpace := value })
  | .slog outcome => some (.run ⟨thread.at (.semPost outcome), opener.fd⟩ system)
  | .semPost outcome =>
    some (.run ⟨thread.at (afterPost outcome), opener.fd⟩
      { system with semFindSpace := system.semFindSpace + 1 })
  | .sleeping memIndex =>
    some (.run ⟨thread.at (.semWait (.devolution memIndex)), opener.fd⟩ system)
  | .finished => none

/-! ## Both programs -/

/-- What `kill_producer` does next, once a k has been typed. -/
inductive KillerStage where
  | sendingSignal
  | deletingMemory
  | deletingProcessesOnWaiting
  | exited
deriving DecidableEq, Repr

/-- A worker stopped the process, or `SIGQUIT_handler` left it with `exit(3)`. -/
inductive Ending where
  | halted (reason : Halt)
  | quit
deriving DecidableEq, Repr

structure Cleanup where
  system : System
  openers : List Opener
  ended : Option Ending
  /-- SIGQUIT is in flight. -/
  signalled : Bool
  killer : KillerStage

/-- `openers[i]` takes a step. -/
def work (algorithm : Algorithm) (s : Cleanup) (i : Nat) : Option Cleanup :=
  match s.ended, s.openers[i]? with
  | none, some opener =>
    match workerStep algorithm opener s.system with
    | none => none
    | some (.halt reason system) => some { s with system, ended := some (.halted reason) }
    | some (.run opener system) => some { s with system, openers := s.openers.set i opener }
  | _, _ => none

/-- The system reuses the id of a thread only once that thread is gone. -/
def FreshId (s : Cleanup) (processId : Nat) : Prop :=
  ∀ opener ∈ s.openers, opener.thread.pc ≠ .finished → opener.thread.worker.processId ≠ processId

instance (s : Cleanup) (processId : Nat) : Decidable (FreshId s processId) :=
  inferInstanceAs (Decidable (∀ opener ∈ s.openers, _ → _))

/-- `main` creates a thread. -/
def create (s : Cleanup) (processId : Nat) (processSize processDelay : Int) : Option Cleanup :=
  if s.ended = none ∧ FreshId s processId ∧ 0 < processSize then
    some { s with openers := s.openers ++
      [⟨Thread.start ⟨s.openers.length, processId, processSize, processDelay⟩, 0⟩] }
  else none

/-- `SIGQUIT_handler`, some time after the signal was sent. -/
def handle (s : Cleanup) : Option Cleanup :=
  if s.signalled ∧ s.ended = none then some { s with signalled := false, ended := some .quit }
  else none

/-- `remove`: a missing file is only reported. -/
def delete (s : Cleanup) (file : FileName) (killer : KillerStage) : Cleanup :=
  { s with system := { s.system with files := s.system.files.remove file }, killer }

/-- `kill`, `delete_memory`, `delete_processes_on_waiting`, `exit(0)`. -/
def killProducer (s : Cleanup) : Option Cleanup :=
  match s.killer with
  | .sendingSignal => some { s with signalled := s.ended.isNone, killer := .deletingMemory }
  | .deletingMemory => some (delete s .memory .deletingProcessesOnWaiting)
  | .deletingProcessesOnWaiting => some (delete s .processesOnWaiting .exited)
  | .exited => none

/-- Who takes the step. -/
inductive Label where
  | main (processId : Nat) (processSize processDelay : Int)
  | worker (i : Nat)
  | handler
  | killer
deriving DecidableEq, Repr

def next (algorithm : Algorithm) (s : Cleanup) : Label → Option Cleanup
  | .main processId processSize processDelay => create s processId processSize processDelay
  | .worker i => work algorithm s i
  | .handler => handle s
  | .killer => killProducer s

def Step (algorithm : Algorithm) (s : Cleanup) (label : Label) (t : Cleanup) : Prop :=
  next algorithm s label = some t

/-- Producer runs, its workers anywhere, and Killer is about to send the signal. -/
structure Starts (s : Cleanup) : Prop where
  killer : s.killer = .sendingSignal
  signalled : s.signalled = false
  running : s.ended = none

/-- Killer has finished and Producer has ended. -/
structure Finished (s : Cleanup) : Prop where
  killer : s.killer = .exited
  ended : s.ended.isSome

/-! ## Where they stand -/

def KillerStage.hasRemoved : KillerStage → FileName → Bool
  | .sendingSignal, _ | .deletingMemory, _ => false
  | .deletingProcessesOnWaiting, file => file = .memory
  | .exited, _ => true

/-- The file the step opens for writing. -/
def opensForWriting (s : Cleanup) : Label → Option FileName
  | .worker i => s.openers[i]?.bind fun opener => opener.thread.pc.creates
  | .main .. | .handler | .killer => none

/-! ## What a step does to the files -/

theorem files_workerStep {algorithm : Algorithm} {opener : Opener} {system : System}
    {effect : Effect} (h : workerStep algorithm opener system = some effect) :
    effect.system.files = system.files ∧ opener.thread.pc.creates = none ∨
    ∃ call stage content, opener.thread.pc = .writing call stage ∧
      effect.system.files = (openForWriting system.files opener.fd call stage).2.store
        (openForWriting system.files opener.fd call stage).1 content := by
  cases hpc : opener.thread.pc with
  | writing call stage =>
    right
    simp only [workerStep, hpc] at h
    refine ⟨call, stage, ?_⟩
    generalize openForWriting system.files opener.fd call stage = opened at h ⊢
    refine ⟨(writeStep (bytes opened.2 opened.1) stage).1, rfl, ?_⟩
    split at h <;> (rename_i hwrite; obtain rfl := Option.some.inj h; rw [hwrite]; rfl)
  | reading call stage =>
    left
    refine ⟨?_, rfl⟩
    simp only [workerStep, hpc] at h
    split at h
    · obtain rfl := Option.some.inj h
      rfl
    · split at h <;> (obtain rfl := Option.some.inj h; rfl)
  | semWait critical =>
    left
    refine ⟨?_, rfl⟩
    simp only [workerStep, hpc] at h
    split at h
    · cases h
    · obtain rfl := Option.some.inj h
      rfl
  | slog outcome | semPost outcome | sleeping memIndex =>
    left
    refine ⟨?_, rfl⟩
    simp only [workerStep, hpc] at h
    obtain rfl := Option.some.inj h
    rfl
  | finished =>
    simp only [workerStep, hpc] at h
    cases h

/-- The file a worker opens for writing exists afterwards. -/
theorem linked_of_creates {algorithm : Algorithm} {opener : Opener} {system : System}
    {effect : Effect} (h : workerStep algorithm opener system = some effect) {file : FileName}
    (hcreates : opener.thread.pc.creates = some file) : effect.system.files.link file ≠ none := by
  rcases files_workerStep h with ⟨-, hnone⟩ | ⟨call, stage, content, hpc, hfiles⟩
  · rw [hcreates] at hnone
    cases hnone
  · rw [hpc] at hcreates
    cases stage with
    | opening serializedString =>
      obtain rfl := Option.some.inj hcreates
      have hself := Catalog.link_acquire_self system.files call.file []
      rw [hfiles, Catalog.link_store, openForWriting, hself]
      exact Option.some_ne_none _
    | stretching text | copying text => cases hcreates

/-- No other file comes or goes. -/
theorem link_of_not_creates {algorithm : Algorithm} {opener : Opener} {system : System}
    {effect : Effect} (h : workerStep algorithm opener system = some effect) {file : FileName}
    (hcreates : opener.thread.pc.creates ≠ some file) :
    effect.system.files.link file = system.files.link file := by
  rcases files_workerStep h with ⟨hsame, -⟩ | ⟨call, stage, content, hpc, hfiles⟩
  · rw [hsame]
  · rw [hfiles, Catalog.link_store]
    cases stage with
    | opening serializedString =>
      apply Catalog.link_acquire_of_ne
      intro heq
      apply hcreates
      rw [hpc, heq, Pc.creates]
    | stretching text | copying text => rfl

/-- What a worker's step does to the process. -/
theorem work_cases {algorithm : Algorithm} {s t : Cleanup} {i : Nat}
    (h : work algorithm s i = some t) :
    s.ended = none ∧ t.signalled = s.signalled ∧ t.killer = s.killer ∧
      ∃ opener effect, s.openers[i]? = some opener ∧
        workerStep algorithm opener s.system = some effect ∧ t.system = effect.system ∧
        ((∃ reason, effect = .halt reason t.system ∧ t.openers = s.openers ∧
            t.ended = some (.halted reason)) ∨
          ∃ after, effect = .run after t.system ∧ t.openers = s.openers.set i after ∧
            t.ended = none) := by
  unfold work at h
  split at h
  · rename_i opener hended hopener
    split at h
    · cases h
    · rename_i reason system hstep
      obtain rfl := Option.some.inj h
      exact ⟨hended, rfl, rfl, opener, _, hopener, hstep, rfl, .inl ⟨reason, rfl, rfl, rfl⟩⟩
    · rename_i after system hstep
      obtain rfl := Option.some.inj h
      exact ⟨hended, rfl, rfl, opener, _, hopener, hstep, rfl, .inr ⟨after, rfl, rfl, hended⟩⟩
  · cases h

theorem create_cases {s t : Cleanup} {processId : Nat} {processSize processDelay : Int}
    (h : create s processId processSize processDelay = some t) :
    s.ended = none ∧ FreshId s processId ∧ 0 < processSize ∧
      t = { s with openers := s.openers ++
        [⟨Thread.start ⟨s.openers.length, processId, processSize, processDelay⟩, 0⟩] } := by
  unfold create at h
  split at h
  · rename_i hguard
    exact ⟨hguard.1, hguard.2.1, hguard.2.2, (Option.some.inj h).symm⟩
  · cases h

theorem handle_cases {s t : Cleanup} (h : handle s = some t) :
    t = { s with signalled := false, ended := some .quit } := by
  unfold handle at h
  split at h
  · exact (Option.some.inj h).symm
  · cases h

theorem killProducer_cases {s t : Cleanup} (h : killProducer s = some t) :
    s.killer = .sendingSignal ∧
        t = { s with signalled := s.ended.isNone, killer := .deletingMemory } ∨
      s.killer = .deletingMemory ∧ t = delete s .memory .deletingProcessesOnWaiting ∨
      s.killer = .deletingProcessesOnWaiting ∧ t = delete s .processesOnWaiting .exited := by
  unfold killProducer at h
  split at h
  · exact .inl ⟨‹_›, (Option.some.inj h).symm⟩
  · exact .inr (.inl ⟨‹_›, (Option.some.inj h).symm⟩)
  · exact .inr (.inr ⟨‹_›, (Option.some.inj h).symm⟩)
  · cases h

end DynamicPartitions.Program.Shutdown
