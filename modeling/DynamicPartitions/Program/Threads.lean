import DynamicPartitions.Program.WorkerThread

/-!
# The workers of one Producer

`worker_thread` as a state machine whose steps are the effects other threads can
come between: the stages of the file calls, `sem_wait`, `sem_post`, the log line
and the sleep. `main` creates a thread at any time. A step that stops the process
stops every worker. The history records who did what, in order; no step reads it.
-/
namespace DynamicPartitions.Program.Threads

open DynamicPartitions.Parson.Value
open DynamicPartitions.Program.Algorithms
open DynamicPartitions.Program.MappedFile
open DynamicPartitions.Program.WorkerThread

/-- `/tmp/mmapped.bin` and `/tmp/mmapped_pro_on_waiting.bin`. -/
inductive FileName where
  | memory
  | processesOnWaiting
deriving DecidableEq, Repr

/-- What the workers share. -/
structure Shared where
  memory : Content
  processesOnWaiting : Content
  semFindSpace : Nat

def Shared.content (shared : Shared) : FileName → Content
  | .memory => shared.memory
  | .processesOnWaiting => shared.processesOnWaiting

def Shared.setContent (shared : Shared) (content : Content) : FileName → Shared
  | .memory => { shared with memory := content }
  | .processesOnWaiting => { shared with processesOnWaiting := content }

/-- The four reads of a worker, in order. -/
inductive ReadCall where
  | registration
  | removal
  | placement
  | devolution (memIndex : Nat)
deriving DecidableEq, Repr

/-- The four writes of a worker, in order. -/
inductive WriteCall where
  | registration
  | removal
  | admission (memIndex : Nat)
  | devolution (memIndex : Nat)
deriving DecidableEq, Repr

def ReadCall.file : ReadCall → FileName
  | .registration | .removal => .processesOnWaiting
  | .placement | .devolution _ => .memory

def WriteCall.file : WriteCall → FileName
  | .registration | .removal => .processesOnWaiting
  | .admission _ | .devolution _ => .memory

/-- The two critical sections, by what their `sem_wait` stands before. -/
inductive Critical where
  | admission
  | devolution (memIndex : Nat)
deriving DecidableEq, Repr

/-- How a critical section ends; also which of the three `slog` lines it writes:
WARN, ASIG with `Size` and `Delay`, DEVO with `Size` and `Index`. -/
inductive Outcome where
  | rejected
  | admitted (memIndex : Nat)
  | returned (memIndex : Nat)
deriving DecidableEq, Repr

inductive Pc where
  | reading (call : ReadCall) (stage : ReadStage)
  | writing (call : WriteCall) (stage : WriteStage)
  | semWait (critical : Critical)
  | slog (outcome : Outcome)
  | semPost (outcome : Outcome)
  | sleeping (memIndex : Nat)
  | finished
deriving DecidableEq, Repr

/-- A worker at work: its `data_waiting` and where it is. -/
structure Thread where
  worker : Worker
  dataWaiting : Option CString
  pc : Pc

def Thread.at (thread : Thread) (pc : Pc) : Thread := { thread with pc }

@[simp] theorem Thread.at_at (thread : Thread) (pc pc' : Pc) :
    (thread.at pc).at pc' = thread.at pc' := rfl

inductive Event where
  | waited (critical : Critical)
  | loaded (call : ReadCall) (data : Option CString)
  | placed (memIndex : Option Nat)
  | wrote (call : WriteCall)
  | logged (outcome : Outcome)
  | posted
deriving DecidableEq, Repr

/-! ## One worker -/

/-- From the return of a read to the next effect. -/
def afterRead (algorithm : Algorithm) (thread : Thread) (data : Option CString) :
    ReadCall → Thread × List Event
  | .registration =>
    ({ thread with
        dataWaiting := data
        pc := .writing .registration (.opening (registration thread.worker data)) },
      [.loaded .registration data])
  | .removal =>
    ({ thread with
        dataWaiting := data
        pc := .writing .removal (.opening (removal thread.worker data)) },
      [.loaded .removal data])
  | .placement =>
    match placement algorithm thread.worker data with
    | none => (thread.at (.slog .rejected), [.loaded .placement data, .placed none])
    | some memIndex =>
      (thread.at (.writing (.admission memIndex)
        (.opening (admission thread.worker memIndex data))),
        [.loaded .placement data, .placed (some memIndex)])
  | .devolution memIndex =>
    (thread.at (.writing (.devolution memIndex)
      (.opening (devolution thread.worker memIndex data))), [.loaded (.devolution memIndex) data])

/-- From the return of a write to the next effect. -/
def afterWrite : WriteCall → Pc
  | .registration => .semWait .admission
  | .removal => .reading .placement .opening
  | .admission memIndex => .slog (.admitted memIndex)
  | .devolution memIndex => .slog (.returned memIndex)

def afterWait : Critical → Pc
  | .admission => .reading .removal .opening
  | .devolution memIndex => .reading (.devolution memIndex) .opening

def afterPost : Outcome → Pc
  | .rejected | .returned _ => .finished
  | .admitted memIndex => .sleeping memIndex

inductive Effect where
  | halt (reason : Halt) (shared : Shared)
  | run (thread : Thread) (shared : Shared) (events : List Event)

/-- One step of one worker, if it is not blocked or finished. -/
def threadStep (algorithm : Algorithm) (thread : Thread) (shared : Shared) : Option Effect :=
  match thread.pc with
  | .reading call stage =>
    match readStep (shared.content call.file) stage with
    | .halt reason => some (.halt reason shared)
    | .next stage => some (.run (thread.at (.reading call stage)) shared [])
    | .done data =>
      let (thread, events) := afterRead algorithm thread data call
      some (.run thread shared events)
  | .writing call stage =>
    match writeStep (shared.content call.file) stage with
    | (content, .halt reason) => some (.halt reason (shared.setContent content call.file))
    | (content, .next stage) =>
      some (.run (thread.at (.writing call stage)) (shared.setContent content call.file) [])
    | (content, .done ()) =>
      some (.run (thread.at (afterWrite call)) (shared.setContent content call.file) [.wrote call])
  | .semWait critical =>
    match shared.semFindSpace with
    | 0 => none
    | value + 1 => some (.run (thread.at (afterWait critical))
        { shared with semFindSpace := value } [.waited critical])
  | .slog outcome => some (.run (thread.at (.semPost outcome)) shared [.logged outcome])
  | .semPost outcome => some (.run (thread.at (afterPost outcome))
      { shared with semFindSpace := shared.semFindSpace + 1 } [.posted])
  | .sleeping memIndex => some (.run (thread.at (.semWait (.devolution memIndex))) shared [])
  | .finished => none

/-! ## The process -/

structure Producer where
  shared : Shared
  threads : List Thread
  history : List (Worker × Event)
  halted : Option Halt

/-- `threads[i]` takes a step. -/
def step (algorithm : Algorithm) (s : Producer) (i : Nat) : Option Producer :=
  match s.halted, s.threads[i]? with
  | none, some thread =>
    match threadStep algorithm thread s.shared with
    | none => none
    | some (.halt reason shared) => some { s with shared, halted := some reason }
    | some (.run thread' shared events) => some
        { s with
          shared
          threads := s.threads.set i thread'
          history := s.history ++ events.map (Prod.mk thread.worker) }
  | _, _ => none

/-- `threads[i]` takes `n` steps while the others rest, or fewer if one of them stops the
process. -/
def stepMany (algorithm : Algorithm) (i : Nat) : Nat → Producer → Option Producer
  | 0, s => some s
  | n + 1, s => (step algorithm s i).bind fun t =>
    if t.halted.isSome then some t else stepMany algorithm i n t

/-- A thread as `pthread_create` starts it. -/
def Thread.start (worker : Worker) : Thread :=
  { worker, dataWaiting := none, pc := .reading .registration .opening }

/-- `main` creates a thread with the given id, size and delay. -/
def create (s : Producer) (processId : Nat) (processSize processDelay : Int) : Producer :=
  { s with threads := s.threads ++
      [Thread.start ⟨s.threads.length, processId, processSize, processDelay⟩] }

/-- The system reuses the id of a thread only once that thread is gone. -/
def FreshId (s : Producer) (processId : Nat) : Prop :=
  ∀ thread ∈ s.threads, thread.pc ≠ .finished → thread.worker.processId ≠ processId

inductive Step (algorithm : Algorithm) (s : Producer) : Producer → Prop
  | create {processId : Nat} {processSize : Int} (processDelay : Int) : s.halted = none →
      FreshId s processId → 0 < processSize →
      Step algorithm s (create s processId processSize processDelay)
  | run {i : Nat} {t : Producer} : step algorithm s i = some t → Step algorithm s t

/-- Producer starts on the files of Initializer. -/
def Starts (schema : CString) (s : Producer) : Prop :=
  initMemory schema = some s.shared.memory ∧
  initMemoryProcessesOnWaiting = some s.shared.processesOnWaiting ∧
  s.shared.semFindSpace = 1 ∧ s.threads = [] ∧ s.history = [] ∧ s.halted = none

/-- The state in which Producer starts on given files. -/
def startOn (memory processesOnWaiting : Content) : Producer :=
  { shared := ⟨memory, processesOnWaiting, 1⟩, threads := [], history := [], halted := none }

def Reachable (algorithm : Algorithm) (schema : CString) (s : Producer) : Prop :=
  ∃ start, Starts schema start ∧ Relation.ReflTransGen (Step algorithm) start s

/-! ## Where a worker stands -/

/-- Between a `sem_wait` and the matching `sem_post`. -/
def Pc.isCritical : Pc → Bool
  | .reading .registration _ | .writing .registration _ => false
  | .reading _ _ | .writing _ _ | .slog _ | .semPost _ => true
  | .semWait _ | .sleeping _ | .finished => false

/-- The partition of a worker between its admission write and its release write. -/
def Pc.residence : Pc → Option Nat
  | .slog (.admitted memIndex) | .semPost (.admitted memIndex) | .sleeping memIndex
  | .semWait (.devolution memIndex) | .reading (.devolution memIndex) _
  | .writing (.devolution memIndex) _ => some memIndex
  | _ => none

/-- Between the registration write and the removal write. -/
def Pc.isEnlisted : Pc → Bool
  | .semWait .admission | .reading .removal _ | .writing .removal _ => true
  | _ => false

/-- In a call on the file. -/
def Pc.touches (file : FileName) : Pc → Bool
  | .reading call _ => call.file = file
  | .writing call _ => call.file = file
  | _ => false

/-- Has just opened the file with truncation. -/
def Pc.hasTruncated (file : FileName) : Pc → Bool
  | .writing call (.stretching _) => call.file = file
  | _ => false

/-- Inside a write of the file: past the truncation and before the copy. -/
def Pc.isWriting (file : FileName) : Pc → Bool
  | .writing call (.stretching _) | .writing call (.copying _) => call.file = file
  | _ => false

/-- The file that the next step opens for writing. -/
def Pc.creates : Pc → Option FileName
  | .writing call (.opening _) => some call.file
  | _ => none

/-- No worker is inside a write of the file. -/
def Quiet (file : FileName) (s : Producer) : Prop :=
  ∀ thread ∈ s.threads, thread.pc.isWriting file = false

/-- No worker is inside a critical section. -/
def BetweenSections (s : Producer) : Prop := ∀ thread ∈ s.threads, thread.pc.isCritical = false

end DynamicPartitions.Program.Threads
