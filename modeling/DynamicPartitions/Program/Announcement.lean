import DynamicPartitions.Lib.Naming

/-!
# The segment that announces a Producer

`main` of `producer.c` and `SIGQUIT_handler` on the shared segment under
`ftok(".", 's')`, and `kill_producer` on the same. Producers run one after the other;
each stores its pid, and only the handler removes the segment. Attached memory
stays readable after its removal.
-/
namespace DynamicPartitions.Program.Announcement

open DynamicPartitions.Lib.Naming

/-- A stored pid, and the number of the run that stored it, which no step reads. -/
structure Stored where
  pid : Nat
  run : Nat
deriving DecidableEq, Repr

/-- The segments, of zeros until a pid is stored, and the one under the key. -/
abbrev Segments := Catalog Unit (Option Stored)

/-- A `pid_t` read from a segment. -/
def readPid : Option Stored → Nat
  | none => 0
  | some stored => stored.pid

/-! ## Producer -/

/-- Where `main` stands, or the handler that has interrupted it. -/
inductive ProducerStage where
  | attaching
  | storing
  | running
  | removing
  | exiting
deriving DecidableEq, Repr

structure Producer where
  number : Nat
  pid : Nat
  shmID : Nat
  stage : ProducerStage
  /-- `*ShmPTR = pid` is done. -/
  announced : Bool
deriving DecidableEq, Repr

/-! ## Killer -/

/-- What the segment held and which Producer was there when Killer read. -/
structure Reading where
  content : Option Stored
  producer : Option Producer
deriving DecidableEq, Repr

/-- The `pid` of `kill_producer`. -/
def Reading.pid (reading : Reading) : Nat := readPid reading.content

inductive KillerStage where
  | locating
  | attaching (shmID : Nat)
  | loading (shmID : Nat)
  | prompting (reading : Reading)
  | signalled (reading : Reading)
  /-- `shmget` or `shmat` has returned -1, and `*ShmPTR` faults. -/
  | faulted
deriving DecidableEq, Repr

/-- The read of the pid, once it has been made. -/
def KillerStage.taken : KillerStage → Option Reading
  | .prompting reading | .signalled reading => some reading
  | .locating | .attaching _ | .loading _ | .faulted => none

/-! ## Both programs -/

structure Scene where
  segments : Segments
  /-- The Producer that has not ended. -/
  producer : Option Producer
  /-- How many Producers have started. -/
  runs : Nat
  killer : KillerStage

/-- `shmget` with `IPC_CREAT` by a new Producer; zero is not a pid. -/
def launch (s : Scene) (pid : Nat) : Option Scene :=
  if s.producer = none ∧ pid ≠ 0 then
    let (shmID, segments) := s.segments.acquire () none
    some { s with
      segments
      producer := some ⟨s.runs, pid, shmID, .attaching, false⟩
      runs := s.runs + 1 }
  else none

/-- The next step of `main`, or of `SIGQUIT_handler` where it has been entered. -/
def advance (s : Scene) (producer : Producer) : Option Scene :=
  match producer.stage with
  | .attaching => some { s with producer := some { producer with stage := .storing } }
  | .storing => some { s with
      segments := s.segments.store producer.shmID (some ⟨producer.pid, producer.number⟩)
      producer := some { producer with stage := .running, announced := true } }
  | .running => none
  -- `IPC_RMID` of a segment already removed fails
  | .removing => some { s with
      segments := if s.segments.link () = some producer.shmID then s.segments.remove () else s.segments
      producer := some { producer with stage := .exiting } }
  | .exiting => some { s with producer := none }

/-- SIGQUIT is delivered, from wherever it comes: the handler ignores a second one and
detaches. -/
def interrupt (s : Scene) (producer : Producer) : Option Scene :=
  match producer.stage with
  | .attaching | .storing | .running =>
    some { s with producer := some { producer with stage := .removing } }
  | .removing | .exiting => none

/-- A worker leaves the process in a file function; workers exist once `main` is past
its store. -/
def fail (s : Scene) (producer : Producer) : Option Scene :=
  if producer.announced then some { s with producer := none } else none

/-- The next step of `kill_producer`, whose prompt may last. -/
def killProducer (s : Scene) : Option Scene :=
  match s.killer with
  | .locating =>
    match s.segments.link () with
    | none => some { s with killer := .faulted }
    | some shmID => some { s with killer := .attaching shmID }
  | .attaching shmID =>
    if s.segments.link () = some shmID then some { s with killer := .loading shmID }
    else some { s with killer := .faulted }
  | .loading shmID =>
    some { s with killer := .prompting ⟨s.segments.objects.getD shmID none, s.producer⟩ }
  | .prompting reading => some { s with killer := .signalled reading }
  | .signalled _ | .faulted => none

inductive Label where
  | launch (pid : Nat)
  | producer
  | interrupt
  | fail
  | killer
deriving DecidableEq, Repr

def next (s : Scene) : Label → Option Scene
  | .launch pid => launch s pid
  | .producer => s.producer.bind (advance s)
  | .interrupt => s.producer.bind (interrupt s)
  | .fail => s.producer.bind (fail s)
  | .killer => killProducer s

def Step (s : Scene) (label : Label) (t : Scene) : Prop := next s label = some t

/-- No segment, no Producer, and Killer at its `shmget`. -/
def start : Scene where
  segments := { link := fun _ => none, objects := [], linked := nofun }
  producer := none
  runs := 0
  killer := .locating

end DynamicPartitions.Program.Announcement
