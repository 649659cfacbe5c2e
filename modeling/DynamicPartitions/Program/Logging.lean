import DynamicPartitions.Program.Exclusion
import DynamicPartitions.Program.Observation
import DynamicPartitions.Slog.Record

/-!
# The workers and their logger

To the machine of the workers a log line is one step. Here the call is taken apart:
`strclr` leaves the tag in its static buffer before `slog` is entered, `slog` takes its
mutex, formats the message from that buffer, and leaves each line it prints or saves in
the static buffer of `slog_get`. The steps of other workers come between any two of these.
The mutex operations do not fail, and a worker never holds the mutex twice. The journal
records what has been logged, with the date of the call; no step reads it.
-/
namespace DynamicPartitions.Program.Logging

open DynamicPartitions.Parson.Value
open DynamicPartitions.Parson.Serializer
open DynamicPartitions.Program.Algorithms
open DynamicPartitions.Program.WorkerThread
open DynamicPartitions.Program.Threads hiding Step Reachable
open DynamicPartitions.Slog.Config
open DynamicPartitions.Slog.Record

/-! ## The three messages -/

/-- The arguments of `strclr`. -/
def tagOf : Outcome → CString × CString
  | .rejected => (clrYellow, "WARN".toList)
  | .admitted _ => (clrGreen, "ASIG".toList)
  | .returned _ => (clrBlue, "DEVO".toList)

/-- The format of a message behind the thread id. The `ó` is two bytes. -/
def details (worker : Worker) : Outcome → CString
  | .rejected => " No entr".toList ++ Char.ofNat 0xC3 :: Char.ofNat 0xB3 :: " a memoria.".toList
  | .admitted _ => " Asignado Size:".toList ++ decimal worker.processSize ++
      " Delay:".toList ++ decimal worker.processDelay
  | .returned memIndex => " Devuelto Size:".toList ++ decimal worker.processSize ++
      " Index:".toList ++ decimal memIndex

/-- What `vsprintf` makes of the arguments of `slog`, for the tag it finds in the buffer. -/
def message (worker : Worker) (outcome : Outcome) (tag : CString) : CString :=
  '[' :: tag ++ [']', ' '] ++ worker.strProcessId ++ details worker outcome

/-- The message with the worker's own tag. -/
def ownMessage (worker : Worker) (outcome : Outcome) : CString :=
  message worker outcome (strclr (tagOf outcome).1 (tagOf outcome).2)

/-! ## One call of `slog` -/

/-- Where a worker stands in its call, the evaluation of the arguments included. -/
inductive Stage where
  | coloring
  | locking
  | formatting
  | printing (date : SlogDate) (string : CString)
  | showing (date : SlogDate) (string : CString)
  | saving (date : SlogDate) (string : CString)
  | appending (date : SlogDate)
  | unlocking (date : SlogDate)
deriving DecidableEq, Repr

/-- Between the lock and the unlock. -/
def Stage.isLocked : Stage → Bool
  | .coloring | .locking => false
  | _ => true

/-- What the calls share: the buffers of `strclr` and of `slog_get`, the holder of
`slog_mutex`, and the output. -/
structure Logger where
  colored : CString
  gotten : CString
  slogMutex : Option Nat
  output : Output

/-- A call of level 0 is saved. -/
def Saves (slg : SlogFlags) : Prop := slg.toFile ≠ 0 ∧ 0 ≤ slg.fileLevel

instance (slg : SlogFlags) : Decidable (Saves slg) := inferInstanceAs (Decidable (_ ∧ _))

/-- From the screen to the file. -/
def afterScreen (slg : SlogFlags) (date : SlogDate) (string : CString) : Stage :=
  if Saves slg then .saving date string else .unlocking date

/-- One step of the call of worker `i`, up to the unlock; the clock shows the date. The
level is 0 and the flag is `SLOG_NONE`. -/
def slogStep (slg : SlogFlags) (opens : CString → Bool) (date : SlogDate) (i : Nat) (worker : Worker)
    (outcome : Outcome) (logger : Logger) : Stage → Option (Logger × Stage)
  | .coloring => some ({ logger with colored := strclr (tagOf outcome).1 (tagOf outcome).2 }, .locking)
  | .locking =>
    if slg.tdSafe = 0 then some (logger, .formatting)
    else match logger.slogMutex with
      | none => some ({ logger with slogMutex := some i }, .formatting)
      | some _ => none
  | .formatting =>
    let string := message worker outcome logger.colored
    some (logger, if 0 ≤ slg.level then .printing date string else afterScreen slg date string)
  | .printing date string =>
    some ({ logger with gotten := slogGet date (string ++ ['\n']) }, .showing date string)
  | .showing date string =>
    some ({ logger with output := logger.output.print logger.gotten }, afterScreen slg date string)
  | .saving date string =>
    some ({ logger with gotten := slogGet date (string ++ ['\n']) }, .appending date)
  | .appending date =>
    some ({ logger with output := slogToFile slg opens date logger.gotten logger.output },
      .unlocking date)
  | .unlocking _ => none

def unlock (slg : SlogFlags) (logger : Logger) : Logger :=
  if slg.tdSafe = 0 then logger else { logger with slogMutex := none }

/-! ## The process -/

structure Process where
  producer : Producer
  logger : Logger
  stages : Nat → Stage
  journal : List (Worker × Outcome × SlogDate)

/-- Worker `i` is in a call of `slog`. -/
def Logs (s : Producer) (i : Nat) (worker : Worker) (outcome : Outcome) : Prop :=
  ∃ thread, s.threads[i]? = some thread ∧ thread.worker = worker ∧ thread.pc = .slog outcome

section Machine

variable (slg : SlogFlags) (opens : CString → Bool) (algorithm : Algorithm)

/-- A step inside a call of `slog`, the last of which is a step of the workers' machine. -/
inductive LogStep (s : Process) (i : Nat) : Process → Prop
  | inside {worker : Worker} {outcome : Outcome} (date : SlogDate) {logger : Logger} {stage : Stage} :
      s.producer.halted = none → Logs s.producer i worker outcome →
      slogStep slg opens date i worker outcome s.logger (s.stages i) = some (logger, stage) →
      LogStep s i { s with logger, stages := Function.update s.stages i stage }
  | logged {worker : Worker} {outcome : Outcome} {date : SlogDate} {t : Producer} :
      Logs s.producer i worker outcome → s.stages i = .unlocking date →
      step algorithm s.producer i = some t →
      LogStep s i
        { producer := t, logger := unlock slg s.logger
          stages := Function.update s.stages i .coloring
          journal := s.journal ++ [(worker, outcome, date)] }

inductive Step (s : Process) : Process → Prop
  | create {t : Producer} {processId : Nat} {processSize : Int} (processDelay : Int) :
      s.producer.halted = none → FreshId s.producer processId → 0 < processSize →
      t = create s.producer processId processSize processDelay → Step s { s with producer := t }
  | run {i : Nat} {t : Producer} : (∀ worker outcome, ¬ Logs s.producer i worker outcome) →
      step algorithm s.producer i = some t → Step s { s with producer := t }
  | log {i : Nat} {t : Process} : LogStep slg opens algorithm s i t → Step s t

end Machine

/-- Producer as `main` has made the logger ready, with this much written already. -/
def Starts (schema : CString) (output : Output) (s : Process) : Prop :=
  Threads.Starts schema s.producer ∧ s.logger.slogMutex = none ∧ s.logger.output = output ∧
  (∀ i, s.stages i = .coloring) ∧ s.journal = []

def Reachable (slg : SlogFlags) (opens : CString → Bool) (algorithm : Algorithm) (schema : CString)
    (output : Output) (s : Process) : Prop :=
  ∃ start, Starts schema output start ∧ Relation.ReflTransGen (Step slg opens algorithm) start s

/-- No worker is in a call of `slog`. -/
def NoneLogs (s : Producer) : Prop := ∀ i worker outcome, ¬ Logs s i worker outcome

/-- The output after a whole call. -/
def enter (slg : SlogFlags) (opens : CString → Bool) (out : Output)
    (entry : Worker × Outcome × SlogDate) : Output :=
  slog slg opens entry.2.2 0 slogNone (ownMessage entry.1 entry.2.1) out

/-- The output of a journal, one whole call after another. -/
def enterAll (slg : SlogFlags) (opens : CString → Bool) (out : Output)
    (journal : List (Worker × Outcome × SlogDate)) : Output :=
  journal.foldl (enter slg opens) out

end DynamicPartitions.Program.Logging
