import DynamicPartitions.Program.Calls
import DynamicPartitions.Refinement.WaitingList

/-!
# A worker that nobody disturbs

The path of one worker through complete files while the others rest: it registers,
takes the registration back, is admitted where `search_index` says, and gives back what
it took.
-/
namespace DynamicPartitions.Refinement.Solo

open DynamicPartitions.Lib.Table
open DynamicPartitions.Parson.Value
open DynamicPartitions.Abstract.Rosters
open DynamicPartitions.Program.Algorithms
open DynamicPartitions.Program.MappedFile
open DynamicPartitions.Program.WorkerThread
open DynamicPartitions.Program.Threads
open DynamicPartitions.Program.Calls
open DynamicPartitions.Refinement.Representation
open DynamicPartitions.Refinement.Memory
open DynamicPartitions.Refinement.WaitingList

theorem strike_enlist_empty (id : Nat) : (Roster.empty.enlist id : Waiting).strike id = .empty := by
  simp [Roster.empty, Roster.enlist, Roster.strike, enterKey, removeKey, keys, swapRemove]

section Admission

variable {algorithm : Algorithm} {schema : CString} {s : Producer} {i : Nat} {worker : Worker}
  (hreach : ReachableWhen everyCall always algorithm schema s) (hhalted : s.halted = none)
  (hi : s.threads[i]? = some (Thread.start worker)) (hsem : s.shared.semFindSpace = 1)
  (hwaiting : s.shared.processesOnWaiting = waitingFile .empty)
include hreach hhalted hi hsem hwaiting

/-- It registers in an empty list and, inside its critical section, takes that back. -/
theorem struck_alone :
    ∃ thread, thread.worker = worker ∧ thread.pc = .reading .placement .opening ∧
      Alone algorithm schema s i (Thread.start worker) thread
        ⟨s.shared.memory, waitingFile .empty, 0⟩ := by
  have hread := (Alone.start hreach hi).read hi hhalted .registration rfl
    (canonical_waitingValue .empty) hwaiting
  have hwrite := hread.write hi hhalted .registration
    (congrArg (fun text => Pc.writing .registration (.opening text))
      (registration_waitingText worker .empty))
  have hwait := hwrite.move hi hhalted rfl (.acquired rfl hsem)
  have hread' := hwait.read hi hhalted .removal rfl
    (canonical_waitingValue (Roster.empty.enlist worker.processId)) rfl
  have hwrite' := hread'.write hi hhalted .removal
    (congrArg (fun text => Pc.writing .removal (.opening text))
      (removal_waitingText worker (Roster.empty.enlist worker.processId)))
  rw [strike_enlist_empty] at hwrite'
  exact ⟨_, rfl, rfl, hwrite'⟩

/-- Then it is admitted to the partition found for it, and sleeps. -/
theorem admitted_alone {frames : List Frame} {a : Books} {k : Nat}
    (hframed : Framed frames a.partitions)
    (hmemory : s.shared.memory = memoryFile frames a.partitions)
    (hchoose : choose algorithm a.partitions worker.processSize = some k) :
    ∃ thread shared, Alone algorithm schema s i (Thread.start worker) thread shared ∧
      thread.worker = worker ∧ thread.pc = .sleeping k ∧ shared.semFindSpace = 1 ∧
      shared.processesOnWaiting = waitingFile .empty := by
  obtain ⟨thread, rfl, hpc, hstruck⟩ := struck_alone hreach hhalted hi hsem hwaiting
  have hread := hstruck.read hi hhalted .placement hpc (canonical_memoryValue a hframed) hmemory
  have hplace : placement algorithm thread.worker (some (pretty (memoryValue frames a.partitions))) =
      some k := (placement_printed algorithm a hframed thread.worker).trans hchoose
  simp only [afterRead, hplace] at hread
  have hwrite := hread.write hi hhalted (.admission k)
    (congrArg (fun text => Pc.writing (.admission k) (.opening text))
      (admission_printed a hframed thread.worker k))
  have hlog := hwrite.move hi hhalted rfl (.logged rfl)
  have hpost := hlog.move hi hhalted rfl (.released rfl)
  exact ⟨_, _, hpost, rfl, rfl, rfl, rfl⟩

end Admission

/-- A worker that wakes up gives its space back, and is about to leave its section. -/
theorem released_alone {algorithm : Algorithm} {schema : CString} {s : Producer} {i : Nat}
    {first : Thread} (hreach : ReachableWhen everyCall always algorithm schema s)
    (hhalted : s.halted = none) (hi : s.threads[i]? = some first)
    (hsem : s.shared.semFindSpace = 1) {k : Nat} (hpc : first.pc = .sleeping k)
    {frames : List Frame} {a : Books} (hframed : Framed frames a.partitions)
    (hmemory : s.shared.memory = memoryFile frames a.partitions) :
    ∃ thread shared, Alone algorithm schema s i first thread shared ∧
      thread.pc = .semPost (.returned k) := by
  have hwoken := (Alone.start hreach hi).move hi hhalted (by rw [hpc]; rfl) (.woken hpc)
  have hwait := hwoken.move hi hhalted rfl (.acquired rfl hsem)
  have hread := hwait.read hi hhalted (.devolution k) rfl (canonical_memoryValue a hframed) hmemory
  have hwrite := hread.write hi hhalted (.devolution k)
    (congrArg (fun text => Pc.writing (.devolution k) (.opening text))
      (devolution_printed a hframed first.worker k))
  have hlog := hwrite.move hi hhalted rfl (.logged rfl)
  exact ⟨_, _, hlog, rfl⟩

end DynamicPartitions.Refinement.Solo
