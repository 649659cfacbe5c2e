import DynamicPartitions.Program.Exclusion
import DynamicPartitions.Refinement.Memory

/-!
# The workers simulate an allocator

While no worker is inside a write the memory file is that of an allocator whose
residents are the admitted workers. A worker inside a critical section knows the
current memory, and each move it makes is at most one request served by the allocator.
-/
namespace DynamicPartitions.Refinement.Simulation

open DynamicPartitions.Lib.Transition
open DynamicPartitions.Parson.Value
open DynamicPartitions.Abstract.Residents
open DynamicPartitions.Abstract.Accounting
open DynamicPartitions.Program.Algorithms
open DynamicPartitions.Program.MappedFile
open DynamicPartitions.Program.WorkerThread
open DynamicPartitions.Program.Threads
open DynamicPartitions.Program.Moves
open DynamicPartitions.Refinement.Representation
open DynamicPartitions.Refinement.Memory

/-- What a critical section asks of the allocator. -/
def request : Worker × Critical → Allocator.Request Nat
  | (worker, .admission) => .attempt worker.processId (processOf worker)
  | (worker, .devolution memIndex) => .release ⟨worker.processId, processOf worker, memIndex⟩

/-- The event by which a critical section takes effect: the decision to reject or the
end of the write. -/
def commit : Worker × Event → Option (Worker × Critical)
  | (worker, .placed none) => some (worker, .admission)
  | (worker, .wrote (.admission _)) => some (worker, .admission)
  | (worker, .wrote (.devolution memIndex)) => some (worker, .devolution memIndex)
  | _ => none

def commits (history : List (Worker × Event)) : List (Worker × Critical) :=
  history.filterMap commit

/-- Requests served one after the other. -/
abbrev SequentialRun (algorithm : Algorithm) (a : Books) (sections : List (Worker × Critical))
    (b : Books) : Prop :=
  Executes (Allocator.Serves (choose algorithm)) a (sections.map request) b

/-! ## The view of a worker -/

/-- A write under way: what the file was, and what it is going to be. -/
def Pending (memory old : Content) (new : CString) : WriteStage → Prop
  | .opening text => memory = old ∧ text = some new
  | .stretching text => memory = [] ∧ text = new
  | .copying text => memory = zeros new ∧ text = new

/-- What the memory file holds while the worker is where it is and nobody else is
inside a critical section. -/
def View (algorithm : Algorithm) (frames : List Frame) (partitions : List (Partition Nat))
    (memory : Content) (thread : Thread) : Prop :=
  match thread.pc with
  | .reading .placement (.mapping stSize) | .reading (.devolution _) (.mapping stSize) =>
    memory = memoryFile frames partitions ∧ stSize = memory.length
  | .writing (.admission k) stage =>
    choose algorithm partitions thread.worker.processSize = some k ∧
    Pending memory (memoryFile frames partitions)
      (compact (memoryValue frames (partitions.modify k
        (Partition.enter tableBound thread.worker.processId (processOf thread.worker))))) stage
  | .writing (.devolution k) stage =>
    Pending memory (memoryFile frames partitions)
      (compact (memoryValue frames (partitions.modify k
        (Partition.release thread.worker.processId (processOf thread.worker))))) stage
  | _ => memory = memoryFile frames partitions

/-- The worker as a resident of the partition it was admitted to. -/
def residentOf (thread : Thread) : Option (Resident Nat) :=
  thread.pc.residence.map fun k => ⟨thread.worker.processId, processOf thread.worker, k⟩

theorem view_of_not_critical {algorithm : Algorithm} {frames : List Frame}
    {partitions : List (Partition Nat)} {memory : Content} {thread : Thread}
    (hcrit : thread.pc.isCritical = false) :
    View algorithm frames partitions memory thread ↔ memory = memoryFile frames partitions := by
  unfold View
  cases hpc : thread.pc with
  | reading call stage => cases call <;> simp [hpc, Pc.isCritical] at hcrit ⊢
  | writing call stage => cases call <;> simp [hpc, Pc.isCritical] at hcrit ⊢
  | _ => simp

/-- What an event of a worker says about the allocator at that moment: a read of the
memory returned all of it, and a decision is the one of `search_index` on it. -/
def Truthful (algorithm : Algorithm) (frames : List Frame) (a : Books) :
    Worker × Event → Prop
  | (_, .loaded call data) => call.file = .memory → data = some (printed frames a.partitions)
  | (worker, .placed memIndex) =>
    memIndex = searchIndex (jsonValueGetArray (some (memoryValue frames a.partitions)))
      worker.processSize algorithm
  | _ => True

/-! ## One move -/

/-- A move that neither starts nor ends inside a critical section leaves the memory and
the residents alone. -/
theorem outside_move {algorithm : Algorithm} {thread thread' : Thread} {shared shared' : Shared}
    {events : List Event} (h : Move algorithm thread shared thread' shared' events)
    (hout : thread.pc.isCritical = false) (hout' : thread'.pc.isCritical = false) :
    shared'.memory = shared.memory ∧ residentOf thread' = residentOf thread ∧
      commits (events.map (Prod.mk thread.worker)) = [] ∧
      ∀ a frames, ∀ event ∈ events, Truthful algorithm frames a (thread.worker, event) := by
  cases h with
  | @opened call hpc hsize =>
    refine ⟨rfl, ?_, rfl, by simp⟩
    cases call <;> simp [residentOf, hpc, Thread.at, Pc.residence]
  | @loaded call stSize hpc hextent =>
    cases call with
    | registration =>
      refine ⟨rfl, ?_, rfl, ?_⟩
      · simp [residentOf, hpc, afterRead, Pc.residence]
      · simp [afterRead, Truthful, ReadCall.file]
    | _ => simp [hpc, Pc.isCritical] at hout
  | @truncated call text hpc | @stretched call text hpc =>
    cases call with
    | registration => exact ⟨rfl, by simp [residentOf, hpc, Thread.at, Pc.residence], rfl, by simp⟩
    | _ => simp [hpc, Pc.isCritical] at hout
  | @copied call text hpc hfits =>
    cases call with
    | registration =>
      exact ⟨rfl, by simp [residentOf, hpc, Thread.at, afterWrite, Pc.residence], rfl,
        by simp [Truthful]⟩
    | _ => simp [hpc, Pc.isCritical] at hout
  | @acquired critical value hpc hvalue => cases critical <;> simp [Thread.at, afterWait, Pc.isCritical] at hout'
  | @logged outcome hpc => simp [hpc, Pc.isCritical] at hout
  | @released outcome hpc => simp [hpc, Pc.isCritical] at hout
  | @woken memIndex hpc => exact ⟨rfl, by simp [residentOf, hpc, Thread.at, Pc.residence], rfl, by simp⟩

theorem reprint_memoryFile {frames : List Frame} (a : Books) (h : Framed frames a.partitions) :
    reprint (cString (memoryFile frames a.partitions)) = some (printed frames a.partitions) := by
  rw [memoryFile, cString_stored_compact, reprint_compact (canonical_memoryValue a h)]
  rfl

theorem framed_enter {frames : List Frame} {a : Books} (h : Framed frames a.partitions)
    {r : Resident Nat} (hr : Allocator.Admissible a r) : Framed frames (a.enter r hr).partitions :=
  h.modify r.index fun _ => rfl

theorem framed_release {frames : List Frame} {a : Books} (h : Framed frames a.partitions)
    {r : Resident Nat} (hr : r ∈ a.residents) : Framed frames (a.release r hr).partitions :=
  h.modify r.index fun _ => rfl

/-- What a worker can rely on when it moves inside, into or out of a critical section. -/
structure Informed (algorithm : Algorithm) (frames : List Frame) (a : Books) (memory : Content)
    (thread : Thread) : Prop where
  framed : Framed frames a.partitions
  view : View algorithm frames a.partitions memory thread
  resident : ∀ r ∈ residentOf thread, r ∈ a.residents
  fresh : residentOf thread = none → thread.worker.processId ∉ a.residents.map Resident.id
  size_pos : 0 < thread.worker.processSize

/-- What the move of such a worker comes to: requests served, and the worker still informed. -/
structure Answered (algorithm : Algorithm) (frames : List Frame) (a b : Books) (memory' : Content)
    (thread thread' : Thread) (events : List Event) : Prop where
  served : SequentialRun algorithm a (commits (events.map (Prod.mk thread.worker))) b
  framed : Framed frames b.partitions
  view : View algorithm frames b.partitions memory' thread'
  residents : b.residents + ((residentOf thread).toList : Multiset (Resident Nat)) =
    a.residents + ((residentOf thread').toList : Multiset (Resident Nat))
  truthful : ∀ event ∈ events, Truthful algorithm frames a (thread.worker, event)

/-- A move that asks nothing of the allocator. -/
theorem answered_same {algorithm : Algorithm} {frames : List Frame} {a : Books}
    {memory' : Content} {thread thread' : Thread} {events : List Event}
    (hframed : Framed frames a.partitions) (hview : View algorithm frames a.partitions memory' thread')
    (hcommits : commits (events.map (Prod.mk thread.worker)) = [])
    (hresident : residentOf thread' = residentOf thread)
    (htruthful : ∀ event ∈ events, Truthful algorithm frames a (thread.worker, event)) :
    Answered algorithm frames a a memory' thread thread' events :=
  ⟨hcommits ▸ .nil a, hframed, hview, by rw [hresident], htruthful⟩

theorem inside_loaded {algorithm : Algorithm} {frames : List Frame} {a : Books} {shared : Shared}
    {thread : Thread} {call : ReadCall} {stSize : Nat}
    (h : Informed algorithm frames a shared.memory thread)
    (hpc : thread.pc = .reading call (.mapping stSize)) :
    let data := reprint (cString (shared.content call.file))
    Answered algorithm frames a a shared.memory thread (afterRead algorithm thread data call).1
      (afterRead algorithm thread data call).2 := by
  intro data
  have hview := h.view
  cases call with
  | registration | removal =>
    simp only [View, hpc] at hview
    refine answered_same h.framed ?_ rfl ?_ ?_
    · simpa only [View, afterRead] using hview
    · simp [residentOf, hpc, afterRead, Pc.residence]
    · simp [afterRead, Truthful, ReadCall.file]
  | placement =>
    simp only [View, hpc] at hview
    have hdata : data = some (printed frames a.partitions) := by
      simp only [data, ReadCall.file, Shared.content, hview.1]
      exact reprint_memoryFile a h.framed
    have hplace := placement_printed algorithm a h.framed thread.worker
    rw [← hdata] at hplace
    have hsearch := searchIndex_memory algorithm h.framed.length_eq thread.worker.processSize
    simp only [afterRead]
    cases hchoose : placement algorithm thread.worker data with
    | none =>
      rw [hchoose] at hplace
      refine ⟨.single (.rejected hplace.symm), h.framed, ?_, ?_, ?_⟩
      · simpa only [View, Thread.at] using hview.1
      · simp [residentOf, hpc, Thread.at, Pc.residence]
      · simpa [Truthful, ReadCall.file, hdata, hsearch] using hplace
    | some k =>
      rw [hchoose] at hplace
      refine answered_same h.framed ?_ rfl ?_ ?_
      · simp only [View, Thread.at, Pending]
        refine ⟨hplace.symm, hview.1, ?_⟩
        rw [hdata]
        exact admission_printed a h.framed thread.worker k
      · simp [residentOf, hpc, Thread.at, Pc.residence]
      · simpa [Truthful, ReadCall.file, hdata, hsearch] using hplace
  | devolution k =>
    simp only [View, hpc] at hview
    have hdata : data = some (printed frames a.partitions) := by
      simp only [data, ReadCall.file, Shared.content, hview.1]
      exact reprint_memoryFile a h.framed
    refine answered_same h.framed ?_ rfl ?_ ?_
    · simp only [View, afterRead, Thread.at, Pending]
      refine ⟨hview.1, ?_⟩
      rw [hdata]
      exact devolution_printed a h.framed thread.worker k
    · simp [residentOf, hpc, afterRead, Thread.at, Pc.residence]
    · simp [afterRead, Truthful, ReadCall.file, hdata]

theorem inside_copied {algorithm : Algorithm} {frames : List Frame} {a : Books} {shared : Shared}
    {thread : Thread} {call : WriteCall} {text : CString}
    (h : Informed algorithm frames a shared.memory thread)
    (hpc : thread.pc = .writing call (.copying text)) :
    ∃ b, Answered algorithm frames a b
      (shared.setContent (strcpy (shared.content call.file) text) call.file).memory
      thread (thread.at (afterWrite call)) [.wrote call] := by
  have hview := h.view
  cases call with
  | registration | removal =>
    simp only [View, hpc] at hview
    refine ⟨a, answered_same h.framed ?_ rfl ?_ ?_⟩
    · simpa only [View, afterWrite, Thread.at, WriteCall.file, Shared.setContent] using hview
    · simp [residentOf, hpc, afterWrite, Thread.at, Pc.residence]
    · simp [Truthful]
  | admission k =>
    simp only [View, hpc, Pending] at hview
    obtain ⟨hchoose, hmemory, rfl⟩ := hview
    have hnone : residentOf thread = none := by simp [residentOf, hpc, Pc.residence]
    have hadmissible : Allocator.Admissible a ⟨thread.worker.processId, processOf thread.worker, k⟩ :=
      ⟨h.fresh hnone, h.size_pos, choose_fits hchoose⟩
    refine ⟨a.enter _ hadmissible, .single (.admitted hchoose hadmissible),
      framed_enter h.framed hadmissible, ?_, ?_, ?_⟩
    · simp only [View, afterWrite, Thread.at, WriteCall.file, Shared.content, Shared.setContent,
        hmemory, strcpy_zeros]
      rfl
    · rw [hnone]
      simp only [residentOf, Thread.at, afterWrite, Pc.residence, Option.map_some]
      simp [Allocator.enter, ← Multiset.singleton_add, add_comm]
    · simp [Truthful]
  | devolution k =>
    simp only [View, hpc, Pending] at hview
    obtain ⟨hmemory, rfl⟩ := hview
    have hsome : residentOf thread =
        some ⟨thread.worker.processId, processOf thread.worker, k⟩ := by
      simp [residentOf, hpc, Pc.residence]
    have hmem := h.resident _ hsome
    refine ⟨a.release _ hmem, .single (.released hmem), framed_release h.framed hmem, ?_, ?_, ?_⟩
    · simp only [View, afterWrite, Thread.at, WriteCall.file, Shared.content, Shared.setContent,
        hmemory, strcpy_zeros]
      rfl
    · rw [hsome]
      simp only [residentOf, Thread.at, afterWrite, Pc.residence, Option.map_none]
      have herase := Multiset.cons_erase hmem
      simp only [Allocator.release, Option.toList_some, Option.toList_none, Multiset.coe_singleton,
        Multiset.coe_nil, add_zero]
      rw [add_comm, Multiset.singleton_add, herase]
    · simp [Truthful]

theorem inside_move {algorithm : Algorithm} {frames : List Frame} {a : Books}
    {thread thread' : Thread} {shared shared' : Shared} {events : List Event}
    (h : Informed algorithm frames a shared.memory thread)
    (hmove : Move algorithm thread shared thread' shared' events) :
    ∃ b, Answered algorithm frames a b shared'.memory thread thread' events := by
  have hview := h.view
  cases hmove with
  | @opened call hpc hsize =>
    refine ⟨a, answered_same h.framed ?_ rfl ?_ (by simp)⟩
    · cases call <;> simp only [View, hpc] at hview <;> simp only [View, Thread.at]
      case registration => exact hview
      case removal => exact hview
      all_goals exact ⟨hview, rfl⟩
    · cases call <;> simp [residentOf, hpc, Thread.at, Pc.residence]
  | loaded hpc hextent => exact ⟨a, inside_loaded h hpc⟩
  | @truncated call text hpc =>
    refine ⟨a, answered_same h.framed ?_ rfl ?_ (by simp)⟩
    · cases call <;> simp only [View, hpc, Pending] at hview <;>
        simp only [View, Thread.at, Pending, WriteCall.file, Shared.setContent]
      case registration => exact hview
      case removal => exact hview
      case admission k => exact ⟨hview.1, trivial, Option.some.inj hview.2.2⟩
      case devolution k => exact ⟨trivial, Option.some.inj hview.2⟩
    · cases call <;> simp [residentOf, hpc, Thread.at, Pc.residence]
  | @stretched call text hpc =>
    refine ⟨a, answered_same h.framed ?_ rfl ?_ (by simp)⟩
    · cases call <;> simp only [View, hpc, Pending] at hview <;>
        simp only [View, Thread.at, Pending, WriteCall.file, Shared.content, Shared.setContent]
      case registration => exact hview
      case removal => exact hview
      case admission k =>
        obtain ⟨hchoose, hmemory, rfl⟩ := hview
        exact ⟨hchoose, by rw [hmemory, stretch_nil], rfl⟩
      case devolution k =>
        obtain ⟨hmemory, rfl⟩ := hview
        exact ⟨by rw [hmemory, stretch_nil], rfl⟩
    · cases call <;> simp [residentOf, hpc, Thread.at, Pc.residence]
  | copied hpc hfits => exact inside_copied h hpc
  | @acquired critical value hpc hvalue =>
    simp only [View, hpc] at hview
    refine ⟨a, answered_same h.framed ?_ rfl ?_ (by simp [Truthful])⟩
    · cases critical <;> simpa only [View, Thread.at, afterWait] using hview
    · cases critical <;> simp [residentOf, hpc, Thread.at, afterWait, Pc.residence]
  | @logged outcome hpc =>
    simp only [View, hpc] at hview
    refine ⟨a, answered_same h.framed ?_ rfl ?_ (by simp [Truthful])⟩
    · simpa only [View, Thread.at] using hview
    · cases outcome <;> simp [residentOf, hpc, Thread.at, Pc.residence]
  | @released outcome hpc =>
    simp only [View, hpc] at hview
    refine ⟨a, answered_same h.framed ?_ rfl ?_ (by simp [Truthful])⟩
    · cases outcome <;> simpa only [View, Thread.at, afterPost] using hview
    · cases outcome <;> simp [residentOf, hpc, Thread.at, afterPost, Pc.residence]
  | @woken memIndex hpc =>
    simp only [View, hpc] at hview
    refine ⟨a, answered_same h.framed ?_ rfl ?_ (by simp)⟩
    · simpa only [View, Thread.at] using hview
    · simp [residentOf, hpc, Thread.at, Pc.residence]

end DynamicPartitions.Refinement.Simulation
