import DynamicPartitions.Program.Trails
import DynamicPartitions.Properties.Conservation

/-!
# The log agrees with the memory

Every logging call stands after the write it reports and before the `sem_post` that
follows, so between critical sections the ASIG and DEVO lines are the writes of the
memory file, in their order, and their sizes account for the free space.
-/
namespace DynamicPartitions.Properties.Log

open DynamicPartitions.Lib.Update
open DynamicPartitions.Parson.Value
open DynamicPartitions.Parson.Parser
open DynamicPartitions.Abstract.Residents
open DynamicPartitions.Abstract.Accounting
open DynamicPartitions.Program.Algorithms
open DynamicPartitions.Program.WorkerThread
open DynamicPartitions.Program.Threads
open DynamicPartitions.Program.Moves
open DynamicPartitions.Program.Exclusion
open DynamicPartitions.Program.Calls
open DynamicPartitions.Program.Observation
open DynamicPartitions.Program.Trails
open DynamicPartitions.Refinement.Representation
open DynamicPartitions.Refinement.Memory
open DynamicPartitions.Refinement.Simulation
open DynamicPartitions.Refinement.Runs
open DynamicPartitions.Properties.Conservation

/-! ## The order of the lines -/

/-- The writes of the memory file, in order. -/
def memoryWrites (history : List (Worker × Event)) : List (Worker × Outcome) :=
  history.filterMap fun
    | (worker, .wrote (.admission k)) => some (worker, .admitted k)
    | (worker, .wrote (.devolution k)) => some (worker, .returned k)
    | _ => none

/-- The calls of `slog` that report a write, in order. -/
def reports (history : List (Worker × Event)) : List (Worker × Outcome) :=
  history.filterMap fun
    | (_, .logged .rejected) => none
    | (worker, .logged outcome) => some (worker, outcome)
    | _ => none

/-- A write that has not been reported yet. -/
def unreported (thread : Thread) : Option (Worker × Outcome) :=
  match thread.pc with
  | .slog (.admitted k) => some (thread.worker, .admitted k)
  | .slog (.returned k) => some (thread.worker, .returned k)
  | _ => none

theorem unreported_of_not_critical (thread : Thread) (h : thread.pc.isCritical = false) :
    unreported thread = none := by
  unfold unreported
  cases hpc : thread.pc with
  | slog outcome => simp [hpc, Pc.isCritical] at h
  | _ => rfl

theorem unreported_move {algorithm : Algorithm} {thread thread' : Thread} {shared shared' : Shared}
    {events : List Event} (h : Move algorithm thread shared thread' shared' events) :
    (unreported thread).toList ++ memoryWrites (events.map (Prod.mk thread.worker)) =
      reports (events.map (Prod.mk thread.worker)) ++ (unreported thread').toList := by
  cases h with
  | @opened call hpc hsize => simp [unreported, hpc, Thread.at, memoryWrites, reports]
  | @loaded call stSize hpc hextent =>
    cases call with
    | placement =>
      simp only [afterRead]
      split <;> simp [unreported, hpc, Thread.at, memoryWrites, reports]
    | _ => simp [unreported, hpc, afterRead, Thread.at, memoryWrites, reports]
  | @truncated call text hpc => simp [unreported, hpc, Thread.at, memoryWrites, reports]
  | @stretched call text hpc => simp [unreported, hpc, Thread.at, memoryWrites, reports]
  | @copied call text hpc hfits =>
    cases call <;> simp [unreported, hpc, Thread.at, afterWrite, memoryWrites, reports]
  | @acquired critical value hpc hvalue =>
    cases critical <;> simp [unreported, hpc, Thread.at, afterWait, memoryWrites, reports]
  | @logged outcome hpc => cases outcome <;> simp [unreported, hpc, Thread.at, memoryWrites, reports]
  | @released outcome hpc =>
    cases outcome <;> simp [unreported, hpc, Thread.at, afterPost, memoryWrites, reports]
  | @woken memIndex hpc => simp [unreported, hpc, Thread.at, memoryWrites, reports]

/-- Neither a write nor a report happens outside a critical section. -/
theorem memoryWrites_outside {algorithm : Algorithm} {thread thread' : Thread}
    {shared shared' : Shared} {events : List Event}
    (h : Move algorithm thread shared thread' shared' events)
    (hout : thread.pc.isCritical = false) :
    memoryWrites (events.map (Prod.mk thread.worker)) = [] := by
  cases h with
  | @loaded call stSize hpc hextent =>
    cases call with
    | registration => rfl
    | _ => simp [hpc, Pc.isCritical] at hout
  | @copied call text hpc hfits =>
    cases call with
    | registration => rfl
    | _ => simp [hpc, Pc.isCritical] at hout
  | logged hpc => simp [hpc, Pc.isCritical] at hout
  | _ => rfl

def Reported (s : Producer) : Prop :=
  memoryWrites s.history = reports s.history ++ s.threads.filterMap unreported

theorem reported_live {algorithm : Algorithm} {s t : Producer} (hwell : WellFormed s)
    (h : Reported s) (hstep : Live algorithm s t) : Reported t := by
  unfold Reported at h ⊢
  cases hstep with
  | @create processId processSize delay hfresh hpos =>
    have hnone : unreported (Thread.start ⟨s.threads.length, processId, processSize, delay⟩) =
      none := rfl
    simpa [create, List.filterMap_cons, hnone] using h
  | @move i thread thread' shared' events hi hmove =>
    have hevents := unreported_move hmove
    have hwrites : memoryWrites (s.history ++ events.map (Prod.mk thread.worker)) =
        memoryWrites s.history ++ memoryWrites (events.map (Prod.mk thread.worker)) :=
      List.filterMap_append
    have hreports : reports (s.history ++ events.map (Prod.mk thread.worker)) =
        reports s.history ++ reports (events.map (Prod.mk thread.worker)) :=
      List.filterMap_append
    simp only [moved, hwrites, hreports, h]
    rcases filterMap_move unreported_of_not_critical hwell hi hmove with
      ⟨hbefore, hafter⟩ | ⟨hout, hout', hsame⟩
    · rw [hbefore, hafter, List.append_assoc, hevents, List.append_assoc]
    · rw [unreported_of_not_critical _ hout, unreported_of_not_critical _ hout',
        memoryWrites_outside hmove hout] at hevents
      have hnone : reports (events.map (Prod.mk thread.worker)) = [] := by simpa using hevents.symm
      rw [hsame, memoryWrites_outside hmove hout, hnone, List.append_nil, List.append_nil]

theorem reported_of_reachable {algorithm : Algorithm} {schema : CString} {s : Producer}
    (h : Reachable algorithm schema s) : Reported s :=
  reachable_induction
    (fun _ ⟨_, _, _, hthreads, hhistory, _⟩ => by
      rw [Reported, hthreads, hhistory]
      rfl)
    (fun _ _ _ hwell _ hP hstep => reported_live hwell hP hstep) (fun _ _ _ _ _ _ _ _ hP => hP) h

@[simp] theorem isWarn_rejected (worker : Worker) :
    (slogLine worker .rejected).isWarn = true := rfl

@[simp] theorem isWarn_admitted (worker : Worker) (k : Nat) :
    (slogLine worker (.admitted k)).isWarn = false := rfl

@[simp] theorem isWarn_returned (worker : Worker) (k : Nat) :
    (slogLine worker (.returned k)).isWarn = false := rfl

/-- The lines that are no warnings are the reports. -/
theorem log_filter_eq_reports (history : List (Worker × Event)) :
    (log history).filter (fun line => !line.2.isWarn) =
      (reports history).map fun report => (report.1, slogLine report.1 report.2) := by
  induction history with
  | nil => rfl
  | cons entry rest ih =>
    obtain ⟨worker, event⟩ := entry
    unfold log reports at ih ⊢
    cases event with
    | logged outcome => cases outcome <;> simp [ih]
    | _ => simpa using ih

/-! ## The sizes on the lines -/

/-- The sizes of the ASIG lines less the sizes of the DEVO lines. -/
def balance (lines : List (Worker × LogLine)) : Int :=
  (lines.map fun line => line.2.asigSize).sum - (lines.map fun line => line.2.devoSize).sum

/-- The size of a worker that has been reported in and not reported out. -/
def reportedSize (thread : Thread) : Option Int :=
  match thread.pc with
  | .semPost (.admitted _) | .sleeping _ | .semWait (.devolution _) | .reading (.devolution _) _
  | .writing (.devolution _) _ | .slog (.returned _) => some thread.worker.processSize
  | _ => none

theorem balance_append (lines more : List (Worker × LogLine)) :
    balance (lines ++ more) = balance lines + balance more := by
  simp only [balance, List.map_append, List.sum_append]
  omega

theorem balance_move {algorithm : Algorithm} {thread thread' : Thread} {shared shared' : Shared}
    {events : List Event} (h : Move algorithm thread shared thread' shared' events) :
    (reportedSize thread).toList.sum + balance (log (events.map (Prod.mk thread.worker))) =
      (reportedSize thread').toList.sum := by
  cases h with
  | @opened call hpc hsize => cases call <;> simp [reportedSize, hpc, Thread.at, log, balance]
  | @loaded call stSize hpc hextent =>
    cases call with
    | placement =>
      simp only [afterRead]
      split <;> simp [reportedSize, hpc, Thread.at, log, balance]
    | _ => simp [reportedSize, hpc, afterRead, Thread.at, log, balance]
  | @truncated call text hpc => cases call <;> simp [reportedSize, hpc, Thread.at, log, balance]
  | @stretched call text hpc => cases call <;> simp [reportedSize, hpc, Thread.at, log, balance]
  | @copied call text hpc hfits =>
    cases call <;> simp [reportedSize, hpc, Thread.at, afterWrite, log, balance]
  | @acquired critical value hpc hvalue =>
    cases critical <;> simp [reportedSize, hpc, Thread.at, afterWait, log, balance]
  | @logged outcome hpc =>
    cases outcome <;>
      simp [reportedSize, hpc, Thread.at, log, balance, slogLine, LogLine.asigSize, LogLine.devoSize]
  | @released outcome hpc =>
    cases outcome <;> simp [reportedSize, hpc, Thread.at, afterPost, log, balance]
  | @woken memIndex hpc => simp [reportedSize, hpc, Thread.at, log, balance]

def Balanced (s : Producer) : Prop :=
  balance (log s.history) = ((s.threads.filterMap reportedSize : List Int) : Multiset Int).sum

theorem balanced_live {algorithm : Algorithm} {s t : Producer} (h : Balanced s)
    (hstep : Live algorithm s t) : Balanced t := by
  unfold Balanced at h ⊢
  cases hstep with
  | @create processId processSize delay hfresh hpos =>
    have hnone : reportedSize (Thread.start ⟨s.threads.length, processId, processSize, delay⟩) =
      none := rfl
    simpa [create, List.filterMap_cons, hnone] using h
  | @move i thread thread' shared' events hi hmove =>
    have hevents := balance_move hmove
    have hlog : log (s.history ++ events.map (Prod.mk thread.worker)) =
        log s.history ++ log (events.map (Prod.mk thread.worker)) := List.filterMap_append
    have hset := congrArg Multiset.sum (coe_filterMap_set reportedSize hi thread')
    simp only [Multiset.sum_add, Multiset.sum_coe] at hset h ⊢
    simp only [moved, hlog, balance_append, h]
    omega

theorem balanced_of_reachable {algorithm : Algorithm} {schema : CString} {s : Producer}
    (h : Reachable algorithm schema s) : Balanced s :=
  reachable_induction
    (fun _ ⟨_, _, _, hthreads, hhistory, _⟩ => by
      rw [Balanced, hthreads, hhistory]
      rfl)
    (fun _ _ _ _ _ hP hstep => balanced_live hP hstep) (fun _ _ _ _ _ _ _ _ hP => hP) h

/-- Between critical sections the workers reported in are the residents. -/
theorem reported_eq_residents {algorithm : Algorithm} {frames : List Frame} {s : Producer}
    {a : Books} (h : Refines algorithm frames s a) (hbetween : BetweenSections s) :
    ((s.threads.filterMap reportedSize : List Int) : Multiset Int) =
      a.residents.map (·.process.size) := by
  rw [h.residents, Multiset.map_coe, List.map_filterMap]
  congr 1
  refine List.filterMap_congr fun thread hthread => ?_
  have hout := hbetween thread hthread
  unfold reportedSize residentOf
  cases hpc : thread.pc with
  | reading call stage => cases call <;> simp [hpc, Pc.isCritical, Pc.residence, processOf] at hout ⊢
  | writing call stage => cases call <;> simp [hpc, Pc.isCritical, Pc.residence] at hout ⊢
  | semWait critical => cases critical <;> simp [Pc.residence, processOf]
  | slog outcome => simp [hpc, Pc.isCritical] at hout
  | semPost outcome => simp [hpc, Pc.isCritical] at hout
  | sleeping k => simp [Pc.residence, processOf]
  | finished => simp [Pc.residence]

theorem totalFreeSpace_memory {frames : List Frame} {partitions : List (Partition Nat)}
    (h : Framed frames partitions) :
    totalFreeSpace (some (memoryValue frames partitions)) =
      (partitions.map Partition.freeSpace).sum := by
  rw [totalFreeSpace, partitionCount_memory h]
  congr 1
  refine List.ext_getElem (by simp) fun i hi hi' => ?_
  rw [List.getElem_map, List.getElem_range, List.getElem_map]
  obtain ⟨frame, p, -, hp, -, hat⟩ := exists_partition h (by simpa using hi)
  rw [(freeSpaceIn_of_partitionAt hat).1]
  exact congrArg Partition.freeSpace (List.getElem?_eq_some_iff.mp hp).2.symm

/-! ## The lines of one worker -/

def linesOf (history : List (Worker × Event)) (worker : Worker) : List LogLine :=
  (log history).filterMap fun line => if line.1 = worker then some line.2 else none

theorem linesOf_eq_trail (history : List (Worker × Event)) (worker : Worker) :
    linesOf history worker = (trail history worker).filterMap fun
      | .logged outcome => some (slogLine worker outcome)
      | _ => none := by
  induction history with
  | nil => rfl
  | cons entry rest ih =>
    obtain ⟨other, event⟩ := entry
    unfold linesOf log trail at ih ⊢
    by_cases hsame : other = worker
    · subst hsame
      cases event <;> simp [isMark, ih]
    · cases event <;> simp [hsame, ih]

/-- The lines of a worker, as far as it has got: WARN, or ASIG and DEVO with one size,
DEVO naming the partition the admission was written to. -/
def LinesAgree (history : List (Worker × Event)) (worker : Worker) : Prop :=
  linesOf history worker <+: [.warn worker.processId] ∨
  ∃ k, linesOf history worker <+:
      [.asig worker.processId worker.processSize worker.processDelay,
        .devo worker.processId worker.processSize k] ∧
    ∀ j, (worker, .wrote (.admission j)) ∈ history → j = k

theorem linesAgree_of_follows {history : List (Worker × Event)} {worker : Worker} {pc : Pc}
    (h : Follows (trail history worker) pc) : LinesAgree history worker := by
  rcases prefix_of_follows h with hrejected | ⟨k, hadmitted⟩
  · left
    rw [linesOf_eq_trail]
    exact hrejected.filterMap _
  · right
    refine ⟨k, ?_, ?_⟩
    · rw [linesOf_eq_trail]
      exact hadmitted.filterMap _
    · intro j hj
      have hmem := hadmitted.subset ((mem_trail rfl).mpr hj)
      simpa [admittedPath, returnedTrail, residentTrail, admittedTrail, enteredTrail] using hmem

/-! ## Results -/

/-- Between critical sections the log accounts for the memory: its sizes make up the
free space that is gone, its ASIG and DEVO lines are the writes in their order, and
each worker has written its own lines and no others. -/
theorem log_agrees (algorithm : Algorithm) {schema : CString} (hschema : InitialMemory schema)
    {s : Producer} (hs : Reachable algorithm schema s) (hbetween : BetweenSections s) :
    (totalFreeSpace (memoryContents s) = totalFreeSpace (jsonParseString schema) -
      ((log s.history).map fun line => line.2.asigSize).sum +
      ((log s.history).map fun line => line.2.devoSize).sum) ∧
    (log s.history).filter (fun line => !line.2.isWarn) =
      (memoryWrites s.history).map (fun write => (write.1, slogLine write.1 write.2)) ∧
    ∀ thread ∈ s.threads, LinesAgree s.history thread.worker := by
  obtain ⟨frames, hframed, hparse⟩ := initialMemory_frames hschema
  obtain ⟨a, ha⟩ := simulated_of_reachable hframed hparse hs
  refine ⟨?_, ?_, fun thread hthread => linesAgree_of_follows
    ((tracked_of_reachable hs).follows thread hthread)⟩
  · have hquiet := quiet_of_between hbetween
    have htotal := a.total_conserved
    have hinitial := (unoccupied frames).total_conserved
    have hbalance := balanced_of_reachable hs
    rw [Balanced, reported_eq_residents ha.refines hbetween, balance] at hbalance
    rw [ha.refines.framed.sizes] at htotal
    rw [hframed.sizes] at hinitial
    rw [memoryContents_of_quiet ha.refines hquiet, totalFreeSpace_memory ha.refines.framed, hparse,
      totalFreeSpace_memory hframed]
    simp only [unoccupied, Allocator.empty, Multiset.map_zero, Multiset.sum_zero, add_zero]
      at hinitial ⊢
    omega
  · have hreported := reported_of_reachable hs
    have hnone : s.threads.filterMap unreported = [] := List.filterMap_eq_nil_iff.mpr
      fun thread hthread => unreported_of_not_critical thread (hbetween thread hthread)
    rw [Reported, hnone, List.append_nil] at hreported
    rw [log_filter_eq_reports, hreported]

/-- Two workers are asleep, each with its ASIG line. -/
theorem log_agrees_asleep : ∃ s, s.threads.length = 2 ∧
    (∀ thread ∈ s.threads, (thread.worker, .asig thread.worker.processId 1 thread.worker.processDelay) ∈
      log s.history) ∧
    (totalFreeSpace (memoryContents s) = totalFreeSpace (jsonParseString (schemaOf wide)) -
      ((log s.history).map fun line => line.2.asigSize).sum +
      ((log s.history).map fun line => line.2.devoSize).sum) ∧
    (log s.history).filter (fun line => !line.2.isWarn) =
      (memoryWrites s.history).map (fun write => (write.1, slogLine write.1 write.2)) ∧
    ∀ thread ∈ s.threads, LinesAgree s.history thread.worker := by
  obtain ⟨s, hasleep⟩ := asleep_of_le 2 (by decide)
  exact ⟨s, hasleep.count, fun thread hthread => logged_of_asleep hasleep hthread,
    log_agrees .firstFit (initialMemory_schemaOf (by decide)) (reachable_of_when hasleep.reachable)
      (between_of_asleep hasleep)⟩

end DynamicPartitions.Properties.Log
