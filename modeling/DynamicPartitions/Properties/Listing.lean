import DynamicPartitions.Properties.Enlistment
import DynamicPartitions.Properties.Tables
import DynamicPartitions.Refinement.Display

/-!
# Whom Spy lists

With every call taken whole and both files exact, Spy's two lists together show every
registered worker that has not left, unless one is between its removal write and its
admission write at both of Spy's reads.
-/
namespace DynamicPartitions.Properties.Listing

open Relation (ReflTransGen)
open DynamicPartitions.Lib.Update
open DynamicPartitions.Parson.Value
open DynamicPartitions.Parson.Acceptance
open DynamicPartitions.Abstract.Residents
open DynamicPartitions.Abstract.Accounting
open DynamicPartitions.Abstract.Rosters
open DynamicPartitions.Program.Algorithms
open DynamicPartitions.Program.MappedFile
open DynamicPartitions.Program.WorkerThread
open DynamicPartitions.Program.Threads
open DynamicPartitions.Program.Moves
open DynamicPartitions.Program.Calls
open DynamicPartitions.Program.Observation
open DynamicPartitions.Program.Spy
open DynamicPartitions.Refinement.Representation
open DynamicPartitions.Refinement.Memory
open DynamicPartitions.Refinement.Simulation
open DynamicPartitions.Refinement.Runs
open DynamicPartitions.Refinement.WaitingList
open DynamicPartitions.Refinement.Solo
open DynamicPartitions.Refinement.Display
open DynamicPartitions.Properties.Conservation
open DynamicPartitions.Properties.Enlistment
open DynamicPartitions.Properties.Tables

/-! ## Nobody is inside a call -/

/-- A worker that has read a value has a text to write. -/
theorem atRest_afterRead (algorithm : Algorithm) (thread : Thread) {value : JsonValue}
    (hvalue : Canonical value) (call : ReadCall) :
    AtRest everyCall (afterRead algorithm thread (some (pretty value)) call).1.pc := by
  have hparse : parseText (some (pretty value)) = some value := jsonParseString_pretty hvalue
  cases call with
  | registration =>
    simp only [afterRead, registration, hparse]
    trivial
  | removal =>
    simp only [afterRead, removal, hparse]
    trivial
  | placement =>
    simp only [afterRead]
    split
    · trivial
    · simp only [admission, hparse]
      trivial
  | devolution k =>
    simp only [afterRead, devolution, hparse]
    trivial

theorem atRest_callMove {algorithm : Algorithm} {thread thread' : Thread} {shared shared' : Shared}
    {events : List Event} (h : CallMove everyCall algorithm thread shared thread' shared' events) :
    AtRest everyCall thread'.pc := by
  cases h with
  | read hwhole hpc hvalue hcontent => exact atRest_afterRead algorithm thread hvalue _
  | @write call text hwhole hpc => cases call <;> trivial
  | other hread hwrite hmove =>
    cases hmove with
    | opened hpc => exact absurd (hread _ _ hpc) (by simp [everyCall])
    | loaded hpc => exact absurd (hread _ _ hpc) (by simp [everyCall])
    | truncated hpc => exact absurd (hwrite _ _ hpc) (by simp [everyCall])
    | stretched hpc => exact absurd (hwrite _ _ hpc) (by simp [everyCall])
    | copied hpc => exact absurd (hwrite _ _ hpc) (by simp [everyCall])
    | @acquired critical => cases critical <;> trivial
    | logged hpc => trivial
    | @released outcome => cases outcome <;> trivial
    | woken hpc => trivial

/-- A call is the only place where a worker stops the process. -/
theorem not_halts_outside {thread : Thread} {shared shared' : Shared} {reason : Halt}
    (hread : ∀ call stage, thread.pc = .reading call stage → everyCall call.file = false)
    (hwrite : ∀ call stage, thread.pc = .writing call stage → everyCall call.file = false)
    (h : Halts thread shared reason shared') : False := by
  cases h with
  | empty hpc => exact absurd (hread _ _ hpc) (by simp [everyCall])
  | outside hpc => exact absurd (hread _ _ hpc) (by simp [everyCall])
  | null hpc => exact absurd (hwrite _ _ hpc) (by simp [everyCall])
  | cut hpc => exact absurd (hwrite _ _ hpc) (by simp [everyCall])

theorem quiet_of_resting {s : Producer} (h : ∀ thread ∈ s.threads, AtRest everyCall thread.pc)
    (file : FileName) : Quiet file s := by
  intro thread hthread
  have hrest := h thread hthread
  cases hpc : thread.pc with
  | writing call stage =>
    cases stage with
    | opening text => rfl
    | _ => simp [hpc, AtRest, everyCall] at hrest
  | _ => rfl

section Runs

variable {cond : Producer → Thread → Prop} {algorithm : Algorithm} {schema : CString} {s : Producer}

theorem settled_of_resting {r : Waiting} (hschema : InitialMemory schema)
    (hs : Reachable algorithm schema s) (hlisted : Listed s r)
    (hrest : ∀ thread ∈ s.threads, AtRest everyCall thread.pc) : Settled everyCall s := by
  refine ⟨fun file _ => ?_, hrest⟩
  cases file with
  | memory =>
    obtain ⟨frames, hframed, hparse⟩ := initialMemory_frames hschema
    obtain ⟨a, ha⟩ := simulated_of_reachable hframed hparse hs
    exact ⟨_, canonical_memoryValue a ha.refines.framed,
      memory_of_quiet ha.refines (quiet_of_resting hrest .memory)⟩
  | processesOnWaiting => exact ⟨waitingValue r, canonical_waitingValue r, hlisted.file⟩

/-- Between calls taken whole, nobody is inside one. -/
theorem resting_of_run (hschema : InitialMemory schema)
    (hs : ReachableWhen everyCall cond algorithm schema s) :
    (∃ r, Listed s r) ∧ ∀ thread ∈ s.threads, AtRest everyCall thread.pc := by
  refine reachableWhen_induction (P := fun s => (∃ r, Listed s r) ∧
    ∀ thread ∈ s.threads, AtRest everyCall thread.pc) ?_ ?_ hs
  · rintro s ⟨-, hfile, -, hthreads, -, -⟩
    rw [initMemoryProcessesOnWaiting_roster] at hfile
    exact ⟨⟨Roster.empty, (Option.some.inj hfile).symm, by simp [hthreads]⟩, by simp [hthreads]⟩
  · rintro s t hreach ⟨⟨r, hlisted⟩, hrest⟩ hstep
    rcases stepWhen_cases (settled_of_resting hschema hreach hlisted hrest) hstep with
      ⟨processId, processSize, processDelay, -, -, rfl⟩ |
      ⟨i, thread, hi, -, ⟨reason, shared', hhalts, -, hread, hwrite⟩ |
        ⟨thread', shared', events, hmove, rfl⟩⟩
    · refine ⟨⟨r, listed_create hlisted _ _ _⟩, fun thread hthread => ?_⟩
      rcases List.mem_append.mp hthread with hold | hnew
      · exact hrest thread hold
      · rw [List.mem_singleton.mp hnew]
        trivial
    · exact (not_halts_outside hread hwrite hhalts).elim
    · obtain ⟨r', hlisted', -⟩ := listed_move rfl hlisted hi hmove
      refine ⟨⟨r', hlisted'⟩, fun other hother => ?_⟩
      obtain ⟨j, hj⟩ := List.mem_iff_getElem?.mp hother
      rcases getElem?_set_cases hj with ⟨-, rfl⟩ | ⟨-, hold⟩
      · exact atRest_callMove hmove
      · exact hrest other (List.mem_of_getElem? hold)

end Runs

/-! ## Exact files -/

/-- A worker keeps the waiting list and its table exact. -/
def Careful (s : Producer) (thread : Thread) : Prop := UpToDate s thread ∧ TableHasRoom s thread

/-- The files in a state Spy may read: a roster of exactly the waiting workers, and an
allocator with exact tables. -/
structure OnDisk (algorithm : Algorithm) (frames : List Frame) (s : Producer) (r : Waiting)
    (a : Books) : Prop where
  listed : Listed s r
  waiting : Exact s r
  refines : Refines algorithm frames s a
  tables : a.Exact
  memory : s.shared.memory = memoryFile frames a.partitions

theorem onDisk_of_run {algorithm : Algorithm} {schema : CString} (hschema : InitialMemory schema)
    {s : Producer} (hs : ReachableWhen everyCall Careful algorithm schema s) :
    ∃ frames r a, OnDisk algorithm frames s r a := by
  obtain ⟨frames, hframed, hparse⟩ := initialMemory_frames hschema
  have hquiet := quiet_of_resting (resting_of_run hschema hs).2 .memory
  have hlist : ReachableWhen waitingOnly UpToDate algorithm schema s := by
    refine ReachableWhen.finer ?_ (fun _ _ => rfl) (fun _ _ hcareful => hcareful.1) hs
    intro s thread hmid call text hpc
    simp [hpc, midSteps] at hmid
  have hroom : ReachableWhen piecewise TableHasRoom algorithm schema s := by
    refine ReachableWhen.finer ?_ (fun _ _ => rfl) (fun _ _ hcareful => hcareful.2) hs
    intro s thread hmid k text hpc
    simp [hpc, midSteps] at hmid
  obtain ⟨r, hlisted, hwaiting⟩ := listed_exact hlist
  obtain ⟨a, hsimulated, hrecorded⟩ := recorded_of_run hframed hparse hroom
  exact ⟨frames, r, a, hlisted, hwaiting, hsimulated.refines, hrecorded.exact,
    memory_of_quiet hsimulated.refines hquiet⟩

section OnDisk

variable {algorithm : Algorithm} {frames : List Frame} {s : Producer} {r : Waiting} {a : Books}
  (h : OnDisk algorithm frames s r a)
include h

theorem readWhole_onDisk : readWhole s.shared.processesOnWaiting = .ok (some (waitingText r)) := by
  rw [h.listed.file]
  exact readWhole_waitingFile r

theorem listMemory_onDisk :
    listMemory s.shared.memory = .ok (a.partitions.filterMap tableShown) := by
  rw [h.memory]
  exact listMemory_memoryFile h.refines.framed

/-- A waiting worker is in the text of the list. -/
theorem named_waiting {thread : Thread} (hthread : thread ∈ s.threads)
    (hstanding : standing thread.pc = .waiting) :
    thread.worker.strProcessId ∈ namesIn (parseText (some (waitingText r))) := by
  have hin : thread.pc.isEnlisted = true := isEnlisted_of_standing hstanding
  rw [namesIn_waitingText]
  exact List.mem_map_of_mem ((h.waiting _).mpr ⟨thread, hthread, hin, rfl⟩)

/-- A resident is in the text of a table. -/
theorem named_resident {thread : Thread} (hthread : thread ∈ s.threads)
    (hstanding : standing thread.pc = .resident) :
    ∃ text ∈ a.partitions.filterMap tableShown,
      thread.worker.strProcessId ∈ namesIn (parseText text) := by
  obtain ⟨k, hk⟩ := residence_of_standing hstanding
  have hresident : (⟨thread.worker.processId, processOf thread.worker, k⟩ : Resident Nat) ∈
      a.residents := by
    rw [h.refines.residents, Multiset.mem_coe]
    exact List.mem_filterMap.mpr ⟨thread, hthread, by simp [residentOf, hk]⟩
  obtain ⟨p, hp⟩ : ∃ p, a.partitions[k]? = some p :=
    ⟨_, List.getElem?_eq_getElem (a.index_lt _ hresident)⟩
  have hentry : (thread.worker.processId, processOf thread.worker) ∈ p.processes := by
    rw [← Multiset.mem_coe, h.tables k _ hp]
    exact mem_entriesAt hresident
  exact named_of_mem hp hentry

end OnDisk

/-! ## Results -/

/-- A worker is named in one of the texts Spy prints. -/
def Shown (waiting : Option CString) (tables : List (Option CString)) (worker : Worker) : Prop :=
  worker.strProcessId ∈ namesIn (parseText waiting) ∨
    ∃ table ∈ tables, worker.strProcessId ∈ namesIn (parseText table)

/-- The listing has not brought Spy down, and shows every worker that was past its
registration write at the first read and had not left at the last. -/
structure MissesNobody (inquiry : Inquiry) : Prop where
  stays : ∀ reason, inquiry.spy ≠ .gone reason
  shows : ∀ waiting tables first last, inquiry.spy = .listed waiting tables first last →
    ∀ (i : Nat) (thread thread' : Thread), first.threads[i]? = some thread →
    last.threads[i]? = some thread' → standing thread.pc ≠ .registering →
    standing thread'.pc ≠ .gone → Shown waiting tables thread.worker

/-- No worker is between its removal write and its admission write at both reads. -/
def NobodySearching (first last : Producer) : Prop :=
  ∀ (i : Nat) (thread thread' : Thread), first.threads[i]? = some thread →
    last.threads[i]? = some thread' → standing thread.pc = .searching →
    standing thread'.pc ≠ .searching

/-- What Spy knows: after the first read the list of that moment, after the second also
the tables of that one. -/
def Informative (algorithm : Algorithm) (s : Producer) : InquiryPc → Prop
  | .asked => True
  | .listedWaiting waiting first => ∃ frames r a, OnDisk algorithm frames first r a ∧
      waiting = some (waitingText r) ∧ Further first s
  | .listed waiting tables first last => MissesNobody ⟨s, .listed waiting tables first last⟩
  | .gone _ => False

/-- A worker that was struck off the list before, and is not searching now, has a partition. -/
theorem resident_of_rank {pc pc' : Pc} (hregistered : standing pc ≠ .registering)
    (hstruck : standing pc ≠ .waiting) (hrank : (standing pc).rank ≤ (standing pc').rank)
    (hnobody : standing pc = .searching → standing pc' ≠ .searching) (hhere : standing pc' ≠ .gone) :
    standing pc' = .resident := by
  have hfar : 2 ≤ (standing pc).rank := by
    cases hpc : standing pc with
    | registering => exact absurd hpc hregistered
    | waiting => exact absurd hpc hstruck
    | searching => exact Nat.le_refl 2
    | resident => exact Nat.le_succ 2
    | gone => show 2 ≤ 4; omega
  cases hpc' : standing pc' with
  | registering =>
    have hback : (standing pc').rank = 0 := by rw [hpc']; rfl
    omega
  | waiting =>
    have hback : (standing pc').rank = 1 := by rw [hpc']; rfl
    omega
  | searching =>
    have hthere : (standing pc').rank = 2 := by rw [hpc']; rfl
    have hsame : standing pc = .searching := by
      apply Standing.rank_injective
      show (standing pc).rank = 2
      omega
    exact absurd hpc' (hnobody hsame)
  | resident => rfl
  | gone => exact absurd hpc' hhere

theorem shown_of_reads {algorithm : Algorithm} {frames frames' : List Frame} {first last : Producer}
    {r r' : Waiting} {a a' : Books} (hfirst : OnDisk algorithm frames first r a)
    (hlast : OnDisk algorithm frames' last r' a') (hfurther : Further first last)
    (hnobody : NobodySearching first last) {i : Nat} {thread thread' : Thread}
    (hi : first.threads[i]? = some thread) (hi' : last.threads[i]? = some thread')
    (hregistered : standing thread.pc ≠ .registering) (hhere : standing thread'.pc ≠ .gone) :
    Shown (some (waitingText r)) (a'.partitions.filterMap tableShown) thread.worker := by
  obtain ⟨other, hother, hworker, hrank⟩ := hfurther i thread hi
  obtain rfl := Option.some.inj (hi'.symm.trans hother)
  by_cases hwaiting : standing thread.pc = .waiting
  · exact .inl (named_waiting hfirst (List.mem_of_getElem? hi) hwaiting)
  · have hresident := resident_of_rank hregistered hwaiting hrank (hnobody i thread thread' hi hi') hhere
    obtain ⟨table, htable, hname⟩ := named_resident hlast (List.mem_of_getElem? hi') hresident
    exact .inr ⟨table, htable, hworker ▸ hname⟩

section Step

variable {algorithm : Algorithm} {schema : CString} {inquiry inquiry' : Inquiry}

theorem informative_step (hschema : InitialMemory schema)
    (hs : ReachableWhen everyCall Careful algorithm schema inquiry.producer)
    (h : Informative algorithm inquiry.producer inquiry.spy)
    (hstep : InquiryStep Careful NobodySearching algorithm inquiry inquiry') :
    ReachableWhen everyCall Careful algorithm schema inquiry'.producer ∧
      Informative algorithm inquiry'.producer inquiry'.spy := by
  obtain ⟨frames', r', a', hdisk⟩ := onDisk_of_run hschema hs
  have hread := readWhole_onDisk hdisk
  have hlist := listMemory_onDisk hdisk
  cases hstep with
  | @producer t hstep =>
    refine ⟨hs.tail hstep, ?_⟩
    cases hspy : inquiry.spy with
    | asked => trivial
    | listedWaiting waiting first =>
      rw [hspy] at h
      obtain ⟨frames, r, a, hfirst, htext, hfurther⟩ := h
      exact ⟨frames, r, a, hfirst, htext, hfurther.trans (further_run (run_of_stepWhen hstep))⟩
    | listed waiting tables first last =>
      rw [hspy] at h
      exact ⟨h.stays, h.shows⟩
    | gone reason =>
      rw [hspy] at h
      exact h.elim
  | @waiting data hasked hdata =>
    rw [hread] at hdata
    exact ⟨hs, frames', r', a', hdisk, (Except.ok.inj hdata).symm, .refl _⟩
  | @memory waiting tables first hwaiting hnobody htables =>
    rw [hwaiting] at h
    obtain ⟨frames, r, a, hfirst, rfl, hfurther⟩ := h
    rw [hlist] at htables
    obtain rfl := Except.ok.inj htables
    refine ⟨hs, by simp, ?_⟩
    rintro _ _ _ _ hspy i thread thread' hi hi' hregistered hhere
    obtain ⟨rfl, rfl, rfl, rfl⟩ := InquiryPc.listed.inj hspy
    exact shown_of_reads hfirst hdisk hfurther hnobody hi hi' hregistered hhere
  | goneAtWaiting hasked hdata =>
    rw [hread] at hdata
    cases hdata
  | goneAtMemory hwaiting hnobody htables =>
    rw [hlist] at htables
    cases htables

end Step

/-- Spy's listing misses nobody while the workers keep both files exact and nobody is
searching at both reads. -/
theorem misses_nobody (algorithm : Algorithm) {schema : CString} (hschema : InitialMemory schema)
    {inquiry : Inquiry} (h : InquiryReachable Careful NobodySearching algorithm schema inquiry) :
    MissesNobody inquiry := by
  obtain ⟨s, hs, hrun⟩ := h
  have hinformative : ReachableWhen everyCall Careful algorithm schema inquiry.producer ∧
      Informative algorithm inquiry.producer inquiry.spy := by
    induction hrun with
    | refl => exact ⟨hs, trivial⟩
    | tail _ hlast ih => exact informative_step hschema ih.1 ih.2 hlast
  obtain ⟨-, hknown⟩ := hinformative
  cases hspy : inquiry.spy with
  | listed waiting tables first last =>
    rw [hspy] at hknown
    exact ⟨by simp [hspy], fun w t f l hequal => hknown.shows w t f l (hspy.symm.trans hequal)⟩
  | gone reason =>
    rw [hspy] at hknown
    exact hknown.elim
  | _ => exact ⟨by simp [hspy], by simp [hspy]⟩

/-- No table of an unoccupied memory is printed. -/
theorem listMemory_tenUnits :
    listMemory (memoryFile tenUnits (unoccupied tenUnits).partitions) = .ok [] := by
  have hframed : Framed tenUnits (unoccupied tenUnits).partitions := framed_unoccupied (by decide)
  rw [listMemory_memoryFile hframed]
  simp [tenUnits, unoccupied, Allocator.empty, tableShown]

/-- It is waiting at both of Spy's reads, and shown. -/
theorem misses_nobody_tenUnits :
    ∃ s, (∃ thread, s.threads = [thread] ∧ standing thread.pc = .waiting) ∧
      MissesNobody ⟨s, .listed (some (waitingText (Roster.empty.enlist 7))) [] s s⟩ := by
  obtain ⟨s, hs, hfile, hmemory, thread, hthreads, hpc⟩ :=
    reachable_registered everyCall Careful rfl fun _ _ hupToDate hnone =>
      ⟨hupToDate, fun k text hpc => absurd hpc (hnone k text)⟩
  have hwaiting : standing thread.pc = .waiting := by rw [hpc]; rfl
  have hlist : listMemory s.shared.memory = .ok [] := by
    rw [hmemory, listMemory_tenUnits]
  have hread : readWhole s.shared.processesOnWaiting =
      .ok (some (waitingText (Roster.empty.enlist 7))) := by
    rw [hfile]
    exact readWhole_waitingFile _
  have hnobody : NobodySearching s s := by
    intro i first last hi _ hsearching
    rw [hthreads] at hi
    obtain rfl := List.mem_singleton.mp (List.mem_of_getElem? hi)
    rw [hwaiting] at hsearching
    cases hsearching
  refine ⟨s, ⟨thread, hthreads, hwaiting⟩, misses_nobody .firstFit (initialMemory_schemaOf (by decide))
    ⟨s, hs, ?_⟩⟩
  exact (ReflTransGen.single (.waiting rfl hread)).tail (.memory rfl hnobody hlist)

/-! ## A worker between its two writes -/

/-- A worker has been struck off the waiting list and not been admitted yet. -/
theorem reachable_searching :
    ∃ s, ReachableWhen everyCall always .firstFit (schemaOf tenUnits) s ∧
      s.shared.processesOnWaiting = waitingFile .empty ∧
      s.shared.memory = memoryFile tenUnits (unoccupied tenUnits).partitions ∧
      ∃ thread, s.threads[0]? = some thread ∧ standing thread.pc = .searching := by
  obtain ⟨thread, hworker, hpc, -, events, hreach⟩ :=
    struck_alone (i := 0) (reachable_twoWorkers everyCall always .firstFit) rfl rfl rfl rfl
  exact ⟨_, hreach, rfl, rfl, thread, rfl, by rw [hpc]; rfl⟩

/-- It is in neither of Spy's lists. -/
theorem searching_unlisted :
    ¬ ∀ inquiry, InquiryReachable always anytime .firstFit (schemaOf tenUnits) inquiry →
      MissesNobody inquiry := by
  intro hclaim
  obtain ⟨s, hs, hfile, hmemory, thread, hi, hsearching⟩ := reachable_searching
  have hread : readWhole s.shared.processesOnWaiting = .ok (some (waitingText .empty)) := by
    rw [hfile]
    exact readWhole_waitingFile .empty
  have hlist : listMemory s.shared.memory = .ok [] := by rw [hmemory, listMemory_tenUnits]
  have hrun : InquiryReachable always anytime .firstFit (schemaOf tenUnits)
      ⟨s, .listed (some (waitingText .empty)) [] s s⟩ :=
    ⟨s, hs, (ReflTransGen.single (.waiting rfl hread)).tail (.memory rfl trivial hlist)⟩
  have hshown := (hclaim _ hrun).shows _ _ _ _ rfl 0 thread thread hi hi (by simp [hsearching])
    (by simp [hsearching])
  rcases hshown with hnamed | ⟨table, htable, -⟩
  · rw [namesIn_waitingText] at hnamed
    exact absurd hnamed List.not_mem_nil
  · exact absurd htable List.not_mem_nil

end DynamicPartitions.Properties.Listing
