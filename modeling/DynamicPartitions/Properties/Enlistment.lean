import DynamicPartitions.Program.Calls
import DynamicPartitions.Program.Observation
import DynamicPartitions.Refinement.WaitingList
import DynamicPartitions.Properties.Conservation

/-!
# The waiting list

With every call on the waiting list taken whole, the file is always that of a roster.
The roster is the set of waiting workers as long as no worker writes a list that has
changed since it read it, and no full one.
-/
namespace DynamicPartitions.Properties.Enlistment

open DynamicPartitions.Lib.Table
open DynamicPartitions.Lib.Update
open DynamicPartitions.Parson.Value
open DynamicPartitions.Parson.Acceptance
open DynamicPartitions.Abstract.Rosters
open DynamicPartitions.Program.Algorithms
open DynamicPartitions.Program.MappedFile
open DynamicPartitions.Program.WorkerThread
open DynamicPartitions.Program.Threads
open DynamicPartitions.Program.Moves
open DynamicPartitions.Program.Exclusion
open DynamicPartitions.Program.Calls
open DynamicPartitions.Program.Observation
open DynamicPartitions.Refinement.Representation
open DynamicPartitions.Refinement.Memory
open DynamicPartitions.Refinement.WaitingList
open DynamicPartitions.Properties.Conservation

/-! ## What a worker is about to write -/

/-- A worker about to write the list computed its text from a list it read. -/
def Prepared (thread : Thread) : Prop :=
  match thread.pc with
  | .reading .registration stage | .reading .removal stage => stage = .opening
  | .writing .registration stage => ∃ q : Waiting, thread.dataWaiting = some (waitingText q) ∧
      stage = .opening (some (compact (waitingValue (q.enlist thread.worker.processId))))
  | .writing .removal stage => ∃ q : Waiting, thread.dataWaiting = some (waitingText q) ∧
      stage = .opening (some (compact (waitingValue (q.strike thread.worker.processId))))
  | _ => True

/-- What a move does to the list: nothing, or a worker enlists or is struck off, in the
list it read. -/
inductive Change (r : Waiting) (thread thread' : Thread) : Waiting → Prop
  | same (h : thread'.pc.isEnlisted = thread.pc.isEnlisted) : Change r thread thread' r
  | enlisted {q : Waiting} {text : Option CString}
      (hpc : thread.pc = .writing .registration (.opening text))
      (hread : thread.dataWaiting = some (waitingText q))
      (hafter : thread'.pc.isEnlisted = true) :
      Change r thread thread' (q.enlist thread.worker.processId)
  | struck {q : Waiting} {text : Option CString}
      (hpc : thread.pc = .writing .removal (.opening text))
      (hread : thread.dataWaiting = some (waitingText q))
      (hafter : thread'.pc.isEnlisted = false) :
      Change r thread thread' (q.strike thread.worker.processId)

theorem reprint_waitingFile (r : Waiting) :
    reprint (cString (waitingFile r)) = some (waitingText r) := by
  rw [cString_waitingFile]
  exact reprint_compact (canonical_waitingValue r)

/-- A complete file has one value. -/
theorem pretty_of_waitingFile {r : Waiting} {value : JsonValue} (hvalue : Canonical value)
    (h : waitingFile r = stored (compact value)) : pretty value = waitingText r := by
  have hreprint := reprint_waitingFile r
  rw [h, cString_stored_compact, reprint_compact hvalue] at hreprint
  exact Option.some.inj hreprint

/-- A move that is no part of a call on the list leaves it alone. -/
theorem list_of_move {algorithm : Algorithm} {thread thread' : Thread} {shared shared' : Shared}
    {events : List Event}
    (hread : ∀ call stage, thread.pc = .reading call stage → call.file = .memory)
    (hwrite : ∀ call stage, thread.pc = .writing call stage → call.file = .memory)
    (h : Move algorithm thread shared thread' shared' events) :
    shared'.processesOnWaiting = shared.processesOnWaiting ∧ Prepared thread' ∧
      thread'.pc.isEnlisted = thread.pc.isEnlisted := by
  cases h with
  | @opened call hpc hsize =>
    have hfile := hread _ _ hpc
    cases call <;> simp [ReadCall.file] at hfile <;>
      exact ⟨rfl, trivial, by simp [hpc, Thread.at, Pc.isEnlisted]⟩
  | @loaded call stSize hpc hextent =>
    have hfile := hread _ _ hpc
    cases call with
    | registration => simp [ReadCall.file] at hfile
    | removal => simp [ReadCall.file] at hfile
    | placement =>
      refine ⟨rfl, ?_⟩
      simp only [afterRead]
      split <;> exact ⟨trivial, by simp [hpc, Thread.at, Pc.isEnlisted]⟩
    | devolution k => exact ⟨rfl, trivial, by simp [hpc, afterRead, Thread.at, Pc.isEnlisted]⟩
  | @truncated call text hpc | @stretched call text hpc =>
    have hfile := hwrite _ _ hpc
    cases call <;> simp [WriteCall.file] at hfile <;>
      exact ⟨rfl, trivial, by simp [hpc, Thread.at, Pc.isEnlisted]⟩
  | @copied call text hpc hfits =>
    have hfile := hwrite _ _ hpc
    cases call <;> simp [WriteCall.file] at hfile <;>
      exact ⟨rfl, trivial, by simp [hpc, Thread.at, afterWrite, Pc.isEnlisted]⟩
  | @acquired critical value hpc hvalue =>
    cases critical
    · exact ⟨rfl, rfl, by simp [hpc, Thread.at, afterWait, Pc.isEnlisted]⟩
    · exact ⟨rfl, trivial, by simp [hpc, Thread.at, afterWait, Pc.isEnlisted]⟩
  | @logged outcome hpc => exact ⟨rfl, trivial, by simp [hpc, Thread.at, Pc.isEnlisted]⟩
  | @released outcome hpc =>
    cases outcome <;> exact ⟨rfl, trivial, by simp [hpc, Thread.at, afterPost, Pc.isEnlisted]⟩
  | @woken memIndex hpc => exact ⟨rfl, trivial, by simp [hpc, Thread.at, Pc.isEnlisted]⟩

theorem memory_of_not_whole {whole : FileName → Bool} (hwhole : whole .processesOnWaiting = true)
    {file : FileName} (h : whole file = false) : file = .memory := by
  cases file with
  | memory => rfl
  | processesOnWaiting => simp [hwhole] at h

theorem change_of_callMove {whole : FileName → Bool} {algorithm : Algorithm}
    {thread thread' : Thread} {shared shared' : Shared} {events : List Event} {r : Waiting}
    (hwhole : whole .processesOnWaiting = true) (hfile : shared.processesOnWaiting = waitingFile r)
    (hprepared : Prepared thread)
    (h : CallMove whole algorithm thread shared thread' shared' events) :
    Prepared thread' ∧ ∃ r', shared'.processesOnWaiting = waitingFile r' ∧ Change r thread thread' r' := by
  cases h with
  | @read call value hcall hpc hvalue hcontent =>
    cases call with
    | registration =>
      have htext := pretty_of_waitingFile hvalue (hfile.symm.trans hcontent)
      refine ⟨⟨r, congrArg some htext, ?_⟩, r, hfile, .same (by simp [hpc, afterRead, Pc.isEnlisted])⟩
      rw [htext, registration_waitingText]
      rfl
    | removal =>
      have htext := pretty_of_waitingFile hvalue (hfile.symm.trans hcontent)
      refine ⟨⟨r, congrArg some htext, ?_⟩, r, hfile, .same (by simp [hpc, afterRead, Pc.isEnlisted])⟩
      rw [htext, removal_waitingText]
      rfl
    | placement =>
      simp only [afterRead]
      split
      · exact ⟨trivial, r, hfile, .same (by simp [hpc, Thread.at, Pc.isEnlisted])⟩
      · exact ⟨trivial, r, hfile, .same (by simp [hpc, Thread.at, Pc.isEnlisted])⟩
    | devolution k =>
      exact ⟨trivial, r, hfile, .same (by simp [hpc, afterRead, Thread.at, Pc.isEnlisted])⟩
  | @write call text hcall hpc =>
    cases call with
    | registration =>
      simp only [Prepared, hpc, WriteStage.opening.injEq, Option.some.injEq] at hprepared
      obtain ⟨q, hread, rfl⟩ := hprepared
      exact ⟨trivial, _, rfl, .enlisted hpc hread rfl⟩
    | removal =>
      simp only [Prepared, hpc, WriteStage.opening.injEq, Option.some.injEq] at hprepared
      obtain ⟨q, hread, rfl⟩ := hprepared
      exact ⟨trivial, _, rfl, .struck hpc hread rfl⟩
    | admission k =>
      exact ⟨trivial, r, hfile, .same (by simp [hpc, afterWrite, Thread.at, Pc.isEnlisted])⟩
    | devolution k =>
      exact ⟨trivial, r, hfile, .same (by simp [hpc, afterWrite, Thread.at, Pc.isEnlisted])⟩
  | other hread hwrite hmove =>
    obtain ⟨hsame, hprepared', henlisted⟩ := list_of_move
      (fun call stage hpc => memory_of_not_whole hwhole (hread call stage hpc))
      (fun call stage hpc => memory_of_not_whole hwhole (hwrite call stage hpc)) hmove
    exact ⟨hprepared', r, hsame.trans hfile, .same henlisted⟩

/-! ## Every state has a roster -/

/-- The file is that of the roster, and nobody is inside a call on it. -/
structure Listed (s : Producer) (r : Waiting) : Prop where
  file : s.shared.processesOnWaiting = waitingFile r
  prepared : ∀ thread ∈ s.threads, Prepared thread

/-- The roster names the workers between their registration and their removal write. -/
def Exact (s : Producer) (r : Waiting) : Prop :=
  ∀ id, id ∈ r.ids ↔ ∃ thread ∈ s.threads, thread.pc.isEnlisted = true ∧ thread.worker.processId = id

theorem listed_create {s : Producer} {r : Waiting} (h : Listed s r) (processId : Nat)
    (processSize processDelay : Int) : Listed (create s processId processSize processDelay) r := by
  refine ⟨h.file, fun thread hthread => ?_⟩
  rcases List.mem_append.mp hthread with hold | hnew
  · exact h.prepared thread hold
  · rw [List.mem_singleton.mp hnew]
    rfl

theorem exact_create {s : Producer} {r : Waiting} (h : Exact s r) (processId : Nat)
    (processSize processDelay : Int) : Exact (create s processId processSize processDelay) r := by
  intro id
  rw [h id]
  constructor
  · rintro ⟨thread, hthread, hin, hid⟩
    exact ⟨thread, List.mem_append_left _ hthread, hin, hid⟩
  · rintro ⟨thread, hthread, hin, hid⟩
    rcases List.mem_append.mp hthread with hold | hnew
    · exact ⟨thread, hold, hin, hid⟩
    · rw [List.mem_singleton.mp hnew] at hin
      exact absurd hin (by simp [Thread.start, Pc.isEnlisted])

section Step

variable {whole : FileName → Bool} {algorithm : Algorithm} {s : Producer} {r : Waiting} {i : Nat}
  {thread thread' : Thread} {shared' : Shared} {events : List Event}

theorem listed_move (hwhole : whole .processesOnWaiting = true) (h : Listed s r)
    (hi : s.threads[i]? = some thread)
    (hmove : CallMove whole algorithm thread s.shared thread' shared' events) :
    ∃ r', Listed (moved s i thread thread' shared' events) r' ∧ Change r thread thread' r' := by
  obtain ⟨hprepared, r', hfile, hchange⟩ := change_of_callMove hwhole h.file
    (h.prepared thread (List.mem_of_getElem? hi)) hmove
  refine ⟨r', ⟨hfile, fun other hother => ?_⟩, hchange⟩
  obtain ⟨j, hj⟩ := List.mem_iff_getElem?.mp hother
  rcases getElem?_set_cases hj with ⟨rfl, rfl⟩ | ⟨-, hold⟩
  · exact hprepared
  · exact h.prepared other (List.mem_of_getElem? hold)

/-- A worker that writes a list that has not changed since it read it, and is not full if
it enlists, lists what it should. -/
theorem exact_of_change (hwell : WellFormed s) (h : Exact s r) (hi : s.threads[i]? = some thread)
    (hmove : CallMove whole algorithm thread s.shared thread' shared' events) {r' : Waiting}
    (hchange : Change r thread thread' r')
    (hsame : ∀ q : Waiting, ∀ call text, thread.pc = .writing call (.opening text) →
      call.file = .processesOnWaiting → thread.dataWaiting = some (waitingText q) →
      ∀ id, id ∈ q.ids ↔ id ∈ r.ids)
    (hroom : ∀ q : Waiting, ∀ text, thread.pc = .writing .registration (.opening text) →
      thread.dataWaiting = some (waitingText q) → q.entries.length ≤ tableBound) :
    Exact (moved s i thread thread' shared' events) r' := by
  obtain ⟨hworker, hlive⟩ := callMove_keeps hmove
  intro id
  have hbefore := h id
  rw [exists_mem_iff hi] at hbefore
  simp only [moved]
  rw [exists_mem_set_iff hi, hworker]
  cases hchange with
  | same henlisted => rwa [henlisted]
  | @enlisted q text hpc hread hafter =>
    have hout : thread.pc.isEnlisted = false := by rw [hpc]; rfl
    rw [Roster.mem_enlist (hroom q text hpc hread), hsame q _ text hpc rfl hread id, hbefore, hout,
      hafter]
    simp only [Bool.false_eq_true, false_and, false_or, true_and]
    rw [or_comm, eq_comm]
  | @struck q text hpc hread hafter =>
    have hin : thread.pc.isEnlisted = true := by rw [hpc]; rfl
    rw [Roster.mem_strike, hsame q _ text hpc rfl hread id, hbefore, hin, hafter]
    simp only [true_and, Bool.false_eq_true, false_and, false_or]
    constructor
    · rintro ⟨hid | hother, hne⟩
      · exact absurd hid.symm hne
      · exact hother
    · rintro ⟨j, other, hne, hj, hother, rfl⟩
      refine ⟨.inr ⟨j, other, hne, hj, hother, rfl⟩, ?_⟩
      exact hwell.ids_distinct j i other thread hj hi hne
        (fun hpc' => by simp [hpc', Pc.isEnlisted] at hother) hlive

end Step

/-! ## Results -/

/-- Only the calls on the waiting list are taken whole. -/
def waitingOnly : FileName → Bool
  | .memory => false
  | .processesOnWaiting => true

/-- A worker writes the waiting list while the file still lists whom it has read, and
enlists in a list with room. -/
def UpToDate (s : Producer) (thread : Thread) : Prop :=
  ∀ call text, thread.pc = .writing call (.opening text) → call.file = .processesOnWaiting →
    (∀ name, name ∈ namesIn (parseText thread.dataWaiting) ↔ name ∈ namesIn (waitingContents s)) ∧
    (call = .registration → (namesIn (parseText thread.dataWaiting)).length ≤ tableBound)

/-- The file lists the workers between their registration and their removal write, and
no others. -/
def ListExact (s : Producer) : Prop :=
  ∃ object, waitingContents s = some (.object object) ∧
    ∀ name, name ∈ keys object.entries ↔
      ∃ thread ∈ s.threads, thread.pc.isEnlisted = true ∧ thread.worker.strProcessId = name

theorem namesIn_waitingValue (r : Waiting) : namesIn (some (waitingValue r)) = r.ids.map idName :=
  keys_waiting r

theorem waitingContents_of_listed {s : Producer} {r : Waiting} (h : Listed s r) :
    waitingContents s = some (waitingValue r) := by
  rw [waitingContents, h.file, jsonParseString_waitingFile]

theorem settled_of_listed {s : Producer} {r : Waiting} (h : Listed s r) : Settled waitingOnly s := by
  constructor
  · intro file hwhole
    cases file with
    | memory => simp [waitingOnly] at hwhole
    | processesOnWaiting => exact ⟨waitingValue r, canonical_waitingValue r, h.file⟩
  · intro thread hthread
    have hprepared := h.prepared thread hthread
    cases hpc : thread.pc with
    | reading call stage =>
      cases call with
      | registration | removal =>
        simp only [Prepared, hpc] at hprepared
        rw [hprepared]
        trivial
      | _ => cases stage <;> trivial
    | writing call stage =>
      cases call with
      | registration | removal =>
        simp only [Prepared, hpc] at hprepared
        obtain ⟨q, -, rfl⟩ := hprepared
        trivial
      | _ =>
        cases stage with
        | opening text => cases text <;> trivial
        | _ => trivial
    | _ => trivial

theorem listed_stopped {s : Producer} {r : Waiting} {thread : Thread} {reason : Halt}
    {shared' : Shared} (h : Listed s r) (hhalts : Halts thread s.shared reason shared')
    (hwrite : ∀ call stage, thread.pc = .writing call stage → waitingOnly call.file = false) :
    Listed (stopped s reason shared') r := by
  refine ⟨?_, h.prepared⟩
  rw [← h.file]
  cases hhalts with
  | @null call hpc =>
    have hfile := hwrite _ _ hpc
    cases call <;> simp [waitingOnly, WriteCall.file] at hfile <;> rfl
  | @cut call text hpc hfits =>
    have hfile := hwrite _ _ hpc
    cases call <;> simp [waitingOnly, WriteCall.file] at hfile <;> rfl
  | _ => rfl

/-- In such a run every state has a roster, of exactly the waiting workers. -/
theorem listed_exact {algorithm : Algorithm} {schema : CString} {s : Producer}
    (hs : ReachableWhen waitingOnly UpToDate algorithm schema s) : ∃ r, Listed s r ∧ Exact s r := by
  refine reachableWhen_induction (P := fun s => ∃ r, Listed s r ∧ Exact s r) ?_ ?_ hs
  · rintro s ⟨-, hfile, -, hthreads, -, -⟩
    refine ⟨Roster.empty, ⟨?_, by simp [hthreads]⟩, by simp [Exact, hthreads]⟩
    rw [initMemoryProcessesOnWaiting_roster] at hfile
    exact (Option.some.inj hfile).symm
  · rintro s t hreach ⟨r, hlisted, hexact⟩ hstep
    rcases stepWhen_cases (settled_of_listed hlisted) hstep with
      ⟨processId, processSize, processDelay, -, -, rfl⟩ |
      ⟨i, thread, hi, hguard, ⟨reason, shared', hhalts, rfl, -, hwrite⟩ |
        ⟨thread', shared', events, hmove, rfl⟩⟩
    · exact ⟨r, listed_create hlisted _ _ _, exact_create hexact _ _ _⟩
    · exact ⟨r, listed_stopped hlisted hhalts hwrite, hexact⟩
    · obtain ⟨r', hlisted', hchange⟩ := listed_move rfl hlisted hi hmove
      refine ⟨r', hlisted', exact_of_change (wellFormed_of_reachable hreach) hexact hi hmove
        hchange ?_ ?_⟩
      · intro q call text hpc hfile hread id
        have hnames := (hguard call text hpc hfile).1 (idName id)
        rwa [hread, parseText_waitingText, namesIn_waitingValue, waitingContents_of_listed hlisted,
          namesIn_waitingValue, idName_mem_map, idName_mem_map] at hnames
      · intro q text hpc hread
        have hlength := (hguard .registration text hpc rfl).2 rfl
        rwa [hread, parseText_waitingText, namesIn_waitingValue, List.length_map,
          Roster.length_ids] at hlength

/-- With the calls on the waiting list taken whole, in every run whose registration and
removal writes are up to date the file lists exactly the waiting workers. -/
theorem list_exact (algorithm : Algorithm) {schema : CString} {s : Producer}
    (hs : ReachableWhen waitingOnly UpToDate algorithm schema s) : ListExact s := by
  obtain ⟨r, hlisted, hexact⟩ := listed_exact hs
  refine ⟨_, waitingContents_of_listed hlisted, fun name => ?_⟩
  rw [keys_waiting, List.mem_map]
  constructor
  · rintro ⟨id, hid, rfl⟩
    obtain ⟨thread, hthread, hin, rfl⟩ := (hexact id).mp hid
    exact ⟨thread, hthread, hin, rfl⟩
  · rintro ⟨thread, hthread, hin, rfl⟩
    exact ⟨thread.worker.processId, (hexact _).mpr ⟨thread, hthread, hin, rfl⟩, rfl⟩

/-- A worker reads the empty list and writes itself into it, under any condition that
allows for writes that are up to date. -/
theorem reachable_registered (whole : FileName → Bool) (cond : Producer → Thread → Prop)
    (hwhole : whole .processesOnWaiting = true)
    (hcond : ∀ s thread, UpToDate s thread →
      (∀ k text, thread.pc ≠ .writing (.admission k) (.opening text)) → cond s thread) :
    ∃ s, ReachableWhen whole cond .firstFit (schemaOf tenUnits) s ∧
      s.shared.processesOnWaiting = waitingFile (Roster.empty.enlist 7) ∧
      s.shared.memory = memoryFile tenUnits (unoccupied tenUnits).partitions ∧
      ∃ thread, s.threads = [thread] ∧ thread.pc = .semWait .admission := by
  have hcreated : ReachableWhen whole cond .firstFit (schemaOf tenUnits) (create tenUnitsStart 7 1 30) :=
    (ReachableWhen.start starts_tenUnitsStart).tail
      (.create 30 rfl (by simp [FreshId, tenUnitsStart, startOn]) (by decide))
  have hread := hcreated.read (i := 0) rfl rfl
    (hcond _ _ (fun _ _ hpc => by simp [Thread.start] at hpc) fun _ _ => by simp [Thread.start])
    .registration hwhole rfl (canonical_waitingValue .empty) rfl
  have htext := registration_waitingText ⟨0, 7, 1, 30⟩ .empty
  have hwrite := hread.write (i := 0) rfl rfl (hcond _ _ ?_ ?_) .registration hwhole
    (congrArg (fun text => Pc.writing .registration (.opening text)) htext)
  · exact ⟨_, hwrite, rfl, rfl, _, rfl, rfl⟩
  · have hdata : namesIn (parseText (some (waitingText .empty))) = [] := by
      rw [parseText_waitingText, namesIn_waitingValue]
      rfl
    have hcontents : waitingContents (create tenUnitsStart 7 1 30) = some (waitingValue .empty) :=
      jsonParseString_waitingFile .empty
    intro call text hpc hfile
    constructor
    · intro name
      show name ∈ namesIn (parseText (some (waitingText .empty))) ↔
        name ∈ namesIn (waitingContents (create tenUnitsStart 7 1 30))
      rw [hdata, hcontents, namesIn_waitingValue]
      rfl
    · intro _
      show (namesIn (parseText (some (waitingText .empty)))).length ≤ tableBound
      rw [hdata]
      exact Nat.zero_le _
  · intro k text hpc
    cases hpc

/-- A worker has registered. -/
theorem list_exact_registered : ∃ s, s.shared.processesOnWaiting = waitingFile (Roster.empty.enlist 7) ∧
    (∃ thread, s.threads = [thread] ∧ thread.pc = .semWait .admission) ∧ ListExact s := by
  obtain ⟨s, hs, hfile, -, hthread⟩ :=
    reachable_registered waitingOnly UpToDate rfl fun _ _ hupToDate _ => hupToDate
  exact ⟨s, hfile, hthread, list_exact .firstFit hs⟩

/-! ## A lost registration -/

/-- Two workers that have just been created. -/
def twoWorkers : Producer := create (create tenUnitsStart 7 1 30) 8 1 30

theorem reachable_twoWorkers (whole : FileName → Bool) (cond : Producer → Thread → Prop)
    (algorithm : Algorithm) : ReachableWhen whole cond algorithm (schemaOf tenUnits) twoWorkers := by
  have hone : ReachableWhen whole cond algorithm (schemaOf tenUnits) (create tenUnitsStart 7 1 30) :=
    (ReachableWhen.start starts_tenUnitsStart).tail
      (.create 30 rfl (by simp [FreshId, tenUnitsStart, startOn]) (by decide))
  refine hone.tail (.create 30 rfl ?_ (by decide))
  intro thread hthread _
  obtain rfl := List.mem_singleton.mp hthread
  decide

/-- The first of the two is about to write its registration. -/
theorem first_registering (algorithm : Algorithm) :
    ∃ s thread, ReachableWhen piecewise always algorithm (schemaOf tenUnits) s ∧
      s.halted = none ∧ s.threads = [thread, Thread.start ⟨1, 8, 1, 30⟩] ∧
      thread.pc = .writing .registration
        (.opening (some (compact (waitingValue (Roster.empty.enlist 7))))) := by
  let worker : Worker := ⟨0, 7, 1, 30⟩
  have hextent := extent_complete (waitingValue .empty)
  have hread : registration worker (reprint (cString (waitingFile .empty))) =
      some (compact (waitingValue (Roster.empty.enlist 7))) := by
    rw [reprint_waitingFile, registration_waitingText]
  have hopened := (reachable_twoWorkers piecewise always algorithm).move (i := 0) rfl rfl trivial rfl
    (.opened rfl (stored_ne_nil (compact (waitingValue .empty))))
  have hloaded := hopened.move (i := 0) rfl rfl trivial rfl (.loaded rfl hextent)
  exact ⟨_, _, hloaded, rfl, rfl, congrArg (fun text => Pc.writing .registration (.opening text)) hread⟩

/-- Two workers read the empty list, then both write theirs: the list of the second has
lost the first. -/
theorem registration_lost :
    ¬ ∀ s, ReachableWhen waitingOnly always .firstFit (schemaOf tenUnits) s → ListExact s := by
  intro hclaim
  have hread : ∀ worker : Worker, registration worker (some (pretty (waitingValue .empty))) =
      some (compact (waitingValue (Roster.empty.enlist worker.processId))) := fun worker =>
    registration_waitingText worker .empty
  have h₁ := (reachable_twoWorkers waitingOnly always .firstFit).read (i := 0) rfl rfl trivial
    .registration rfl rfl (canonical_waitingValue .empty) rfl
  have h₂ := h₁.read (i := 1) rfl rfl trivial .registration rfl rfl
    (canonical_waitingValue .empty) rfl
  have h₃ := h₂.write (i := 0) rfl rfl trivial .registration rfl
    (congrArg (fun text => Pc.writing .registration (.opening text)) (hread _))
  have h₄ := h₃.write (i := 1) rfl rfl trivial .registration rfl
    (congrArg (fun text => Pc.writing .registration (.opening text)) (hread _))
  obtain ⟨object, hcontents, hnames⟩ := hclaim _ h₄
  have hobject := (jsonParseString_waitingFile (Roster.empty.enlist 8)).symm.trans hcontents
  obtain rfl := JsonValue.object.inj (Option.some.inj hobject)
  -- the first worker is waiting but not listed
  have hfirst := (hnames (idName 7)).mpr
    ⟨_, List.mem_of_getElem? (i := 0) rfl, rfl, rfl⟩
  rw [keys_waiting, idName_mem_map] at hfirst
  exact absurd hfirst (by decide)

end DynamicPartitions.Properties.Enlistment
