import DynamicPartitions.Refinement.Simulation

/-!
# Every run is a sequential run

The simulation over whole runs: the critical sections that have taken effect, in the
order in which they did, are a sequential run of the allocator, and the state of the
Producer is that of the allocator it ends in.
-/
namespace DynamicPartitions.Refinement.Runs

open DynamicPartitions.Lib.Transition
open DynamicPartitions.Lib.Update
open DynamicPartitions.Parson.Value
open DynamicPartitions.Parson.Parser
open DynamicPartitions.Abstract.Residents
open DynamicPartitions.Program.Algorithms
open DynamicPartitions.Program.MappedFile
open DynamicPartitions.Program.WorkerThread
open DynamicPartitions.Program.Threads
open DynamicPartitions.Program.Moves
open DynamicPartitions.Program.Exclusion
open DynamicPartitions.Refinement.Representation
open DynamicPartitions.Refinement.Memory
open DynamicPartitions.Refinement.Simulation

/-- The Producer and the allocator it stands for. -/
structure Refines (algorithm : Algorithm) (frames : List Frame) (s : Producer) (a : Books) :
    Prop where
  framed : Framed frames a.partitions
  residents : a.residents = (s.threads.filterMap residentOf : Multiset (Resident Nat))
  idle : BetweenSections s → s.shared.memory = memoryFile frames a.partitions
  view : ∀ thread ∈ s.threads, thread.pc.isCritical = true →
    View algorithm frames a.partitions s.shared.memory thread

theorem residentOf_eq_some {thread : Thread} {r : Resident Nat} (h : residentOf thread = some r) :
    thread.pc.residence = some r.index ∧ r.id = thread.worker.processId ∧
      r.process = processOf thread.worker ∧ thread.pc ≠ .finished := by
  obtain ⟨k, hk, rfl⟩ := Option.map_eq_some_iff.mp h
  refine ⟨hk, rfl, rfl, fun hpc => ?_⟩
  simp [hpc, Pc.residence] at hk

section Step

variable {algorithm : Algorithm} {frames : List Frame} {s : Producer} {a : Books} {i : Nat}
  {thread thread' : Thread} {shared' : Shared} {events : List Event}

/-- A worker that moves and is not a resident has an id no resident has. -/
theorem fresh_of_not_resident (hwell : WellFormed s) (h : Refines algorithm frames s a)
    (hi : s.threads[i]? = some thread) (hlive : thread.pc ≠ .finished)
    (hnone : residentOf thread = none) :
    thread.worker.processId ∉ a.residents.map Resident.id := by
  intro hmem
  rw [h.residents, Multiset.map_coe, Multiset.mem_coe] at hmem
  obtain ⟨r, hr, hid⟩ := List.mem_map.mp hmem
  obtain ⟨other, hother, hsome⟩ := List.mem_filterMap.mp hr
  obtain ⟨j, hj⟩ := List.mem_iff_getElem?.mp hother
  obtain ⟨-, hrid, -, hlive'⟩ := residentOf_eq_some hsome
  have hne : i ≠ j := by
    rintro rfl
    rw [hi] at hj
    obtain rfl := Option.some.inj hj
    simp [hnone] at hsome
  exact hwell.ids_distinct i j thread other hi hj hne hlive hlive' (hid.symm.trans hrid)

theorem informed_of_refines (hwell : WellFormed s) (h : Refines algorithm frames s a)
    (hi : s.threads[i]? = some thread)
    (hmove : Move algorithm thread s.shared thread' shared' events)
    (hcrit : thread.pc.isCritical = true ∨ thread'.pc.isCritical = true) :
    Informed algorithm frames a s.shared.memory thread := by
  have hmem := List.mem_of_getElem? hi
  obtain ⟨-, hlive, hheld⟩ := move_keeps hmove
  refine ⟨h.framed, ?_, ?_, fresh_of_not_resident hwell h hi hlive, hwell.size_pos thread hmem⟩
  · cases hc : thread.pc.isCritical with
    | true => exact h.view thread hmem hc
    | false =>
      -- the worker is about to enter, so the semaphore is free
      have hc' : thread'.pc.isCritical = true := hcrit.resolve_left (by simp [hc])
      obtain ⟨value, hvalue⟩ : ∃ value, s.shared.semFindSpace = value + 1 := by
        simp only [held, hc, hc', if_true, Bool.false_eq_true, if_false] at hheld
        exact ⟨shared'.semFindSpace, by omega⟩
      exact (view_of_not_critical hc).mpr (h.idle (between_of_sem hwell hvalue))
  · intro r hr
    rw [h.residents, Multiset.mem_coe]
    exact List.mem_filterMap.mpr ⟨thread, hmem, hr⟩

/-- One move of one worker is at most one request served. -/
theorem refines_move (hwell : WellFormed s) (h : Refines algorithm frames s a)
    (hi : s.threads[i]? = some thread)
    (hmove : Move algorithm thread s.shared thread' shared' events) :
    ∃ b, SequentialRun algorithm a (commits (events.map (Prod.mk thread.worker))) b ∧
      Refines algorithm frames (moved s i thread thread' shared' events) b ∧
      ∀ event ∈ events, Truthful algorithm frames a (thread.worker, event) := by
  have hwell' := wellFormed_move hwell hi hmove
  have hset := getElem?_set_self_of_some hi thread'
  by_cases hcrit : thread.pc.isCritical = true ∨ thread'.pc.isCritical = true
  · obtain ⟨b, hb⟩ := inside_move (informed_of_refines hwell h hi hmove hcrit) hmove
    refine ⟨b, hb.served, ⟨hb.framed, ?_, ?_, ?_⟩, hb.truthful⟩
    · have hresidents := hb.residents
      rw [h.residents, ← coe_filterMap_set residentOf hi thread'] at hresidents
      exact add_right_cancel hresidents
    · intro hbetween
      have hout : thread'.pc.isCritical = false := hbetween thread' (List.mem_of_getElem? hset)
      exact (view_of_not_critical hout).mp hb.view
    · intro other hother hcrit'
      obtain ⟨j, hj⟩ := List.mem_iff_getElem?.mp hother
      rcases getElem?_set_cases hj with ⟨rfl, rfl⟩ | ⟨hne, hold⟩
      · exact hb.view
      · -- another worker inside excludes this one before and after the move
        rcases hcrit with hc | hc
        · exact absurd (critical_unique hwell hold hi hcrit' hc) hne
        · exact absurd (critical_unique hwell' hj hset hcrit' hc) hne
  · rw [not_or, Bool.not_eq_true, Bool.not_eq_true] at hcrit
    obtain ⟨hmemory, hresident, hcommits, htruthful⟩ := outside_move hmove hcrit.1 hcrit.2
    refine ⟨a, hcommits ▸ .nil a, ⟨h.framed, ?_, ?_, ?_⟩, htruthful a frames⟩
    · rw [h.residents]
      exact (coe_filterMap_set_same residentOf hi hresident).symm
    · intro hbetween
      refine hmemory.trans (h.idle fun other hother => ?_)
      obtain ⟨j, hj⟩ := List.mem_iff_getElem?.mp hother
      by_cases hij : i = j
      · subst hij
        rw [hi] at hj
        exact Option.some.inj hj ▸ hcrit.1
      · have hj' : (s.threads.set i thread')[j]? = some other := by
          rwa [List.getElem?_set_ne hij]
        exact hbetween other (List.mem_of_getElem? hj')
    · intro other hother hcrit'
      obtain ⟨j, hj⟩ := List.mem_iff_getElem?.mp hother
      rcases getElem?_set_cases hj with ⟨rfl, rfl⟩ | ⟨-, hold⟩
      · rw [hcrit.2] at hcrit'
        exact absurd hcrit' (by decide)
      · have hview := h.view other (List.mem_of_getElem? hold) hcrit'
        rwa [← hmemory] at hview

theorem refines_create (h : Refines algorithm frames s a) (processId : Nat)
    (processSize processDelay : Int) :
    Refines algorithm frames (create s processId processSize processDelay) a := by
  refine ⟨h.framed, ?_, ?_, ?_⟩
  · have hnone : residentOf (Thread.start ⟨s.threads.length, processId, processSize,
        processDelay⟩) = none := rfl
    simp only [create, List.filterMap_append, List.filterMap_cons, hnone, List.filterMap_nil,
      List.append_nil]
    exact h.residents
  · exact fun hbetween => h.idle fun thread hthread =>
      hbetween thread (List.mem_append_left _ hthread)
  · intro thread hthread hcrit
    rcases List.mem_append.mp hthread with hold | hnew
    · exact h.view thread hold hcrit
    · rw [List.mem_singleton.mp hnew] at hcrit
      exact absurd hcrit (by simp [Thread.start, Pc.isCritical])

/-- A worker only stops the process in a call on the waiting list. -/
theorem touches_of_halts {reason : Halt} (h : Refines algorithm frames s a)
    (hmem : thread ∈ s.threads) (hhalts : Halts thread s.shared reason shared') :
    thread.pc.touches .processesOnWaiting = true := by
  have hview := h.view thread hmem
  have hfile : 0 < (memoryFile frames a.partitions).length := by
    rw [memoryFile, length_stored]
    omega
  cases hhalts with
  | @empty call hpc hsize =>
    cases call with
    | registration => simp [hpc, Pc.touches, ReadCall.file]
    | removal => simp [hpc, Pc.touches, ReadCall.file]
    | _ =>
      simp only [View, hpc, Pc.isCritical, forall_const] at hview
      simp only [ReadCall.file, Shared.content, hview] at hsize
      omega
  | @outside call stSize hpc hextent =>
    cases call with
    | registration => simp [hpc, Pc.touches, ReadCall.file]
    | removal => simp [hpc, Pc.touches, ReadCall.file]
    | _ =>
      simp only [View, hpc, Pc.isCritical, forall_const] at hview
      simp only [ReadCall.file, Shared.content, hview.1, hview.2] at hextent
      exact absurd (extent_complete (memoryValue frames a.partitions)) (Nat.not_le.mpr hextent)
  | @null call hpc =>
    cases call with
    | registration => simp [hpc, Pc.touches, WriteCall.file]
    | removal => simp [hpc, Pc.touches, WriteCall.file]
    | _ => simp [View, Pending, hpc, Pc.isCritical] at hview
  | @cut call text hpc hfits =>
    cases call with
    | registration => simp [hpc, Pc.touches, WriteCall.file]
    | removal => simp [hpc, Pc.touches, WriteCall.file]
    | admission k =>
      simp only [View, Pending, hpc, Pc.isCritical, forall_const] at hview
      obtain ⟨-, hmemory, rfl⟩ := hview
      rw [WriteCall.file, Shared.content, hmemory] at hfits
      exact absurd (fits_zeros _) (Nat.not_le.mpr hfits)
    | devolution k =>
      simp only [View, Pending, hpc, Pc.isCritical, forall_const] at hview
      obtain ⟨hmemory, rfl⟩ := hview
      rw [WriteCall.file, Shared.content, hmemory] at hfits
      exact absurd (fits_zeros _) (Nat.not_le.mpr hfits)

/-- A worker that stops the process has not touched the memory. -/
theorem refines_stopped {reason : Halt} (h : Refines algorithm frames s a)
    (hi : s.threads[i]? = some thread) (hhalts : Halts thread s.shared reason shared') :
    Refines algorithm frames (stopped s reason shared') a := by
  have hmemory : shared'.memory = s.shared.memory := by
    have htouches := touches_of_halts h (List.mem_of_getElem? hi) hhalts
    cases hhalts with
    | @null call hpc =>
      cases call <;> simp [hpc, Pc.touches, WriteCall.file] at htouches <;> rfl
    | @cut call text hpc hfits =>
      cases call <;> simp [hpc, Pc.touches, WriteCall.file] at htouches <;> rfl
    | _ => rfl
  refine ⟨h.framed, h.residents, fun hbetween => ?_, fun other hother hcrit => ?_⟩
  · exact hmemory.trans (h.idle hbetween)
  · rw [stopped, hmemory]
    exact h.view other hother hcrit

end Step

/-! ## Whole runs -/

theorem commits_append (history more : List (Worker × Event)) :
    commits (history ++ more) = commits history ++ commits more := List.filterMap_append

theorem SequentialRun.append {algorithm : Algorithm} {a b c : Books}
    {sections more : List (Worker × Critical)} (h : SequentialRun algorithm a sections b)
    (hmore : SequentialRun algorithm b more c) : SequentialRun algorithm a (sections ++ more) c := by
  unfold SequentialRun
  rw [List.map_append]
  exact Executes.append h hmore

/-- Only the last event of a move can be a commit. -/
theorem commits_before {algorithm : Algorithm} {thread thread' : Thread} {shared shared' : Shared}
    {events : List Event} (h : Move algorithm thread shared thread' shared' events)
    {before after : List (Worker × Event)} {entry : Worker × Event}
    (hsplit : events.map (Prod.mk thread.worker) = before ++ entry :: after) :
    commits before = [] := by
  have hshort : ∀ es : List Event, es.map (Prod.mk thread.worker) = before ++ entry :: after →
      es.length ≤ 1 → commits before = [] := by
    intro es heq hlength
    have hlen := congrArg List.length heq
    simp only [List.length_map, List.length_append, List.length_cons] at hlen
    have hnil : before = [] := List.length_eq_zero_iff.mp (by omega)
    rw [hnil]
    rfl
  cases h with
  | @loaded call stSize hpc hextent =>
    cases call with
    | placement =>
      simp only [afterRead] at hsplit
      split at hsplit
      all_goals
        cases before with
        | nil => rfl
        | cons first rest =>
          simp only [List.map_cons, List.cons_append, List.cons.injEq, List.map_nil] at hsplit
          obtain ⟨rfl, hrest⟩ := hsplit
          cases rest with
          | nil => rfl
          | cons second rest => simp at hrest
    | _ => exact hshort _ hsplit (Nat.le_refl 1)
  | copied => exact hshort _ hsplit (Nat.le_refl 1)
  | acquired => exact hshort _ hsplit (Nat.le_refl 1)
  | logged => exact hshort _ hsplit (Nat.le_refl 1)
  | released => exact hshort _ hsplit (Nat.le_refl 1)
  | _ => exact hshort _ hsplit (Nat.zero_le 1)

/-- A move commits nothing, a release, or the admission attempt of a worker that is
rejected on the spot or ends its admission write. -/
theorem commits_of_move {algorithm : Algorithm} {thread thread' : Thread} {shared shared' : Shared}
    {events : List Event} (h : Move algorithm thread shared thread' shared' events) :
    commits (events.map (Prod.mk thread.worker)) = [] ∨
    (thread.pc.isCritical = true ∧
      ((∃ k, commits (events.map (Prod.mk thread.worker)) = [(thread.worker, .devolution k)]) ∨
        (commits (events.map (Prod.mk thread.worker)) = [(thread.worker, .admission)] ∧
          (.placed none ∈ events ∨
            ∃ k text, thread.pc = .writing (.admission k) (.copying text))))) := by
  cases h with
  | @loaded call stSize hpc hextent =>
    cases call with
    | placement =>
      simp only [afterRead]
      split
      · exact .inr ⟨by simp [hpc, Pc.isCritical], .inr ⟨rfl, .inl (by simp)⟩⟩
      · exact .inl rfl
    | _ => exact .inl rfl
  | @copied call text hpc hfits =>
    cases call with
    | registration => exact .inl rfl
    | removal => exact .inl rfl
    | admission k =>
      exact .inr ⟨by simp [hpc, Pc.isCritical], .inr ⟨rfl, .inr ⟨k, text, hpc⟩⟩⟩
    | devolution k => exact .inr ⟨by simp [hpc, Pc.isCritical], .inl ⟨k, rfl⟩⟩
  | _ => exact .inl rfl

/-- Every event is truthful about the allocator as the commits before it leave it. -/
def TruthfulSoFar (algorithm : Algorithm) (frames : List Frame)
    (before : List (Worker × Event)) (entry : Worker × Event) : Prop :=
  ∃ b, SequentialRun algorithm (unoccupied frames) (commits before) b ∧
    Truthful algorithm frames b entry

structure Simulated (algorithm : Algorithm) (frames : List Frame) (s : Producer) (a : Books) :
    Prop where
  sequential : SequentialRun algorithm (unoccupied frames) (commits s.history) a
  refines : Refines algorithm frames s a
  truthful : EachAfter (TruthfulSoFar algorithm frames) s.history

theorem simulated_start {algorithm : Algorithm} {schema : CString} {frames : List Frame}
    (hframed : Framed frames (unoccupied frames).partitions)
    (hparse : jsonParseString schema = some (memoryValue frames (unoccupied frames).partitions))
    {s : Producer} (h : Starts schema s) : Simulated algorithm frames s (unoccupied frames) := by
  obtain ⟨hmemory, -, -, hthreads, hhistory, -⟩ := h
  refine ⟨?_, ⟨hframed, ?_, ?_, ?_⟩, ?_⟩
  · rw [hhistory]
    exact .nil _
  · rw [hthreads]
    rfl
  · rw [initMemory, initFile_of_parse hparse] at hmemory
    exact fun _ => (Option.some.inj hmemory).symm
  · simp [hthreads]
  · rw [hhistory]
    exact eachAfter_nil _

section Live

variable {algorithm : Algorithm} {frames : List Frame} {s : Producer} {a : Books}

theorem simulated_create (h : Simulated algorithm frames s a) (processId : Nat)
    (processSize processDelay : Int) :
    Simulated algorithm frames (create s processId processSize processDelay) a :=
  ⟨h.sequential, refines_create h.refines _ _ _, h.truthful⟩

theorem simulated_stopped {i : Nat} {thread : Thread} {reason : Halt} {shared' : Shared}
    (h : Simulated algorithm frames s a) (hi : s.threads[i]? = some thread)
    (hhalts : Halts thread s.shared reason shared') :
    Simulated algorithm frames (stopped s reason shared') a :=
  ⟨h.sequential, refines_stopped h.refines hi hhalts, h.truthful⟩

/-- A move, with the requests it serves and what it says about the allocator before it. -/
theorem simulated_move {i : Nat} {thread thread' : Thread} {shared' : Shared}
    {events : List Event} (hwell : WellFormed s) (h : Simulated algorithm frames s a)
    (hi : s.threads[i]? = some thread)
    (hmove : Move algorithm thread s.shared thread' shared' events) :
    ∃ b, SequentialRun algorithm a (commits (events.map (Prod.mk thread.worker))) b ∧
      Simulated algorithm frames (moved s i thread thread' shared' events) b ∧
      ∀ event ∈ events, Truthful algorithm frames a (thread.worker, event) := by
  obtain ⟨b, hserved, hrefines, hevents⟩ := refines_move hwell h.refines hi hmove
  refine ⟨b, hserved, ⟨?_, hrefines, ?_⟩, hevents⟩
  · simp only [moved, commits_append]
    exact SequentialRun.append h.sequential hserved
  · refine h.truthful.append fun before entry after hsplit => ⟨a, ?_, ?_⟩
    · rw [commits_append, commits_before hmove hsplit, List.append_nil]
      exact h.sequential
    · have hentry : entry ∈ events.map (Prod.mk thread.worker) := by
        rw [hsplit]
        exact List.mem_append_right _ List.mem_cons_self
      obtain ⟨event, hevent, rfl⟩ := List.mem_map.mp hentry
      exact hevents event hevent

theorem simulated_live {t : Producer} (hwell : WellFormed s) (h : Simulated algorithm frames s a)
    (hstep : Live algorithm s t) : ∃ b, Simulated algorithm frames t b := by
  cases hstep with
  | create delay hfresh hpos => exact ⟨a, simulated_create h _ _ _⟩
  | move hi hmove =>
    obtain ⟨b, -, hb, -⟩ := simulated_move hwell h hi hmove
    exact ⟨b, hb⟩

end Live

/-- Every reachable state of a Producer is simulated by an allocator. -/
theorem simulated_of_reachable {algorithm : Algorithm} {schema : CString} {frames : List Frame}
    (hframed : Framed frames (unoccupied frames).partitions)
    (hparse : jsonParseString schema = some (memoryValue frames (unoccupied frames).partitions))
    {s : Producer} (h : Reachable algorithm schema s) : ∃ a, Simulated algorithm frames s a :=
  reachable_induction (P := fun s => ∃ a, Simulated algorithm frames s a)
    (fun _ hs => ⟨_, simulated_start hframed hparse hs⟩)
    (fun _ _ _ hwell _ ⟨_, hP⟩ hstep => simulated_live hwell hP hstep)
    (fun _ _ _ _ _ _ hi hhalts ⟨a, hP⟩ => ⟨a, simulated_stopped hP hi hhalts⟩) h

end DynamicPartitions.Refinement.Runs
