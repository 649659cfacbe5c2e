import DynamicPartitions.Properties.Enlistment

/-!
# The Producer does not bring itself down

No worker meets a file it cannot read, as long as no worker accesses the waiting list
while another one is in the middle of writing it. The memory needs no such condition.
-/
namespace DynamicPartitions.Properties.Survival

open Relation (ReflTransGen)
open DynamicPartitions.Lib.Update
open DynamicPartitions.Parson.Value
open DynamicPartitions.Parson.Acceptance
open DynamicPartitions.Abstract.Rosters
open DynamicPartitions.Program.Algorithms
open DynamicPartitions.Program.MappedFile
open DynamicPartitions.Program.WorkerThread
open DynamicPartitions.Program.Threads
open DynamicPartitions.Program.Moves
open DynamicPartitions.Program.Exclusion
open DynamicPartitions.Program.Calls
open DynamicPartitions.Refinement.Representation
open DynamicPartitions.Refinement.Memory
open DynamicPartitions.Refinement.Simulation
open DynamicPartitions.Refinement.Runs
open DynamicPartitions.Refinement.WaitingList
open DynamicPartitions.Properties.Conservation
open DynamicPartitions.Properties.Enlistment

/-! ## What a worker knows of the list it writes -/

/-- The stages of a write of a roster, and what the file holds meanwhile. -/
def ListStage (content : Content) : WriteStage → Prop
  | .opening text => ∃ r : Waiting, text = some (compact (waitingValue r))
  | .stretching text => content = [] ∧ ∃ r : Waiting, text = compact (waitingValue r)
  | .copying text => content = zeros text ∧ ∃ r : Waiting, text = compact (waitingValue r)

def ListView (content : Content) (thread : Thread) : Prop :=
  match thread.pc with
  | .writing .registration stage | .writing .removal stage => ListStage content stage
  | _ => True

/-- Only a worker inside a write looks at the content. -/
theorem listView_congr {content content' : Content} {thread : Thread}
    (hout : thread.pc.isWriting .processesOnWaiting = false) (h : ListView content thread) :
    ListView content' thread := by
  unfold ListView at h ⊢
  split
  · next stage hpc =>
    cases stage with
    | opening text => simpa only [hpc, ListStage] using h
    | _ => simp [hpc, Pc.isWriting, WriteCall.file] at hout
  · next stage hpc =>
    cases stage with
    | opening text => simpa only [hpc, ListStage] using h
    | _ => simp [hpc, Pc.isWriting, WriteCall.file] at hout
  · trivial

/-- What a move comes to for the list: the worker stays out of writes and leaves the
file alone, or it is inside a write now, or it has completed one. -/
inductive Passage (content content' : Content) (thread thread' : Thread) : Prop
  | outside (hsame : content' = content)
      (hbefore : thread.pc.isWriting .processesOnWaiting = false)
      (hafter : thread'.pc.isWriting .processesOnWaiting = false) (hview : ListView content' thread')
  | inside (call : WriteCall) (stage : WriteStage) (hpc : thread.pc = .writing call stage)
      (hfile : call.file = .processesOnWaiting)
      (hafter : thread'.pc.isWriting .processesOnWaiting = true) (hview : ListView content' thread')
  | completed (call : WriteCall) (stage : WriteStage) (hpc : thread.pc = .writing call stage)
      (hfile : call.file = .processesOnWaiting)
      (hafter : thread'.pc.isWriting .processesOnWaiting = false) (hview : ListView content' thread')
      (r : Waiting) (hcontent : content' = waitingFile r)

theorem passage_of_untouched {algorithm : Algorithm} {thread thread' : Thread}
    {shared shared' : Shared} {events : List Event}
    (h : thread.pc.touches .processesOnWaiting = false)
    (hmove : Move algorithm thread shared thread' shared' events) :
    Passage shared.processesOnWaiting shared'.processesOnWaiting thread thread' := by
  cases hmove with
  | @opened call hpc hsize =>
    cases call <;> simp [hpc, Pc.touches, ReadCall.file] at h <;>
      exact .outside rfl (by rw [hpc]; rfl) rfl trivial
  | @loaded call stSize hpc hextent =>
    cases call with
    | placement =>
      refine .outside rfl (by rw [hpc]; rfl) ?_ ?_
      · simp only [afterRead]
        split <;> simp [Thread.at, Pc.isWriting]
      · simp only [afterRead]
        split <;> exact trivial
    | devolution k => exact .outside rfl (by rw [hpc]; rfl) rfl trivial
    | _ => simp [hpc, Pc.touches, ReadCall.file] at h
  | @truncated call text hpc =>
    cases call <;> simp [hpc, Pc.touches, WriteCall.file] at h <;>
      exact .outside rfl (by rw [hpc]; rfl) (by simp [Thread.at, Pc.isWriting, WriteCall.file]) trivial
  | @stretched call text hpc =>
    cases call <;> simp [hpc, Pc.touches, WriteCall.file] at h <;>
      exact .outside rfl (by simp [hpc, Pc.isWriting, WriteCall.file])
        (by simp [Thread.at, Pc.isWriting, WriteCall.file]) trivial
  | @copied call text hpc hfits =>
    cases call <;> simp [hpc, Pc.touches, WriteCall.file] at h <;>
      exact .outside rfl (by simp [hpc, Pc.isWriting, WriteCall.file]) rfl trivial
  | @acquired critical value hpc hvalue =>
    cases critical <;> exact .outside rfl (by rw [hpc]; rfl) rfl trivial
  | logged hpc => exact .outside rfl (by rw [hpc]; rfl) rfl trivial
  | @released outcome hpc =>
    cases outcome <;> exact .outside rfl (by rw [hpc]; rfl) rfl trivial
  | woken hpc => exact .outside rfl (by rw [hpc]; rfl) rfl trivial

/-- A worker that parses the list only while it is complete passes as it should. -/
theorem passage_of_move {algorithm : Algorithm} {thread thread' : Thread} {shared shared' : Shared}
    {events : List Event} (hview : ListView shared.processesOnWaiting thread)
    (hcomplete : ∀ call stSize, thread.pc = .reading call (.mapping stSize) →
      call.file = .processesOnWaiting → ∃ r, shared.processesOnWaiting = waitingFile r)
    (hmove : Move algorithm thread shared thread' shared' events) :
    Passage shared.processesOnWaiting shared'.processesOnWaiting thread thread' := by
  by_cases htouches : thread.pc.touches .processesOnWaiting = false
  · exact passage_of_untouched htouches hmove
  cases hmove with
  | opened hpc hsize => exact .outside rfl (by rw [hpc]; rfl) rfl trivial
  | @loaded call stSize hpc hextent =>
    cases call with
    | registration =>
      obtain ⟨r, hr⟩ := hcomplete _ _ hpc rfl
      refine .outside rfl (by rw [hpc]; rfl) rfl ⟨r.enlist thread.worker.processId, ?_⟩
      simp only [ReadCall.file, Shared.content, hr, reprint_waitingFile, registration_waitingText]
    | removal =>
      obtain ⟨r, hr⟩ := hcomplete _ _ hpc rfl
      refine .outside rfl (by rw [hpc]; rfl) rfl ⟨r.strike thread.worker.processId, ?_⟩
      simp only [ReadCall.file, Shared.content, hr, reprint_waitingFile, removal_waitingText]
    | _ => simp [hpc, Pc.touches, ReadCall.file] at htouches
  | @truncated call text hpc =>
    cases call <;> simp [hpc, Pc.touches, WriteCall.file] at htouches <;>
      simp only [ListView, hpc, ListStage, Option.some.injEq] at hview <;>
      exact .inside _ _ hpc rfl rfl ⟨rfl, hview⟩
  | @stretched call text hpc =>
    cases call <;> simp [hpc, Pc.touches, WriteCall.file] at htouches <;>
      simp only [ListView, hpc, ListStage] at hview <;>
      refine .inside _ _ hpc rfl rfl ⟨?_, hview.2⟩ <;>
      simp only [WriteCall.file, Shared.content, Shared.setContent, hview.1, stretch_nil]
  | @copied call text hpc hfits =>
    cases call <;> simp [hpc, Pc.touches, WriteCall.file] at htouches <;>
      simp only [ListView, hpc, ListStage] at hview <;>
      obtain ⟨hzeros, r, rfl⟩ := hview <;>
      refine .completed _ _ hpc rfl rfl trivial r ?_ <;>
      simp only [WriteCall.file, Shared.content, Shared.setContent, hzeros, strcpy_zeros] <;>
      rfl
  | acquired hpc hvalue => simp [hpc, Pc.touches] at htouches
  | logged hpc => simp [hpc, Pc.touches] at htouches
  | released hpc => simp [hpc, Pc.touches] at htouches
  | woken hpc => simp [hpc, Pc.touches] at htouches

/-! ## An intact state -/

/-- At most one worker is inside a write of the list, the file is as that write has it,
and complete otherwise. -/
structure Intact (s : Producer) : Prop where
  idle : Quiet .processesOnWaiting s → ∃ r, s.shared.processesOnWaiting = waitingFile r
  view : ∀ thread ∈ s.threads, ListView s.shared.processesOnWaiting thread
  single : ∀ (i j : Nat) (thread other : Thread), s.threads[i]? = some thread →
    s.threads[j]? = some other → thread.pc.isWriting .processesOnWaiting = true →
    other.pc.isWriting .processesOnWaiting = true → i = j

/-- A worker accesses the waiting list while no other worker is in the middle of writing
it, opens it for reading while it is not truncated, and maps as much of it as it parses. -/
def Undisturbed (s : Producer) (thread : Thread) : Prop :=
  (∀ call, thread.pc = .reading call .opening → call.file = .processesOnWaiting →
    ∀ other ∈ s.threads, other.pc.hasTruncated .processesOnWaiting = false) ∧
  (∀ call stSize, thread.pc = .reading call (.mapping stSize) → call.file = .processesOnWaiting →
    Quiet .processesOnWaiting s ∧ parseExtent (cString s.shared.processesOnWaiting) ≤ pageUp stSize) ∧
  (∀ call stage, thread.pc = .writing call stage → call.file = .processesOnWaiting →
    ∀ other ∈ s.threads, other.worker ≠ thread.worker →
      other.pc.isWriting .processesOnWaiting = false)

section Step

variable {algorithm : Algorithm} {frames : List Frame} {s : Producer} {a : Books} {i : Nat}
  {thread thread' : Thread} {shared' : Shared} {events : List Event}

theorem intact_create (h : Intact s) (processId : Nat) (processSize processDelay : Int) :
    Intact (create s processId processSize processDelay) := by
  have hstart : ∀ (j : Nat) (other : Thread),
      (create s processId processSize processDelay).threads[j]? = some other →
      s.threads[j]? = some other ∨ other.pc = .reading .registration .opening := by
    intro j other hj
    rcases getElem?_concat_cases hj with hold | ⟨-, rfl⟩
    · exact .inl hold
    · exact .inr rfl
  refine ⟨fun hquiet => h.idle fun thread hthread => hquiet thread (List.mem_append_left _ hthread),
    fun thread hthread => ?_, fun i j thread other hi hj hwriting hwriting' => ?_⟩
  · obtain ⟨j, hj⟩ := List.mem_iff_getElem?.mp hthread
    rcases hstart j thread hj with hold | hpc
    · exact h.view thread (List.mem_of_getElem? hold)
    · simp only [ListView, hpc]
  · rcases hstart i thread hi with hold | hpc
    · rcases hstart j other hj with hold' | hpc
      · exact h.single i j thread other hold hold' hwriting hwriting'
      · simp [hpc, Pc.isWriting] at hwriting'
    · simp [hpc, Pc.isWriting] at hwriting

theorem others_out (hwell : WellFormed s) (hi : s.threads[i]? = some thread)
    (hguard : Undisturbed s thread) {call : WriteCall} {stage : WriteStage}
    (hpc : thread.pc = .writing call stage) (hfile : call.file = .processesOnWaiting) {j : Nat}
    {other : Thread} (hj : s.threads[j]? = some other) (hne : j ≠ i) :
    other.pc.isWriting .processesOnWaiting = false := by
  refine hguard.2.2 call stage hpc hfile other (List.mem_of_getElem? hj) fun hsame => hne ?_
  rw [← hwell.numbered j other hj, ← hwell.numbered i thread hi, hsame]

/-- The only worker in a call that writes the list may change it. -/
theorem intact_of_alone (h : Intact s) (hi : s.threads[i]? = some thread)
    (hothers : ∀ (j : Nat) (other : Thread), s.threads[j]? = some other → j ≠ i →
      other.pc.isWriting .processesOnWaiting = false)
    (hview : ListView shared'.processesOnWaiting thread')
    (hidle : thread'.pc.isWriting .processesOnWaiting = false →
      ∃ r, shared'.processesOnWaiting = waitingFile r) :
    Intact (moved s i thread thread' shared' events) := by
  have hset := getElem?_set_self_of_some hi thread'
  refine ⟨fun hquiet => hidle (hquiet thread' (List.mem_of_getElem? hset)), fun other hother => ?_,
    fun j k first second hj hk hfirst hsecond => ?_⟩
  · obtain ⟨j, hj⟩ := List.mem_iff_getElem?.mp hother
    rcases getElem?_set_cases hj with ⟨rfl, rfl⟩ | ⟨hne, hold⟩
    · exact hview
    · exact listView_congr (hothers j other hold hne) (h.view other (List.mem_of_getElem? hold))
  · have hindex : ∀ (j : Nat) (other : Thread), (s.threads.set i thread')[j]? = some other →
        other.pc.isWriting .processesOnWaiting = true → j = i := by
      intro j other hj hwriting
      rcases getElem?_set_cases hj with ⟨rfl, -⟩ | ⟨hne, hold⟩
      · rfl
      · simp [hothers j other hold hne] at hwriting
    rw [hindex j first hj hfirst, hindex k second hk hsecond]

theorem intact_move (hwell : WellFormed s) (h : Intact s) (hi : s.threads[i]? = some thread)
    (hguard : Undisturbed s thread)
    (hmove : Move algorithm thread s.shared thread' shared' events) :
    Intact (moved s i thread thread' shared' events) := by
  have hpassage := passage_of_move (h.view thread (List.mem_of_getElem? hi))
    (fun call stSize hpc hfile => h.idle (hguard.2.1 call stSize hpc hfile).1) hmove
  cases hpassage with
  | outside hsame hbefore hafter hview =>
    refine ⟨fun hquiet => ?_, fun other hother => ?_, fun j k first second hj hk hfirst hsecond => ?_⟩
    · simp only [moved, hsame]
      refine h.idle fun other hother => ?_
      obtain ⟨j, hj⟩ := List.mem_iff_getElem?.mp hother
      by_cases hij : i = j
      · subst hij
        obtain rfl := Option.some.inj (hi.symm.trans hj)
        exact hbefore
      · exact hquiet other (List.mem_of_getElem? (i := j) (by rwa [moved, List.getElem?_set_ne hij]))
    · obtain ⟨j, hj⟩ := List.mem_iff_getElem?.mp hother
      rcases getElem?_set_cases hj with ⟨rfl, rfl⟩ | ⟨-, hold⟩
      · exact hview
      · simp only [moved, hsame]
        exact h.view other (List.mem_of_getElem? hold)
    · rcases getElem?_set_cases hj with ⟨rfl, rfl⟩ | ⟨-, hold⟩
      · simp [hafter] at hfirst
      · rcases getElem?_set_cases hk with ⟨rfl, rfl⟩ | ⟨-, hold'⟩
        · simp [hafter] at hsecond
        · exact h.single j k first second hold hold' hfirst hsecond
  | inside call stage hpc hfile hafter hview =>
    apply intact_of_alone h hi
    · exact fun j other hj hne => others_out hwell hi hguard hpc hfile hj hne
    · exact hview
    · exact fun hout => by simp [hafter] at hout
  | completed call stage hpc hfile hafter hview r hcontent =>
    apply intact_of_alone h hi
    · exact fun j other hj hne => others_out hwell hi hguard hpc hfile hj hne
    · exact hview
    · exact fun _ => ⟨r, hcontent⟩

/-- The file is empty only between a truncation and the stretching that follows. -/
theorem not_empty_of_intact (h : Intact s)
    (hwhole : ∀ other ∈ s.threads, other.pc.hasTruncated .processesOnWaiting = false) :
    s.shared.processesOnWaiting.length ≠ 0 := by
  by_cases hquiet : Quiet .processesOnWaiting s
  · obtain ⟨r, hr⟩ := h.idle hquiet
    rw [hr]
    exact stored_ne_nil _
  · simp only [Quiet, not_forall, Bool.not_eq_false] at hquiet
    obtain ⟨other, hother, hwriting⟩ := hquiet
    have hview := h.view other hother
    have hstill := hwhole other hother
    unfold ListView at hview
    cases hpc : other.pc with
    | writing call stage =>
      cases stage with
      | opening text => simp [hpc, Pc.isWriting] at hwriting
      | stretching text =>
        simp only [hpc, Pc.isWriting, Pc.hasTruncated] at hwriting hstill
        simp [hwriting] at hstill
      | copying text =>
        cases call <;> simp [hpc, Pc.isWriting, WriteCall.file] at hwriting <;>
          simp only [hpc, ListStage] at hview <;> rw [hview.1, zeros, List.length_replicate] <;>
          omega
    | _ => simp [hpc, Pc.isWriting] at hwriting

/-- A worker that nobody disturbs does not stop the process. -/
theorem not_halts (h : Intact s) (ha : Refines algorithm frames s a) (hmem : thread ∈ s.threads)
    (hguard : Undisturbed s thread) {reason : Halt}
    (hhalts : Halts thread s.shared reason shared') : False := by
  have htouches := touches_of_halts ha hmem hhalts
  have hview := h.view thread hmem
  cases hhalts with
  | @empty call hpc hsize =>
    have hfile : call.file = .processesOnWaiting := by simpa [hpc, Pc.touches] using htouches
    rw [hfile, Shared.content] at hsize
    exact not_empty_of_intact h (hguard.1 call hpc hfile) hsize
  | @outside call stSize hpc hextent =>
    have hfile : call.file = .processesOnWaiting := by simpa [hpc, Pc.touches] using htouches
    obtain ⟨hquiet, hmapped⟩ := hguard.2.1 call stSize hpc hfile
    obtain ⟨r, hr⟩ := h.idle hquiet
    have hextent' := extent_complete (waitingValue r)
    rw [hfile, Shared.content] at hextent
    rw [hr, waitingFile] at hextent hmapped
    omega
  | @null call hpc =>
    have hfile : call.file = .processesOnWaiting := by simpa [hpc, Pc.touches] using htouches
    cases call <;> simp [WriteCall.file] at hfile <;> simp [ListView, ListStage, hpc] at hview
  | @cut call text hpc hfits =>
    have hfile : call.file = .processesOnWaiting := by simpa [hpc, Pc.touches] using htouches
    have hzeros : s.shared.processesOnWaiting = zeros text := by
      cases call <;> simp [WriteCall.file] at hfile <;>
        simp only [ListView, ListStage, hpc] at hview <;> exact hview.1
    rw [hfile, Shared.content, hzeros] at hfits
    exact absurd (fits_zeros text) (Nat.not_le.mpr hfits)

/-- What a read returns is the text of a complete value. -/
def CompleteText (data : Option CString) : Prop :=
  ∃ value, Canonical value ∧ data = some (pretty value)

theorem completeText_of_move (h : Intact s) (ha : Refines algorithm frames s a)
    (hguard : Undisturbed s thread)
    (hmove : Move algorithm thread s.shared thread' shared' events)
    (htruthful : ∀ event ∈ events, Truthful algorithm frames a (thread.worker, event))
    {call : ReadCall} {data : Option CString} (hloaded : .loaded call data ∈ events) :
    CompleteText data := by
  obtain ⟨⟨stSize, hpc⟩, hdata⟩ := loaded_of_move hmove hloaded
  cases hfile : call.file with
  | memory => exact ⟨_, canonical_memoryValue a ha.framed, htruthful _ hloaded hfile⟩
  | processesOnWaiting =>
    obtain ⟨r, hr⟩ := h.idle (hguard.2.1 call stSize hpc hfile).1
    refine ⟨_, canonical_waitingValue r, ?_⟩
    rw [hdata, hfile, Shared.content, hr, reprint_waitingFile]
    rfl

end Step

/-! ## Calls nobody comes between -/

theorem hasTruncated_of_not_writing {file : FileName} {pc : Pc} (h : pc.isWriting file = false) :
    pc.hasTruncated file = false := by
  cases pc with
  | writing call stage =>
    cases stage with
    | stretching text => exact h
    | _ => rfl
  | _ => rfl

theorem isWriting_afterRead (algorithm : Algorithm) (thread : Thread) (data : Option CString)
    (call : ReadCall) {file : FileName} :
    (afterRead algorithm thread data call).1.pc.isWriting file = false := by
  cases call with
  | placement =>
    simp only [afterRead]
    split <;> rfl
  | _ => rfl

/-- While nobody is in the middle of a write, a worker that has mapped all it parses may go on. -/
theorem undisturbed_of_quiet {s : Producer} {thread : Thread} (hquiet : Quiet .processesOnWaiting s)
    (hmapped : ∀ call stSize, thread.pc = .reading call (.mapping stSize) →
      call.file = .processesOnWaiting →
      parseExtent (cString s.shared.processesOnWaiting) ≤ pageUp stSize) :
    Undisturbed s thread := by
  refine ⟨?_, ?_, ?_⟩
  · exact fun _ _ _ other hother => hasTruncated_of_not_writing (hquiet other hother)
  · exact fun call stSize hpc hfile => ⟨hquiet, hmapped call stSize hpc hfile⟩
  · exact fun _ _ _ _ other hother _ => hquiet other hother

theorem undisturbed_waiting {s : Producer} {thread : Thread} {critical : Critical}
    (hpc : thread.pc = .semWait critical) : Undisturbed s thread := by
  refine ⟨?_, ?_, ?_⟩
  · exact fun _ hpc' => by simp [hpc] at hpc'
  · exact fun _ _ hpc' => by simp [hpc] at hpc'
  · exact fun _ _ hpc' => by simp [hpc] at hpc'

/-- Undisturbed workers lead from `s` to `t`, where nobody is in the middle of a write. -/
structure Calm (algorithm : Algorithm) (s t : Producer) : Prop where
  run : ReflTransGen (StepWhen piecewise Undisturbed algorithm) s t
  quiet : Quiet .processesOnWaiting t

section Whole

variable {algorithm : Algorithm} {origin s : Producer} {i : Nat} {thread : Thread}

theorem quiet_moved {file : FileName} (hquiet : Quiet file s) {thread' : Thread}
    (hout : thread'.pc.isWriting file = false) (shared' : Shared) (events : List Event) :
    Quiet file (moved s i thread thread' shared' events) := by
  intro other hother
  rcases List.mem_or_eq_of_mem_set hother with hold | rfl
  · exact hquiet other hold
  · exact hout

/-- Nor does the only worker in the middle of a write disturb itself. -/
theorem undisturbed_writing (hquiet : Quiet .processesOnWaiting s) {call : WriteCall}
    {stage : WriteStage} (shared' : Shared) :
    Undisturbed (moved s i thread (thread.at (.writing call stage)) shared' [])
      (thread.at (.writing call stage)) := by
  refine ⟨?_, ?_, ?_⟩
  · exact fun _ hpc => by simp [Thread.at] at hpc
  · exact fun _ _ hpc => by simp [Thread.at] at hpc
  · intro _ _ _ _ other hother hne
    rcases List.mem_or_eq_of_mem_set hother with hold | rfl
    · exact hquiet other hold
    · exact absurd rfl hne

variable (h : Calm algorithm origin s) (hhalted : s.halted = none)
  (hi : s.threads[i]? = some thread)
include h hhalted hi

/-- A whole read, step by step. -/
theorem Calm.read (call : ReadCall) {value : JsonValue} (hpc : thread.pc = .reading call .opening)
    (hvalue : Canonical value) (hcontent : s.shared.content call.file = stored (compact value)) :
    Calm algorithm origin
      (moved s i thread (afterRead algorithm thread (some (pretty value)) call).1 s.shared
        (afterRead algorithm thread (some (pretty value)) call).2) := by
  have hextent := extent_complete value
  have hopened : StepWhen piecewise Undisturbed algorithm s
      (moved s i thread (thread.at (.reading call (.mapping (s.shared.content call.file).length)))
        s.shared []) := by
    refine .move hhalted hi ?_ (stride_piecewise _)
      (.opened hpc (by rw [hcontent]; exact stored_ne_nil _))
    exact undisturbed_of_quiet h.quiet fun _ _ hpc' => by simp [hpc] at hpc'
  refine ⟨(h.run.tail hopened).tail (.next hhalted hi ?_ (stride_piecewise _) (move_loaded hvalue hcontent)),
    quiet_moved h.quiet (isWriting_afterRead algorithm thread _ call) _ _⟩
  refine undisturbed_of_quiet (quiet_moved h.quiet rfl _ _) fun call' stSize hpc' hfile => ?_
  obtain ⟨rfl, hstage⟩ := Pc.reading.inj hpc'
  obtain rfl := ReadStage.mapping.inj hstage
  simp only [hfile, Shared.content] at hcontent ⊢
  simp only [moved, hcontent]
  exact le_trans hextent (Nat.min_le_left _ _)

/-- A whole write, step by step. -/
theorem Calm.write (call : WriteCall) {text : CString}
    (hpc : thread.pc = .writing call (.opening (some text))) :
    Calm algorithm origin
      (moved s i thread (thread.at (afterWrite call))
        (s.shared.setContent (stored text) call.file) [.wrote call]) := by
  have hcut : StepWhen piecewise Undisturbed algorithm s
      (moved s i thread (thread.at (.writing call (.stretching text)))
        (s.shared.setContent [] call.file) []) := by
    refine .move hhalted hi ?_ (stride_piecewise _) (.truncated hpc)
    exact undisturbed_of_quiet h.quiet fun _ _ hpc' => by simp [hpc] at hpc'
  have hlong := StepWhen.next hhalted hi (undisturbed_writing h.quiet _) (stride_piecewise _)
    (move_stretched algorithm thread s.shared call text)
  have hdone := StepWhen.next hhalted hi (undisturbed_writing h.quiet _) (stride_piecewise _)
    (move_copied algorithm thread s.shared call text)
  refine ⟨((h.run.tail hcut).tail hlong).tail hdone, quiet_moved h.quiet ?_ _ _⟩
  cases call <;> rfl

end Whole

/-! ## Results -/

/-- The process lives, nobody is about to write NULL, and every read that has returned
gave the text of a complete value. -/
structure Unharmed (s : Producer) : Prop where
  alive : s.halted = none
  writes : ∀ thread ∈ s.threads, ∀ call, thread.pc ≠ .writing call (.opening none)
  reads : ∀ worker call data, (worker, .loaded call data) ∈ s.history → CompleteText data

theorem intact_start {schema : CString} {s : Producer} (h : Starts schema s) : Intact s := by
  obtain ⟨-, hfile, -, hthreads, -, -⟩ := h
  refine ⟨fun _ => ⟨.empty, ?_⟩, by simp [hthreads], by simp [hthreads]⟩
  rw [initMemoryProcessesOnWaiting_roster] at hfile
  exact (Option.some.inj hfile).symm

theorem writes_of_intact {algorithm : Algorithm} {frames : List Frame} {s : Producer} {a : Books}
    (h : Intact s) (ha : Refines algorithm frames s a) {thread : Thread} (hmem : thread ∈ s.threads)
    (call : WriteCall) : thread.pc ≠ .writing call (.opening none) := by
  intro hpc
  have hview := h.view thread hmem
  have hmemory := ha.view thread hmem
  cases call with
  | registration => simp [ListView, ListStage, hpc] at hview
  | removal => simp [ListView, ListStage, hpc] at hview
  | _ => simp [View, Pending, hpc, Pc.isCritical] at hmemory

/-- Undisturbed workers keep the state intact, and read complete values only. -/
theorem intact_of_undisturbed {algorithm : Algorithm} {schema : CString}
    (hschema : InitialMemory schema) {s : Producer}
    (hs : ReachableWhen piecewise Undisturbed algorithm schema s) :
    Intact s ∧ s.halted = none ∧
      ∀ worker call data, (worker, .loaded call data) ∈ s.history → CompleteText data := by
  obtain ⟨frames, hframed, hparse⟩ := initialMemory_frames hschema
  refine reachableWhen_induction (P := fun s => Intact s ∧ s.halted = none ∧
    ∀ worker call data, (worker, .loaded call data) ∈ s.history → CompleteText data) ?_ ?_ hs
  · intro s hstart
    exact ⟨intact_start hstart, hstart.2.2.2.2.2, by simp [hstart.2.2.2.2.1]⟩
  · rintro s t hreach ⟨hintact, halive, hreads⟩ hstep
    obtain ⟨a, ha⟩ := simulated_of_reachable hframed hparse hreach
    rcases stepWhen_cases (settled_piecewise s) hstep with
      ⟨processId, processSize, processDelay, -, -, rfl⟩ |
      ⟨i, thread, hi, hguard, ⟨reason, shared', hhalts, -, -⟩ |
        ⟨thread', shared', events, hmove, rfl⟩⟩
    · exact ⟨intact_create hintact _ _ _, halive, hreads⟩
    · exact (not_halts hintact ha.refines (List.mem_of_getElem? hi) hguard hhalts).elim
    · have hwell := wellFormed_of_reachable hreach
      have hmove' := move_of_callMove hmove
      obtain ⟨b, -, -, htruthful⟩ := simulated_move hwell ha hi hmove'
      refine ⟨intact_move hwell hintact hi hguard hmove', halive, fun worker call data hmem => ?_⟩
      rcases List.mem_append.mp hmem with hold | hnew
      · exact hreads worker call data hold
      · obtain ⟨event, hevent, heq⟩ := List.mem_map.mp hnew
        obtain ⟨-, rfl⟩ := Prod.mk.inj heq
        exact completeText_of_move hintact ha.refines hguard hmove' htruthful hevent

/-- In every run in which no worker accesses the waiting list in the middle of another
one's write, the process stays alive. -/
theorem never_exits (algorithm : Algorithm) {schema : CString} (hschema : InitialMemory schema)
    {s : Producer} (hs : ReachableWhen piecewise Undisturbed algorithm schema s) : Unharmed s := by
  obtain ⟨frames, hframed, hparse⟩ := initialMemory_frames hschema
  obtain ⟨hintact, halive, hreads⟩ := intact_of_undisturbed hschema hs
  obtain ⟨a, ha⟩ := simulated_of_reachable hframed hparse (reachable_of_when hs)
  exact ⟨halive, fun thread hmem => writes_of_intact hintact ha.refines hmem, hreads⟩

theorem quiet_twoWorkers : Quiet .processesOnWaiting twoWorkers := by
  simp [Quiet, twoWorkers, create, tenUnitsStart, startOn, Thread.start, Pc.isWriting]

/-- The first of two workers has registered, and the second has read the list that names
the first. -/
theorem second_registering : ∃ s first second, Calm .firstFit twoWorkers s ∧ s.halted = none ∧
    s.threads = [first, second] ∧ first.pc = .semWait .admission ∧
    second.pc = .writing .registration
      (.opening (some (compact (waitingValue ((Roster.empty.enlist 7).enlist 8))))) ∧
    s.shared.semFindSpace = 1 ∧ s.shared.processesOnWaiting = waitingFile (Roster.empty.enlist 7) ∧
    ((⟨1, 8, 1, 30⟩, .loaded .registration (some (waitingText (Roster.empty.enlist 7)))) :
      Worker × Event) ∈ s.history := by
  have hstart : Calm .firstFit twoWorkers twoWorkers := ⟨.refl, quiet_twoWorkers⟩
  have hread := hstart.read (i := 0) rfl rfl .registration rfl (canonical_waitingValue .empty) rfl
  have hwrite := hread.write (i := 0) rfl rfl .registration
    (congrArg (fun text => Pc.writing .registration (.opening text))
      (registration_waitingText ⟨0, 7, 1, 30⟩ .empty))
  have hread' := hwrite.read (i := 1) rfl rfl .registration rfl
    (canonical_waitingValue (Roster.empty.enlist 7)) rfl
  refine ⟨_, _, _, hread', rfl, rfl, rfl, ?_, rfl, rfl, ?_⟩
  · exact congrArg (fun text => Pc.writing .registration (.opening text))
      (registration_waitingText ⟨1, 8, 1, 30⟩ (Roster.empty.enlist 7))
  · exact List.mem_append_right _ List.mem_cons_self

/-- The first worker is now inside its critical section, and the second has truncated the
list to write its own. -/
theorem reachable_overlapping : ∃ s first second,
    ReachableWhen piecewise Undisturbed .firstFit (schemaOf tenUnits) s ∧
      s.threads = [first, second] ∧ first.pc = .reading .removal .opening ∧
      second.pc.hasTruncated .processesOnWaiting = true ∧
      ((⟨1, 8, 1, 30⟩, .loaded .registration (some (waitingText (Roster.empty.enlist 7)))) :
        Worker × Event) ∈ s.history := by
  obtain ⟨s, first, second, hcalm, hhalted, hthreads, hfirst, hsecond, hsem, -, hread⟩ :=
    second_registering
  have hreach := (reachable_twoWorkers piecewise Undisturbed .firstFit).append hcalm.run
  have hcut := hreach.move (i := 1) hhalted (by rw [hthreads]; rfl)
    (undisturbed_of_quiet hcalm.quiet fun _ _ hpc => by simp [hsecond] at hpc) (stride_piecewise _)
    (.truncated hsecond)
  have hwait := hcut.move (i := 0) hhalted (by simp [moved, hthreads])
    (undisturbed_waiting hfirst) (stride_piecewise _) (.acquired hfirst hsem)
  refine ⟨_, first.at (.reading .removal .opening), _, hwait, by rw [moved, moved, hthreads]; rfl, rfl,
    rfl, ?_⟩
  exact List.mem_append_left _ (List.mem_append_left _ hread)

theorem never_exits_overlapping : ∃ s first second, s.threads = [first, second] ∧
    first.pc = .reading .removal .opening ∧ second.pc.hasTruncated .processesOnWaiting = true ∧
    ((⟨1, 8, 1, 30⟩, .loaded .registration (some (waitingText (Roster.empty.enlist 7)))) :
      Worker × Event) ∈ s.history ∧ Unharmed s := by
  obtain ⟨s, first, second, hs, hthreads, hfirst, hsecond, hread⟩ := reachable_overlapping
  exact ⟨s, first, second, hthreads, hfirst, hsecond, hread,
    never_exits .firstFit (initialMemory_schemaOf (by decide)) hs⟩

/-! ## A truncated list -/

/-- The first of two workers has just opened the list to write its registration. -/
theorem list_truncated (algorithm : Algorithm) :
    ∃ s, ReachableWhen piecewise always algorithm (schemaOf tenUnits) s ∧ s.halted = none ∧
      s.shared.processesOnWaiting = [] ∧
      s.threads[1]? = some (Thread.start ⟨1, 8, 1, 30⟩) := by
  obtain ⟨s, thread, hs, halive, hthreads, hpc⟩ := first_registering algorithm
  have hfirst : s.threads[0]? = some thread := by rw [hthreads]; rfl
  have hstride : stride piecewise thread.pc = 1 := by rw [hpc]; rfl
  have htruncated := hs.move halive hfirst trivial hstride (.truncated hpc)
  refine ⟨_, htruncated, halive, rfl, ?_⟩
  rw [moved, hthreads]
  rfl

/-- The second worker then opens the empty list and takes the exit branch. -/
theorem truncated_list_read :
    ¬ ∀ s, Reachable .firstFit (schemaOf tenUnits) s → Unharmed s := by
  intro hclaim
  obtain ⟨s, hs, halive, hempty, hi⟩ := list_truncated .firstFit
  have hsize : (s.shared.content ReadCall.registration.file).length = 0 := by
    simp [ReadCall.file, Shared.content, hempty]
  have hexit := hs.halt halive hi trivial rfl (.empty rfl hsize)
  have hunharmed := hclaim _ (reachable_of_when hexit)
  simpa [stopped] using hunharmed.alive

end DynamicPartitions.Properties.Survival
