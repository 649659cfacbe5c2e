import DynamicPartitions.Lib.Transition
import DynamicPartitions.Lib.Update
import DynamicPartitions.Program.Moves

/-!
# Mutual exclusion and the identity of workers

The semaphore counts one together with the workers inside a critical section, workers
keep the number, id, size and delay they were created with, and the ids of workers
that have not finished are distinct. This holds in every reachable state, whatever the
files hold.
-/
namespace DynamicPartitions.Program.Exclusion

open DynamicPartitions.Lib.Update
open DynamicPartitions.Parson.Value
open DynamicPartitions.Program.Algorithms
open DynamicPartitions.Program.MappedFile
open DynamicPartitions.Program.WorkerThread
open DynamicPartitions.Program.Threads
open DynamicPartitions.Program.Moves

structure WellFormed (s : Producer) : Prop where
  exclusive : s.shared.semFindSpace + s.threads.countP (·.pc.isCritical) = 1
  numbered : ∀ (i : Nat) (thread : Thread), s.threads[i]? = some thread → thread.worker.number = i
  size_pos : ∀ thread ∈ s.threads, 0 < thread.worker.processSize
  ids_distinct : ∀ (i j : Nat) (thread other : Thread), s.threads[i]? = some thread →
    s.threads[j]? = some other → i ≠ j → thread.pc ≠ .finished → other.pc ≠ .finished →
    thread.worker.processId ≠ other.worker.processId

/-- The semaphore units a worker accounts for. -/
def held (thread : Thread) : Nat := if thread.pc.isCritical then 1 else 0

theorem afterRead_worker (algorithm : Algorithm) (thread : Thread) (data : Option CString)
    (call : ReadCall) : (afterRead algorithm thread data call).1.worker = thread.worker := by
  cases call with
  | placement =>
    simp only [afterRead]
    split <;> rfl
  | _ => rfl

/-- One move: the worker stays itself, is not revived, and what it takes from the
semaphore it holds. -/
theorem move_keeps {algorithm : Algorithm} {thread thread' : Thread} {shared shared' : Shared}
    {events : List Event} (h : Move algorithm thread shared thread' shared' events) :
    thread'.worker = thread.worker ∧ thread.pc ≠ .finished ∧
      shared'.semFindSpace + held thread' = shared.semFindSpace + held thread := by
  cases h with
  | @opened call hpc hsize =>
    refine ⟨rfl, by simp [hpc], ?_⟩
    cases call <;> simp [held, hpc, Thread.at, Pc.isCritical]
  | @loaded call stSize hpc hextent =>
    refine ⟨afterRead_worker algorithm thread _ call, by simp [hpc], ?_⟩
    cases call <;> simp only [afterRead]
    case placement => split <;> simp [held, hpc, Thread.at, Pc.isCritical]
    all_goals simp [held, hpc, Thread.at, Pc.isCritical]
  | @truncated call text hpc | @stretched call text hpc =>
    refine ⟨rfl, by simp [hpc], ?_⟩
    cases call <;>
      simp [held, hpc, Thread.at, Pc.isCritical, WriteCall.file, Shared.setContent]
  | @copied call text hpc hfits =>
    refine ⟨rfl, by simp [hpc], ?_⟩
    cases call <;>
      simp [held, hpc, Thread.at, afterWrite, Pc.isCritical, WriteCall.file, Shared.setContent]
  | @acquired critical value hpc hvalue =>
    refine ⟨rfl, by simp [hpc], ?_⟩
    cases critical <;> simp [held, hpc, hvalue, Thread.at, afterWait, Pc.isCritical]
  | @logged outcome hpc =>
    refine ⟨rfl, by simp [hpc], ?_⟩
    simp [held, hpc, Thread.at, Pc.isCritical]
  | @released outcome hpc =>
    refine ⟨rfl, by simp [hpc], ?_⟩
    cases outcome <;> simp [held, hpc, Thread.at, afterPost, Pc.isCritical]
  | @woken memIndex hpc =>
    refine ⟨rfl, by simp [hpc], ?_⟩
    simp [held, hpc, Thread.at, Pc.isCritical]

theorem worker_of_move {algorithm : Algorithm} {thread thread' : Thread} {shared shared' : Shared}
    {events : List Event} (h : Move algorithm thread shared thread' shared' events) :
    thread'.worker = thread.worker := (move_keeps h).1

/-! ## Every step keeps it -/

theorem wellFormed_create {s : Producer} {processId : Nat} {processSize processDelay : Int}
    (h : WellFormed s) (hfresh : FreshId s processId) (hpos : 0 < processSize) :
    WellFormed (create s processId processSize processDelay) := by
  have hsplit : ∀ (i : Nat) (thread : Thread), (create s processId processSize processDelay).threads[i]? =
      some thread → s.threads[i]? = some thread ∨
      (i = s.threads.length ∧ thread = Thread.start ⟨s.threads.length, processId, processSize,
        processDelay⟩) := by
    exact fun i thread hi => getElem?_concat_cases hi
  refine ⟨?_, ?_, ?_, ?_⟩
  · have houtside : (Thread.start ⟨s.threads.length, processId, processSize,
        processDelay⟩).pc.isCritical = false := rfl
    simp only [create, List.countP_append, List.countP_singleton, houtside]
    simpa using h.exclusive
  · intro i thread hi
    rcases hsplit i thread hi with hold | ⟨rfl, rfl⟩
    · exact h.numbered i thread hold
    · rfl
  · intro thread hthread
    obtain ⟨i, hi⟩ := List.mem_iff_getElem?.mp hthread
    rcases hsplit i thread hi with hold | ⟨rfl, rfl⟩
    · exact h.size_pos thread (List.mem_of_getElem? hold)
    · exact hpos
  · intro i j thread other hi hj hij hlive hlive'
    rcases hsplit i thread hi with hold | ⟨rfl, rfl⟩
    · rcases hsplit j other hj with hold' | ⟨rfl, rfl⟩
      · exact h.ids_distinct i j thread other hold hold' hij hlive hlive'
      · exact hfresh thread (List.mem_of_getElem? hold) hlive
    · rcases hsplit j other hj with hold' | ⟨rfl, rfl⟩
      · exact (hfresh other (List.mem_of_getElem? hold') hlive').symm
      · exact absurd rfl hij

theorem wellFormed_move {algorithm : Algorithm} {s : Producer} {i : Nat} {thread thread' : Thread}
    {shared' : Shared} {events : List Event} (h : WellFormed s) (hi : s.threads[i]? = some thread)
    (hmove : Move algorithm thread s.shared thread' shared' events) :
    WellFormed (moved s i thread thread' shared' events) := by
  obtain ⟨hworker, hlive, hheld⟩ := move_keeps hmove
  refine ⟨?_, ?_, ?_, ?_⟩
  · have hlt := (List.getElem?_eq_some_iff.mp hi).1
    have hget : s.threads[i] = thread := (List.getElem?_eq_some_iff.mp hi).2
    have hcount := h.exclusive
    have hpos : (if thread.pc.isCritical = true then 1 else 0) ≤
        s.threads.countP (·.pc.isCritical) := by
      split
      · next hcrit => exact List.countP_pos_iff.mpr ⟨thread, List.mem_of_getElem? hi, hcrit⟩
      · exact Nat.zero_le _
    simp only [moved, List.countP_set hlt, hget]
    unfold held at hheld
    omega
  · intro j other hj
    rcases getElem?_set_cases hj with ⟨rfl, rfl⟩ | ⟨-, hold⟩
    · rw [hworker]
      exact h.numbered j thread hi
    · exact h.numbered j other hold
  · intro other hother
    obtain ⟨j, hj⟩ := List.mem_iff_getElem?.mp hother
    rcases getElem?_set_cases hj with ⟨rfl, rfl⟩ | ⟨-, hold⟩
    · rw [hworker]
      exact h.size_pos thread (List.mem_of_getElem? hi)
    · exact h.size_pos other (List.mem_of_getElem? hold)
  · intro j k first second hj hk hjk hfirst hsecond
    rcases getElem?_set_cases hj with ⟨rfl, rfl⟩ | ⟨-, hold⟩
    · rcases getElem?_set_cases hk with ⟨rfl, rfl⟩ | ⟨-, hold'⟩
      · exact absurd rfl hjk
      · rw [hworker]
        exact h.ids_distinct j k thread second hi hold' hjk hlive hsecond
    · rcases getElem?_set_cases hk with ⟨rfl, rfl⟩ | ⟨-, hold'⟩
      · rw [hworker]
        exact h.ids_distinct j k first thread hold hi hjk hfirst hlive
      · exact h.ids_distinct j k first second hold hold' hjk hfirst hsecond

theorem wellFormed_live {algorithm : Algorithm} {s t : Producer} (h : WellFormed s)
    (hstep : Live algorithm s t) : WellFormed t := by
  cases hstep with
  | create delay hfresh hpos => exact wellFormed_create h hfresh hpos
  | move hi hmove => exact wellFormed_move h hi hmove

theorem wellFormed_start {schema : CString} {s : Producer} (h : Starts schema s) : WellFormed s := by
  obtain ⟨-, -, hsem, hthreads, -, -⟩ := h
  refine ⟨by simp [hsem, hthreads], ?_, ?_, ?_⟩
  all_goals simp [hthreads]

theorem wellFormed_stopped {s : Producer} {thread : Thread} {reason : Halt} {shared' : Shared}
    (h : WellFormed s) (hhalts : Halts thread s.shared reason shared') :
    WellFormed (stopped s reason shared') := by
  have hsem : shared'.semFindSpace = s.shared.semFindSpace := by
    cases hhalts with
    | @null call hpc => cases call <;> rfl
    | @cut call text hpc hfits => cases call <;> rfl
    | _ => rfl
  exact ⟨hsem ▸ h.exclusive, h.numbered, h.size_pos, h.ids_distinct⟩

/-- Induction over reachable states: a property of the starting states that creations,
moves and the end of the process keep. -/
theorem reachable_induction {algorithm : Algorithm} {schema : CString} {P : Producer → Prop}
    (hstart : ∀ s, Starts schema s → P s)
    (hlive : ∀ s t, Reachable algorithm schema s → WellFormed s → s.halted = none → P s →
      Live algorithm s t → P t)
    (hhalt : ∀ s (i : Nat) thread reason shared', WellFormed s → s.threads[i]? = some thread →
      Halts thread s.shared reason shared' → P s → P (stopped s reason shared'))
    {s : Producer} (h : Reachable algorithm schema s) : P s := by
  have hboth : WellFormed s ∧ P s := by
    obtain ⟨start, hinit, hrun⟩ := h
    induction hrun with
    | refl => exact ⟨wellFormed_start hinit, hstart start hinit⟩
    | tail hprev hlast ih =>
      obtain ⟨hwell, hP⟩ := ih
      obtain ⟨hhalted, hstep | ⟨i, thread, reason, shared', hi, hhalts, rfl⟩⟩ := live_or_halt hlast
      · exact ⟨wellFormed_live hwell hstep, hlive _ _ ⟨start, hinit, hprev⟩ hwell hhalted hP hstep⟩
      · exact ⟨wellFormed_stopped hwell hhalts,
          hhalt _ i thread reason shared' hwell hi hhalts hP⟩
  exact hboth.2

theorem wellFormed_of_reachable {algorithm : Algorithm} {schema : CString} {s : Producer}
    (h : Reachable algorithm schema s) : WellFormed s :=
  reachable_induction (fun _ hs => wellFormed_start hs)
    (fun _ _ _ _ _ hP hstep => wellFormed_live hP hstep)
    (fun _ _ _ _ _ _ _ hhalts hP => wellFormed_stopped hP hhalts) h

/-! ## What mutual exclusion gives -/

section Unique

variable {s : Producer} (h : WellFormed s) {i : Nat} {thread : Thread}
include h

theorem critical_unique {j : Nat} {other : Thread} (hi : s.threads[i]? = some thread)
    (hj : s.threads[j]? = some other) (hcrit : thread.pc.isCritical = true)
    (hcrit' : other.pc.isCritical = true) : i = j := by
  by_contra hne
  have htwo := two_le_countP (p := fun t : Thread => t.pc.isCritical) hne hi hj hcrit hcrit'
  have hone := h.exclusive
  omega

theorem not_critical_of_other {j : Nat} {other : Thread} (hi : s.threads[i]? = some thread)
    (hcrit : thread.pc.isCritical = true) (hj : s.threads[j]? = some other) (hne : j ≠ i) :
    other.pc.isCritical = false := by
  rw [Bool.eq_false_iff]
  exact fun hcrit' => hne (critical_unique h hj hi hcrit' hcrit)

theorem between_of_sem {value : Nat} (hvalue : s.shared.semFindSpace = value + 1) :
    BetweenSections s := by
  intro thread hthread
  rw [Bool.eq_false_iff]
  intro hcrit
  have hpos : 0 < s.threads.countP (·.pc.isCritical) :=
    List.countP_pos_iff.mpr ⟨thread, hthread, hcrit⟩
  have hone := h.exclusive
  omega

end Unique

/-- A move, seen by a contribution that only workers inside critical sections make:
either this worker's is the only one before and after, or it makes none. -/
theorem filterMap_move {algorithm : Algorithm} {s : Producer} {i : Nat} {thread thread' : Thread}
    {shared' : Shared} {events : List Event} {β : Type} {f : Thread → Option β}
    (hf : ∀ t : Thread, t.pc.isCritical = false → f t = none) (hwell : WellFormed s)
    (hi : s.threads[i]? = some thread)
    (hmove : Move algorithm thread s.shared thread' shared' events) :
    (s.threads.filterMap f = (f thread).toList ∧
      (s.threads.set i thread').filterMap f = (f thread').toList) ∨
    (thread.pc.isCritical = false ∧ thread'.pc.isCritical = false ∧
      (s.threads.set i thread').filterMap f = s.threads.filterMap f) := by
  have hset := getElem?_set_self_of_some hi thread'
  by_cases hout : thread.pc.isCritical = false ∧ thread'.pc.isCritical = false
  · exact .inr ⟨hout.1, hout.2, filterMap_set_none hi (hf _ hout.1) (hf _ hout.2)⟩
  · refine .inl ?_
    have hothers : ∀ (j : Nat) (other : Thread), s.threads[j]? = some other → j ≠ i →
        f other = none := by
      intro j other hj hne
      refine hf other ?_
      cases hc : thread.pc.isCritical with
      | true => exact not_critical_of_other hwell hi hc hj hne
      | false =>
        have hc' : thread'.pc.isCritical = true := by
          rw [← Bool.not_eq_false]
          exact fun hc' => hout ⟨hc, hc'⟩
        exact not_critical_of_other (wellFormed_move hwell hi hmove) hset hc'
          (by rwa [moved, List.getElem?_set_ne (Ne.symm hne)]) hne
    refine ⟨filterMap_eq_of_unique hi hothers, filterMap_eq_of_unique hset fun j other hj hne => ?_⟩
    rw [List.getElem?_set_ne (Ne.symm hne)] at hj
    exact hothers j other hj hne

end DynamicPartitions.Program.Exclusion
