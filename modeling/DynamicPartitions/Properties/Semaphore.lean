import DynamicPartitions.Program.Calls
import DynamicPartitions.Program.Trails
import DynamicPartitions.Properties.Enlistment

/-!
# The semaphore protocol

The semaphore is one exactly while nobody is inside a critical section, every path
through `worker_thread` posts what it waited for, and a worker inside a critical section
can always go on to its `sem_post`, unless a file sends it down an exit branch.
-/
namespace DynamicPartitions.Properties.Semaphore

open DynamicPartitions.Lib.Update
open DynamicPartitions.Parson.Value
open DynamicPartitions.Abstract.Rosters
open DynamicPartitions.Program.Algorithms
open DynamicPartitions.Program.MappedFile
open DynamicPartitions.Program.WorkerThread
open DynamicPartitions.Program.Threads
open DynamicPartitions.Program.Moves
open DynamicPartitions.Program.Exclusion
open DynamicPartitions.Program.Calls
open DynamicPartitions.Program.Trails
open DynamicPartitions.Refinement.Memory
open DynamicPartitions.Refinement.WaitingList
open DynamicPartitions.Properties.Conservation
open DynamicPartitions.Properties.Enlistment

/-! ## Waits and posts -/

def isWait : Event → Bool
  | .waited _ => true
  | _ => false

def isPost : Event → Bool
  | .posted => true
  | _ => false

/-- How often a worker has come through `sem_wait`. -/
def waits (history : List (Worker × Event)) (worker : Worker) : Nat :=
  history.countP fun entry => entry.1 = worker ∧ isWait entry.2

/-- How often a worker has called `sem_post`. -/
def posts (history : List (Worker × Event)) (worker : Worker) : Nat :=
  history.countP fun entry => entry.1 = worker ∧ isPost entry.2

theorem countP_trail (history : List (Worker × Event)) (worker : Worker) {p : Event → Bool}
    (hp : ∀ event, p event = true → isMark event = true) :
    (trail history worker).countP p =
      history.countP fun entry => decide (entry.1 = worker ∧ p entry.2) := by
  unfold trail
  rw [List.countP_filterMap]
  refine List.countP_congr fun entry _ => ?_
  by_cases hsame : entry.1 = worker
  · cases hcounted : p entry.2 with
    | true => simp [hsame, hp _ hcounted, hcounted]
    | false => cases isMark entry.2 <;> simp [hsame, hcounted]
  · simp [hsame]

/-- On every path the waits are one ahead of the posts inside a critical section and
level with them outside. -/
theorem level_of_follows {events : List Event} {pc : Pc} (h : Follows events pc) :
    events.countP isWait = events.countP isPost + if pc.isCritical then 1 else 0 := by
  cases pc with
  | reading call stage | writing call stage =>
    cases call <;> simp only [Follows] at h <;>
      simp [h, Pc.isCritical, residentTrail, admittedTrail, enteredTrail, List.countP_cons, isWait,
        isPost]
  | semWait critical =>
    cases critical <;> simp only [Follows] at h <;>
      simp [h, Pc.isCritical, residentTrail, admittedTrail, enteredTrail, List.countP_cons, isWait,
        isPost]
  | slog outcome | semPost outcome =>
    cases outcome <;> simp only [Follows] at h <;>
      simp [h, Pc.isCritical, returnedTrail, residentTrail, admittedTrail, enteredTrail,
        List.countP_cons, isWait, isPost]
  | sleeping k =>
    simp only [Follows] at h
    simp [h, Pc.isCritical, residentTrail, admittedTrail, enteredTrail, List.countP_cons, isWait,
      isPost]
  | finished =>
    rcases h with rfl | ⟨k, rfl⟩ <;>
      simp [Pc.isCritical, returnedTrail, residentTrail, admittedTrail, enteredTrail,
        List.countP_cons, isWait, isPost]

theorem waits_eq_of_follows {history : List (Worker × Event)} {worker : Worker} {pc : Pc}
    (h : Follows (trail history worker) pc) :
    waits history worker = posts history worker + if pc.isCritical then 1 else 0 := by
  have hwaits : (trail history worker).countP isWait = waits history worker :=
    countP_trail history worker fun event he => by cases event <;> simp_all [isWait, isMark]
  have hposts : (trail history worker).countP isPost = posts history worker :=
    countP_trail history worker fun event he => by cases event <;> simp_all [isPost, isMark]
  rw [← hwaits, ← hposts]
  exact level_of_follows h

/-! ## Progress -/

/-- Only a finished worker and one that finds the semaphore at zero have no step. -/
theorem threadStep_isSome (algorithm : Algorithm) {thread : Thread} {shared : Shared}
    (hlive : thread.pc ≠ .finished)
    (hopen : ∀ critical, thread.pc = .semWait critical → shared.semFindSpace ≠ 0) :
    (threadStep algorithm thread shared).isSome := by
  unfold threadStep
  cases hpc : thread.pc with
  | reading call stage | writing call stage =>
    simp only
    split <;> rfl
  | semWait critical =>
    obtain ⟨value, hvalue⟩ := Nat.exists_eq_succ_of_ne_zero (hopen critical hpc)
    simp [hvalue]
  | finished => exact absurd hpc hlive
  | _ => rfl

theorem step_isSome (algorithm : Algorithm) {s : Producer} {i : Nat} {thread : Thread}
    (hhalted : s.halted = none) (hi : s.threads[i]? = some thread) (hlive : thread.pc ≠ .finished)
    (hopen : ∀ critical, thread.pc = .semWait critical → s.shared.semFindSpace ≠ 0) :
    (step algorithm s i).isSome := by
  obtain ⟨effect, heffect⟩ :=
    Option.isSome_iff_exists.mp (threadStep_isSome algorithm hlive hopen)
  simp only [step, hhalted, hi, heffect]
  cases effect <;> rfl

def stagesLeft : ReadStage → Nat
  | .opening => 2
  | .mapping _ => 1

def writeStagesLeft : WriteStage → Nat
  | .opening _ => 3
  | .stretching _ => 2
  | .copying _ => 1

/-- How many steps a worker inside a critical section is at most away from leaving it. -/
def stepsToPost : Pc → Nat
  | .reading .removal stage => 10 + stagesLeft stage
  | .writing .removal stage => 7 + writeStagesLeft stage
  | .reading _ stage => 5 + stagesLeft stage
  | .writing _ stage => 2 + writeStagesLeft stage
  | .slog _ => 2
  | .semPost _ => 1
  | _ => 0

/-- A move inside a critical section comes closer to its end or is the `sem_post`. -/
theorem closer_of_move {algorithm : Algorithm} {thread thread' : Thread} {shared shared' : Shared}
    {events : List Event} (h : Move algorithm thread shared thread' shared' events)
    (hcrit : thread.pc.isCritical = true) :
    (thread'.pc.isCritical = true ∧ stepsToPost thread'.pc < stepsToPost thread.pc) ∨
    (thread'.pc.isCritical = false ∧ events = [.posted]) := by
  cases h with
  | @opened call hpc hsize =>
    cases call <;>
      simp [hpc, Thread.at, Pc.isCritical, stepsToPost, stagesLeft] at hcrit ⊢
  | @loaded call stSize hpc hextent =>
    cases call with
    | placement =>
      simp only [afterRead]
      split <;> simp [hpc, Thread.at, Pc.isCritical, stepsToPost, stagesLeft, writeStagesLeft]
    | _ =>
      simp [hpc, afterRead, Thread.at, Pc.isCritical, stepsToPost, stagesLeft, writeStagesLeft]
        at hcrit ⊢
  | @truncated call text hpc | @stretched call text hpc =>
    cases call <;>
      simp [hpc, Thread.at, Pc.isCritical, stepsToPost, writeStagesLeft] at hcrit ⊢
  | @copied call text hpc hfits =>
    cases call <;>
      simp [hpc, Thread.at, afterWrite, Pc.isCritical, stepsToPost, stagesLeft, writeStagesLeft]
        at hcrit ⊢
  | @acquired critical value hpc hvalue => simp [hpc, Pc.isCritical] at hcrit
  | @logged outcome hpc => exact .inl (by simp [hpc, Thread.at, Pc.isCritical, stepsToPost])
  | @released outcome hpc =>
    exact .inr ⟨by cases outcome <;> rfl, rfl⟩
  | @woken memIndex hpc => simp [hpc, Pc.isCritical] at hcrit

/-- Worker `i` has just posted and the semaphore is free. -/
def HasPosted (i : Nat) (t : Producer) : Prop :=
  t.halted = none ∧ t.shared.semFindSpace = 1 ∧ ∃ thread past, t.threads[i]? = some thread ∧
    thread.pc.isCritical = false ∧ t.history = past ++ [(thread.worker, .posted)]

/-- Left to itself, a worker inside a critical section reaches its `sem_post`, or the
process halts. -/
theorem reaches_post (algorithm : Algorithm) {i : Nat} (n : Nat) :
    ∀ {s : Producer} {thread : Thread}, WellFormed s → s.halted = none →
      s.threads[i]? = some thread → thread.pc.isCritical = true → stepsToPost thread.pc ≤ n →
      ∃ m ≤ n, ∃ t, stepMany algorithm i m s = some t ∧ (t.halted ≠ none ∨ HasPosted i t) := by
  induction n with
  | zero =>
    intro s thread _ _ _ hcrit hle
    cases hpc : thread.pc with
    | reading call stage => cases call <;> cases stage <;> simp [hpc, stepsToPost, stagesLeft] at hle
    | writing call stage =>
      cases call <;> cases stage <;> simp [hpc, stepsToPost, writeStagesLeft] at hle
    | slog outcome => simp [hpc, stepsToPost] at hle
    | semPost outcome => simp [hpc, stepsToPost] at hle
    | _ => simp [hpc, Pc.isCritical] at hcrit
  | succ n ih =>
    intro s thread hwell hhalted hi hcrit hle
    have hlive : thread.pc ≠ .finished := fun hpc => by simp [hpc, Pc.isCritical] at hcrit
    have hopen : ∀ critical, thread.pc = .semWait critical → s.shared.semFindSpace ≠ 0 :=
      fun critical hpc => by simp [hpc, Pc.isCritical] at hcrit
    obtain ⟨t, ht⟩ := Option.isSome_iff_exists.mp (step_isSome algorithm hhalted hi hlive hopen)
    obtain ⟨-, other, hother, ⟨reason, shared', -, rfl⟩ | ⟨thread', shared', events, hmove, rfl⟩⟩ :=
      step_cases ht
    · exact ⟨1, by omega, _, stepMany_one ht, .inl (by simp [stopped])⟩
    obtain rfl := Option.some.inj (hi.symm.trans hother)
    have hset := getElem?_set_self_of_some hi thread'
    have hwell' := wellFormed_move hwell hi hmove
    rcases closer_of_move hmove hcrit with ⟨hcrit', hcloser⟩ | ⟨hout, rfl⟩
    · obtain ⟨m, hm, u, hrun, hend⟩ := ih hwell' hhalted hset hcrit' (by omega)
      refine ⟨m + 1, by omega, u, ?_, hend⟩
      rw [stepMany, ht, Option.bind_some, if_neg (by simp [moved, hhalted])]
      exact hrun
    · refine ⟨1, by omega, _, stepMany_one ht, .inr ⟨hhalted, ?_, thread', s.history, hset, hout,
        ?_⟩⟩
      · have hheld := (move_keeps hmove).2.2
        have hone : 0 < s.threads.countP (·.pc.isCritical) :=
          List.countP_pos_iff.mpr ⟨thread, List.mem_of_getElem? hi, hcrit⟩
        have hsum := hwell.exclusive
        simp only [held, hcrit, hout, if_true, Bool.false_eq_true, if_false] at hheld
        simp only [moved]
        omega
      · rw [worker_of_move hmove]
        rfl

/-! ## Results -/

/-- The protocol in one state. A worker inside a critical section has waited once more
than it has posted, any other as often; a worker that finds the semaphore at zero waits
for another one that can go on alone to its `sem_post`, unless a file stops the process;
and as long as a worker has not finished, some worker has a step. -/
structure Balanced (algorithm : Algorithm) (s : Producer) : Prop where
  level : s.shared.semFindSpace + s.threads.countP (·.pc.isCritical) = 1
  matched : ∀ thread ∈ s.threads, waits s.history thread.worker =
    posts s.history thread.worker + if thread.pc.isCritical then 1 else 0
  holder : ∀ (i : Nat) (thread : Thread) (critical : Critical), s.threads[i]? = some thread →
    thread.pc = .semWait critical → s.shared.semFindSpace = 0 →
    ∃ j other, j ≠ i ∧ s.threads[j]? = some other ∧ other.pc.isCritical = true ∧
      ∃ n t, stepMany algorithm j n s = some t ∧ (t.halted ≠ none ∨ HasPosted j t)
  unstuck : (∃ thread ∈ s.threads, thread.pc ≠ .finished) → ∃ i, (step algorithm s i).isSome

theorem holder_of_zero {s : Producer} (hwell : WellFormed s) (hzero : s.shared.semFindSpace = 0) :
    ∃ (j : Nat) (holder : Thread), s.threads[j]? = some holder ∧ holder.pc.isCritical = true := by
  have hsum := hwell.exclusive
  obtain ⟨holder, hmem, hcrit⟩ := List.countP_pos_iff.mp
    (show 0 < s.threads.countP (·.pc.isCritical) by omega)
  obtain ⟨j, hj⟩ := List.mem_iff_getElem?.mp hmem
  exact ⟨j, holder, hj, hcrit⟩

/-- Whatever the interleaving, the protocol is balanced as long as the process lives. -/
theorem semaphore_balanced (algorithm : Algorithm) {schema : CString} {s : Producer}
    (hs : Reachable algorithm schema s) (hhalted : s.halted = none) : Balanced algorithm s := by
  have hwell := wellFormed_of_reachable hs
  constructor
  case level => exact hwell.exclusive
  case matched =>
    intro thread hthread
    apply waits_eq_of_follows
    exact (tracked_of_reachable hs).follows thread hthread
  case holder =>
    intro i thread critical hi hpc hzero
    obtain ⟨j, other, hj, hcrit⟩ := holder_of_zero hwell hzero
    obtain ⟨m, -, t, hrun, hend⟩ :=
      reaches_post algorithm (stepsToPost other.pc) hwell hhalted hj hcrit (Nat.le_refl _)
    refine ⟨j, other, ?_, hj, hcrit, m, t, hrun, hend⟩
    rintro rfl
    obtain rfl := Option.some.inj (hi.symm.trans hj)
    simp [hpc, Pc.isCritical] at hcrit
  case unstuck =>
    rintro ⟨thread, hthread, hlive⟩
    by_cases hzero : s.shared.semFindSpace = 0
    · obtain ⟨j, other, hj, hcrit⟩ := holder_of_zero hwell hzero
      refine ⟨j, step_isSome algorithm hhalted hj ?_ ?_⟩
      · rintro hpc
        simp [hpc, Pc.isCritical] at hcrit
      · rintro critical hpc
        simp [hpc, Pc.isCritical] at hcrit
    · obtain ⟨i, hi⟩ := List.mem_iff_getElem?.mp hthread
      exact ⟨i, step_isSome algorithm hhalted hi hlive fun _ _ => hzero⟩

/-- One worker is inside its critical section, and another one waits for it. -/
theorem reachable_blocked : ∃ s first second, Reachable .firstFit (schemaOf tenUnits) s ∧
    s.halted = none ∧ s.threads = [first, second] ∧ first.pc.isCritical = true ∧
    second.pc = .semWait .admission ∧ s.shared.semFindSpace = 0 := by
  have hread := (reachable_twoWorkers everyCall always .firstFit).read (i := 0) rfl rfl trivial
    .registration rfl rfl (canonical_waitingValue .empty) rfl
  have hwrite := hread.write (i := 0) rfl rfl trivial .registration rfl
    (congrArg (fun text => Pc.writing .registration (.opening text))
      (registration_waitingText ⟨0, 7, 1, 30⟩ .empty))
  have hwait := hwrite.move (i := 0) rfl rfl trivial rfl (.acquired rfl rfl)
  have hread' := hwait.read (i := 1) rfl rfl trivial .registration rfl rfl
    (canonical_waitingValue (Roster.empty.enlist 7)) rfl
  have hwrite' := hread'.write (i := 1) rfl rfl trivial .registration rfl
    (congrArg (fun text => Pc.writing .registration (.opening text))
      (registration_waitingText ⟨1, 8, 1, 30⟩ (Roster.empty.enlist 7)))
  exact ⟨_, _, _, reachable_of_when hwrite', rfl, rfl, rfl, rfl, rfl⟩

theorem semaphore_balanced_blocked : ∃ s first second, s.threads = [first, second] ∧
    first.pc.isCritical = true ∧ second.pc = .semWait .admission ∧ s.shared.semFindSpace = 0 ∧
    Balanced .firstFit s := by
  obtain ⟨s, first, second, hs, hhalted, hthreads, hinside, hblocked, hzero⟩ := reachable_blocked
  exact ⟨s, first, second, hthreads, hinside, hblocked, hzero,
    semaphore_balanced .firstFit hs hhalted⟩

end DynamicPartitions.Properties.Semaphore
