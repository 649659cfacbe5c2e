import DynamicPartitions.Program.Exclusion

/-!
# The trail of a worker

What the history records of one worker, reads aside, is fixed by where the worker
stands: it has done each of its writes, waits, log lines and posts exactly once, in the
order of the source, up to there.
-/
namespace DynamicPartitions.Program.Trails

open DynamicPartitions.Lib.Update
open DynamicPartitions.Parson.Value
open DynamicPartitions.Program.Algorithms
open DynamicPartitions.Program.WorkerThread
open DynamicPartitions.Program.Threads
open DynamicPartitions.Program.Moves
open DynamicPartitions.Program.Exclusion

def isMark : Event → Bool
  | .loaded _ _ => false
  | _ => true

/-- The events of one worker, reads aside. -/
def trail (history : List (Worker × Event)) (worker : Worker) : List Event :=
  history.filterMap fun entry => if entry.1 = worker ∧ isMark entry.2 then some entry.2 else none

/-- Up to the search for a partition. -/
def enteredTrail : List Event := [.wrote .registration, .waited .admission, .wrote .removal]

/-- Up to the admission write. -/
def admittedTrail (k : Nat) : List Event :=
  enteredTrail ++ [.placed (some k), .wrote (.admission k)]

/-- Up to the end of the sleep. -/
def residentTrail (k : Nat) : List Event := admittedTrail k ++ [.logged (.admitted k), .posted]

/-- Up to the release write. -/
def returnedTrail (k : Nat) : List Event :=
  residentTrail k ++ [.waited (.devolution k), .wrote (.devolution k)]

/-- What a worker at a program point has done. -/
def Follows (events : List Event) : Pc → Prop
  | .reading .registration _ | .writing .registration _ => events = []
  | .semWait .admission => events = [.wrote .registration]
  | .reading .removal _ | .writing .removal _ => events = [.wrote .registration, .waited .admission]
  | .reading .placement _ => events = enteredTrail
  | .writing (.admission k) _ => events = enteredTrail ++ [.placed (some k)]
  | .slog .rejected => events = enteredTrail ++ [.placed none]
  | .semPost .rejected => events = enteredTrail ++ [.placed none, .logged .rejected]
  | .slog (.admitted k) => events = admittedTrail k
  | .semPost (.admitted k) => events = admittedTrail k ++ [.logged (.admitted k)]
  | .sleeping k | .semWait (.devolution k) => events = residentTrail k
  | .reading (.devolution k) _ | .writing (.devolution k) _ =>
    events = residentTrail k ++ [.waited (.devolution k)]
  | .slog (.returned k) => events = returnedTrail k
  | .semPost (.returned k) => events = returnedTrail k ++ [.logged (.returned k)]
  | .finished => events = enteredTrail ++ [.placed none, .logged .rejected, .posted] ∨
      ∃ k, events = returnedTrail k ++ [.logged (.returned k), .posted]

/-- Of a worker that found no room. -/
def rejectedPath : List Event := enteredTrail ++ [.placed none, .logged .rejected, .posted]

/-- Of a worker that was admitted to partition `k`. -/
def admittedPath (k : Nat) : List Event := returnedTrail k ++ [.logged (.returned k), .posted]

/-- Every worker is on its way along one of the two paths. -/
theorem prefix_of_follows {events : List Event} {pc : Pc} (h : Follows events pc) :
    events <+: rejectedPath ∨ ∃ k, events <+: admittedPath k := by
  cases pc with
  | reading call stage =>
    cases call <;> simp only [Follows] at h <;> subst h
    case devolution k => exact .inr ⟨k, _, rfl⟩
    all_goals exact .inl ⟨_, rfl⟩
  | writing call stage =>
    cases call <;> simp only [Follows] at h <;> subst h
    case admission k => exact .inr ⟨k, _, rfl⟩
    case devolution k => exact .inr ⟨k, _, rfl⟩
    all_goals exact .inl ⟨_, rfl⟩
  | semWait critical =>
    cases critical <;> simp only [Follows] at h <;> subst h
    case admission => exact .inl ⟨_, rfl⟩
    case devolution k => exact .inr ⟨k, _, rfl⟩
  | sleeping k =>
    simp only [Follows] at h
    subst h
    exact .inr ⟨k, _, rfl⟩
  | slog outcome | semPost outcome =>
    cases outcome <;> simp only [Follows] at h <;> subst h
    case rejected => exact .inl ⟨_, rfl⟩
    case admitted k => exact .inr ⟨k, _, rfl⟩
    case returned k => exact .inr ⟨k, _, rfl⟩
  | finished =>
    rcases h with rfl | ⟨k, rfl⟩
    · exact .inl ⟨[], rfl⟩
    · exact .inr ⟨k, [], List.append_nil _⟩

/-- One move extends the trail as the program points say. -/
theorem follows_move {algorithm : Algorithm} {thread thread' : Thread} {shared shared' : Shared}
    {events past : List Event} (h : Move algorithm thread shared thread' shared' events)
    (hpast : Follows past thread.pc) : Follows (past ++ events.filter isMark) thread'.pc := by
  cases h with
  | @opened call hpc hsize =>
    rw [hpc] at hpast
    cases call <;> simpa [Thread.at, Follows] using hpast
  | @loaded call stSize hpc hextent =>
    rw [hpc] at hpast
    cases call with
    | placement =>
      simp only [Follows] at hpast
      simp only [afterRead]
      split <;> simp [Thread.at, Follows, isMark, hpast]
    | _ => simpa [afterRead, Thread.at, Follows, isMark] using hpast
  | @truncated call text hpc | @stretched call text hpc =>
    rw [hpc] at hpast
    cases call <;> simpa [Thread.at, Follows] using hpast
  | @copied call text hpc hfits =>
    rw [hpc] at hpast
    cases call <;> simp only [Follows] at hpast <;>
      simp [Thread.at, afterWrite, Follows, isMark, hpast, enteredTrail, admittedTrail,
        residentTrail, returnedTrail]
  | @acquired critical value hpc hvalue =>
    rw [hpc] at hpast
    cases critical <;> simp only [Follows] at hpast <;>
      simp [Thread.at, afterWait, Follows, isMark, hpast]
  | @logged outcome hpc =>
    rw [hpc] at hpast
    cases outcome <;> simp only [Follows] at hpast <;> simp [Thread.at, Follows, isMark, hpast]
  | @released outcome hpc =>
    rw [hpc] at hpast
    cases outcome with
    | rejected =>
      simp only [Follows] at hpast
      exact .inl (by simp [isMark, hpast])
    | admitted k =>
      simp only [Follows] at hpast
      simp [Thread.at, afterPost, Follows, isMark, hpast, residentTrail]
    | returned k =>
      simp only [Follows] at hpast
      exact .inr ⟨k, by simp [isMark, hpast]⟩
  | @woken memIndex hpc =>
    rw [hpc] at hpast
    simpa [Thread.at, Follows] using hpast

/-- The history is about the workers created so far, each of which has followed its path. -/
structure Tracked (s : Producer) : Prop where
  known : ∀ entry ∈ s.history, entry.1.number < s.threads.length
  follows : ∀ thread ∈ s.threads, Follows (trail s.history thread.worker) thread.pc

theorem trail_append (history more : List (Worker × Event)) (worker : Worker) :
    trail (history ++ more) worker = trail history worker ++ trail more worker :=
  List.filterMap_append

theorem trail_own (worker : Worker) (events : List Event) :
    trail (events.map (Prod.mk worker)) worker = events.filter isMark := by
  induction events with
  | nil => rfl
  | cons event rest ih =>
    unfold trail at ih ⊢
    rw [List.map_cons, List.filterMap_cons, List.filter_cons, ih]
    cases isMark event <;> simp

theorem trail_other {worker other : Worker} (hne : other ≠ worker) (events : List Event) :
    trail (events.map (Prod.mk other)) worker = [] := by
  unfold trail
  rw [List.filterMap_eq_nil_iff]
  intro entry hentry
  obtain ⟨event, -, rfl⟩ := List.mem_map.mp hentry
  exact if_neg fun h => hne h.1

theorem mem_trail {history : List (Worker × Event)} {worker : Worker} {event : Event}
    (hmark : isMark event = true) :
    event ∈ trail history worker ↔ (worker, event) ∈ history := by
  simp only [trail, List.mem_filterMap]
  constructor
  · rintro ⟨⟨other, e⟩, hmem, h⟩
    split at h
    · next hsame => rw [← Option.some.inj h, ← hsame.1]; exact hmem
    · simp at h
  · exact fun hmem => ⟨(worker, event), hmem, if_pos ⟨rfl, hmark⟩⟩

theorem tracked_live {algorithm : Algorithm} {s t : Producer} (hwell : WellFormed s)
    (h : Tracked s) (hstep : Live algorithm s t) : Tracked t := by
  cases hstep with
  | @create processId processSize delay hfresh hpos =>
    refine ⟨fun entry hentry => ?_, fun thread hthread => ?_⟩
    · have hlt := h.known entry hentry
      simp only [create, List.length_append, List.length_singleton]
      omega
    · rcases List.mem_append.mp hthread with hold | hnew
      · exact h.follows thread hold
      · obtain rfl := List.mem_singleton.mp hnew
        -- nothing is recorded of a worker before it exists
        refine List.filterMap_eq_nil_iff.mpr fun entry hentry => if_neg fun hsame => ?_
        have hlt := h.known entry hentry
        rw [hsame.1] at hlt
        exact Nat.lt_irrefl _ hlt
  | @move i thread thread' shared' events hi hmove =>
    have hworker := worker_of_move hmove
    have hlt := (List.getElem?_eq_some_iff.mp hi).1
    refine ⟨fun entry hentry => ?_, fun other hother => ?_⟩
    · simp only [moved, List.length_set]
      rcases List.mem_append.mp hentry with hold | hnew
      · exact h.known entry hold
      · obtain ⟨event, -, rfl⟩ := List.mem_map.mp hnew
        rw [hwell.numbered i thread hi]
        exact hlt
    · obtain ⟨j, hj⟩ := List.mem_iff_getElem?.mp hother
      simp only [moved, trail_append]
      rcases getElem?_set_cases hj with ⟨rfl, rfl⟩ | ⟨hne, hold⟩
      · rw [hworker, trail_own]
        exact follows_move hmove (h.follows thread (List.mem_of_getElem? hi))
      · have hdistinct : thread.worker ≠ other.worker := fun he => hne (by
          rw [← hwell.numbered j other hold, ← hwell.numbered i thread hi, he])
        rw [trail_other hdistinct, List.append_nil]
        exact h.follows other (List.mem_of_getElem? hold)

/-- In every reachable state every worker has followed its path. -/
theorem tracked_of_reachable {algorithm : Algorithm} {schema : CString} {s : Producer}
    (h : Reachable algorithm schema s) : Tracked s :=
  reachable_induction
    (fun _ ⟨_, _, _, hthreads, hhistory, _⟩ => ⟨by simp [hhistory], by simp [hthreads]⟩)
    (fun _ _ _ hwell _ hP hstep => tracked_live hwell hP hstep)
    (fun _ _ _ _ _ _ _ _ hP => ⟨hP.known, hP.follows⟩) h

end DynamicPartitions.Program.Trails
