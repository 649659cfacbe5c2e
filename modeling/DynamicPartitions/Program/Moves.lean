import DynamicPartitions.Program.Threads

/-!
# What a step can do

Every step of a running Producer is one of nine moves of one worker, one of four ways
to stop the process, or the creation of a thread. Later proofs argue about moves and
never open the step function.
-/
namespace DynamicPartitions.Program.Moves

open DynamicPartitions.Parson.Value
open DynamicPartitions.Program.Algorithms
open DynamicPartitions.Program.MappedFile
open DynamicPartitions.Program.WorkerThread
open DynamicPartitions.Program.Threads

/-- A step of one worker that leaves the process running: the worker and the shared
state afterwards, and what the history records. -/
inductive Move (algorithm : Algorithm) (thread : Thread) (shared : Shared) :
    Thread → Shared → List Event → Prop
  | opened {call : ReadCall} (hpc : thread.pc = .reading call .opening)
      (hsize : (shared.content call.file).length ≠ 0) :
      Move algorithm thread shared
        (thread.at (.reading call (.mapping (shared.content call.file).length))) shared []
  | loaded {call : ReadCall} {stSize : Nat} (hpc : thread.pc = .reading call (.mapping stSize))
      (hextent : parseExtent (cString (shared.content call.file)) ≤
        min (pageUp stSize) (pageUp (shared.content call.file).length)) :
      Move algorithm thread shared
        (afterRead algorithm thread (reprint (cString (shared.content call.file))) call).1 shared
        (afterRead algorithm thread (reprint (cString (shared.content call.file))) call).2
  | truncated {call : WriteCall} {text : CString}
      (hpc : thread.pc = .writing call (.opening (some text))) :
      Move algorithm thread shared (thread.at (.writing call (.stretching text)))
        (shared.setContent [] call.file) []
  | stretched {call : WriteCall} {text : CString}
      (hpc : thread.pc = .writing call (.stretching text)) :
      Move algorithm thread shared (thread.at (.writing call (.copying text)))
        (shared.setContent (stretch (shared.content call.file) text) call.file) []
  | copied {call : WriteCall} {text : CString} (hpc : thread.pc = .writing call (.copying text))
      (hfits : text.length + 1 ≤ pageUp (shared.content call.file).length) :
      Move algorithm thread shared (thread.at (afterWrite call))
        (shared.setContent (strcpy (shared.content call.file) text) call.file) [.wrote call]
  | acquired {critical : Critical} {value : Nat} (hpc : thread.pc = .semWait critical)
      (hvalue : shared.semFindSpace = value + 1) :
      Move algorithm thread shared (thread.at (afterWait critical))
        { shared with semFindSpace := value } [.waited critical]
  | logged {outcome : Outcome} (hpc : thread.pc = .slog outcome) :
      Move algorithm thread shared (thread.at (.semPost outcome)) shared [.logged outcome]
  | released {outcome : Outcome} (hpc : thread.pc = .semPost outcome) :
      Move algorithm thread shared (thread.at (afterPost outcome))
        { shared with semFindSpace := shared.semFindSpace + 1 } [.posted]
  | woken {memIndex : Nat} (hpc : thread.pc = .sleeping memIndex) :
      Move algorithm thread shared (thread.at (.semWait (.devolution memIndex))) shared []

/-- The four ways in which a step of one worker stops the process, and the shared state
it leaves behind. -/
inductive Halts (thread : Thread) (shared : Shared) : Halt → Shared → Prop
  | empty {call : ReadCall} (hpc : thread.pc = .reading call .opening)
      (hsize : (shared.content call.file).length = 0) : Halts thread shared .exit shared
  | outside {call : ReadCall} {stSize : Nat} (hpc : thread.pc = .reading call (.mapping stSize))
      (hextent : parseExtent (cString (shared.content call.file)) >
        min (pageUp stSize) (pageUp (shared.content call.file).length)) :
      Halts thread shared .fault shared
  | null {call : WriteCall} (hpc : thread.pc = .writing call (.opening none)) :
      Halts thread shared .exit (shared.setContent [] call.file)
  | cut {call : WriteCall} {text : CString} (hpc : thread.pc = .writing call (.copying text))
      (hfits : text.length + 1 > pageUp (shared.content call.file).length) :
      Halts thread shared .fault
        (shared.setContent (strcpy (shared.content call.file) text) call.file)

theorem move_of_threadStep {algorithm : Algorithm} {thread thread' : Thread}
    {shared shared' : Shared} {events : List Event}
    (h : threadStep algorithm thread shared = some (.run thread' shared' events)) :
    Move algorithm thread shared thread' shared' events := by
  unfold threadStep at h
  cases hpc : thread.pc with
  | reading call stage =>
    cases stage with
    | opening =>
      simp only [hpc, readStep] at h
      by_cases hsize : (shared.content call.file).length = 0
      · simp [hsize] at h
      · simp only [if_neg hsize, Option.some.injEq, Effect.run.injEq] at h
        obtain ⟨rfl, rfl, rfl⟩ := h
        exact .opened hpc hsize
    | mapping stSize =>
      simp only [hpc, readStep] at h
      by_cases hextent : parseExtent (cString (shared.content call.file)) >
          min (pageUp stSize) (pageUp (shared.content call.file).length)
      · simp only [if_pos hextent, Option.some.injEq, reduceCtorEq] at h
      · simp only [if_neg hextent, Option.some.injEq, Effect.run.injEq] at h
        obtain ⟨rfl, rfl, rfl⟩ := h
        exact .loaded hpc (Nat.le_of_not_lt hextent)
  | writing call stage =>
    cases stage with
    | opening text =>
      cases text with
      | none => simp [hpc, writeStep] at h
      | some text =>
        simp only [hpc, writeStep, Option.some.injEq, Effect.run.injEq] at h
        obtain ⟨rfl, rfl, rfl⟩ := h
        exact .truncated hpc
    | stretching text =>
      simp only [hpc, writeStep, Option.some.injEq, Effect.run.injEq] at h
      obtain ⟨rfl, rfl, rfl⟩ := h
      exact .stretched hpc
    | copying text =>
      simp only [hpc, writeStep] at h
      by_cases hfits : text.length + 1 > pageUp (shared.content call.file).length
      · simp only [if_pos hfits, Option.some.injEq, reduceCtorEq] at h
      · simp only [if_neg hfits, Option.some.injEq, Effect.run.injEq] at h
        obtain ⟨rfl, rfl, rfl⟩ := h
        exact .copied hpc (Nat.le_of_not_lt hfits)
  | semWait critical =>
    simp only [hpc] at h
    cases hvalue : shared.semFindSpace with
    | zero => simp [hvalue] at h
    | succ value =>
      simp only [hvalue, Option.some.injEq, Effect.run.injEq] at h
      obtain ⟨rfl, rfl, rfl⟩ := h
      exact .acquired hpc hvalue
  | slog outcome =>
    simp only [hpc, Option.some.injEq, Effect.run.injEq] at h
    obtain ⟨rfl, rfl, rfl⟩ := h
    exact .logged hpc
  | semPost outcome =>
    simp only [hpc, Option.some.injEq, Effect.run.injEq] at h
    obtain ⟨rfl, rfl, rfl⟩ := h
    exact .released hpc
  | sleeping memIndex =>
    simp only [hpc, Option.some.injEq, Effect.run.injEq] at h
    obtain ⟨rfl, rfl, rfl⟩ := h
    exact .woken hpc
  | finished => simp [hpc] at h

/-- Each move is a step the worker can take. -/
theorem threadStep_of_move {algorithm : Algorithm} {thread thread' : Thread}
    {shared shared' : Shared} {events : List Event}
    (h : Move algorithm thread shared thread' shared' events) :
    threadStep algorithm thread shared = some (.run thread' shared' events) := by
  unfold threadStep
  cases h with
  | opened hpc hsize => simp only [hpc, readStep, if_neg hsize]
  | loaded hpc hextent => simp only [hpc, readStep, if_neg (Nat.not_lt.mpr hextent)]
  | truncated hpc => simp only [hpc, writeStep]
  | stretched hpc => simp only [hpc, writeStep]
  | copied hpc hfits => simp only [hpc, writeStep, if_neg (Nat.not_lt.mpr hfits)]
  | acquired hpc hvalue => simp only [hpc, hvalue]
  | logged hpc => simp only [hpc]
  | released hpc => simp only [hpc]
  | woken hpc => simp only [hpc]

/-- A read has returned what was in the file as it was parsed. -/
theorem loaded_of_move {algorithm : Algorithm} {thread thread' : Thread} {shared shared' : Shared}
    {events : List Event} (h : Move algorithm thread shared thread' shared' events)
    {call : ReadCall} {data : Option CString} (hloaded : .loaded call data ∈ events) :
    (∃ stSize, thread.pc = .reading call (.mapping stSize)) ∧
      data = reprint (cString (shared.content call.file)) := by
  cases h with
  | @loaded call' stSize hpc hextent =>
    have heq : call = call' ∧ data = reprint (cString (shared.content call'.file)) := by
      cases call' with
      | placement =>
        simp only [afterRead] at hloaded
        split at hloaded <;> simpa using hloaded
      | _ => simpa [afterRead] using hloaded
    obtain ⟨rfl, hdata⟩ := heq
    exact ⟨⟨stSize, hpc⟩, hdata⟩
  | _ => simp at hloaded

theorem halts_of_threadStep {algorithm : Algorithm} {thread : Thread} {shared shared' : Shared}
    {reason : Halt} (h : threadStep algorithm thread shared = some (.halt reason shared')) :
    Halts thread shared reason shared' := by
  unfold threadStep at h
  cases hpc : thread.pc with
  | reading call stage =>
    cases stage with
    | opening =>
      simp only [hpc, readStep] at h
      by_cases hsize : (shared.content call.file).length = 0
      · simp only [if_pos hsize, Option.some.injEq, Effect.halt.injEq] at h
        obtain ⟨rfl, rfl⟩ := h
        exact .empty hpc hsize
      · simp [hsize] at h
    | mapping stSize =>
      simp only [hpc, readStep] at h
      by_cases hextent : parseExtent (cString (shared.content call.file)) >
          min (pageUp stSize) (pageUp (shared.content call.file).length)
      · simp only [if_pos hextent, Option.some.injEq, Effect.halt.injEq] at h
        obtain ⟨rfl, rfl⟩ := h
        exact .outside hpc hextent
      · simp only [if_neg hextent, Option.some.injEq, reduceCtorEq] at h
  | writing call stage =>
    cases stage with
    | opening text =>
      cases text with
      | none =>
        simp only [hpc, writeStep, Option.some.injEq, Effect.halt.injEq] at h
        obtain ⟨rfl, rfl⟩ := h
        exact .null hpc
      | some text => simp [hpc, writeStep] at h
    | stretching text => simp [hpc, writeStep] at h
    | copying text =>
      simp only [hpc, writeStep] at h
      by_cases hfits : text.length + 1 > pageUp (shared.content call.file).length
      · simp only [if_pos hfits, Option.some.injEq, Effect.halt.injEq] at h
        obtain ⟨rfl, rfl⟩ := h
        exact .cut hpc hfits
      · simp only [if_neg hfits, Option.some.injEq, reduceCtorEq] at h
  | semWait critical => cases hvalue : shared.semFindSpace <;> simp [hpc, hvalue] at h
  | slog outcome => simp [hpc] at h
  | semPost outcome => simp [hpc] at h
  | sleeping memIndex => simp [hpc] at h
  | finished => simp [hpc] at h

/-- The process after a move of worker `i`. -/
def moved (s : Producer) (i : Nat) (thread thread' : Thread) (shared' : Shared)
    (events : List Event) : Producer :=
  { s with
    shared := shared'
    threads := s.threads.set i thread'
    history := s.history ++ events.map (Prod.mk thread.worker) }

/-- The process stopped by a worker. -/
def stopped (s : Producer) (reason : Halt) (shared' : Shared) : Producer :=
  { s with shared := shared', halted := some reason }

/-- A step of worker `i`, as a move or a halt. -/
theorem step_cases {algorithm : Algorithm} {s t : Producer} {i : Nat}
    (h : step algorithm s i = some t) :
    s.halted = none ∧ ∃ thread, s.threads[i]? = some thread ∧
      ((∃ reason shared', Halts thread s.shared reason shared' ∧ t = stopped s reason shared') ∨
        ∃ thread' shared' events, Move algorithm thread s.shared thread' shared' events ∧
          t = moved s i thread thread' shared' events) := by
  unfold step at h
  cases hhalted : s.halted with
  | some reason => simp [hhalted] at h
  | none =>
    cases hthread : s.threads[i]? with
    | none => simp [hhalted, hthread] at h
    | some thread =>
      refine ⟨rfl, thread, rfl, ?_⟩
      simp only [hhalted, hthread] at h
      cases heffect : threadStep algorithm thread s.shared with
      | none => simp [heffect] at h
      | some effect =>
        cases effect with
        | halt reason shared' =>
          simp only [heffect, Option.some.injEq] at h
          exact .inl ⟨reason, shared', halts_of_threadStep heffect, by rw [← h, stopped]⟩
        | run thread' shared' events =>
          simp only [heffect, Option.some.injEq] at h
          exact .inr ⟨thread', shared', events, move_of_threadStep heffect, by rw [← h, moved, hhalted]⟩

theorem step_of_move {algorithm : Algorithm} {s : Producer} {i : Nat} {thread thread' : Thread}
    {shared' : Shared} {events : List Event} (hhalted : s.halted = none)
    (hthread : s.threads[i]? = some thread)
    (h : Move algorithm thread s.shared thread' shared' events) :
    step algorithm s i = some (moved s i thread thread' shared' events) := by
  simp only [step, hhalted, hthread, threadStep_of_move h, moved]

/-- Each halt is a step too. -/
theorem step_of_halts {s : Producer} {i : Nat} {thread : Thread} {reason : Halt} {shared' : Shared}
    (algorithm : Algorithm) (hhalted : s.halted = none) (hthread : s.threads[i]? = some thread)
    (h : Halts thread s.shared reason shared') :
    step algorithm s i = some (stopped s reason shared') := by
  have heffect : threadStep algorithm thread s.shared = some (.halt reason shared') := by
    unfold threadStep
    cases h with
    | empty hpc hsize => simp only [hpc, readStep, if_pos hsize]
    | outside hpc hextent => simp only [hpc, readStep, if_pos hextent]
    | null hpc => simp only [hpc, writeStep]
    | cut hpc hfits => simp only [hpc, writeStep, if_pos hfits]
  simp only [step, hhalted, hthread, heffect, stopped]

/-- A run stays a run of moves and creations as long as the process is alive. -/
inductive Live (algorithm : Algorithm) (s : Producer) : Producer → Prop
  | create {processId : Nat} {processSize : Int} (processDelay : Int)
      (hfresh : FreshId s processId) (hpos : 0 < processSize) :
      Live algorithm s (create s processId processSize processDelay)
  | move {i : Nat} {thread thread' : Thread} {shared' : Shared} {events : List Event}
      (hthread : s.threads[i]? = some thread)
      (h : Move algorithm thread s.shared thread' shared' events) :
      Live algorithm s (moved s i thread thread' shared' events)

/-- A step leaves the process alive or stops it. -/
theorem live_or_halt {algorithm : Algorithm} {s t : Producer} (h : Step algorithm s t) :
    s.halted = none ∧ (Live algorithm s t ∨
      ∃ (i : Nat) (thread : Thread) (reason : Halt) (shared' : Shared),
        s.threads[i]? = some thread ∧ Halts thread s.shared reason shared' ∧
        t = stopped s reason shared') := by
  cases h with
  | create delay hhalted hfresh hpos => exact ⟨hhalted, .inl (.create delay hfresh hpos)⟩
  | run hstep =>
    obtain ⟨hhalted, thread, hthread, ⟨reason, shared', hhalts, rfl⟩ |
      ⟨thread', shared', events, hmove, rfl⟩⟩ := step_cases hstep
    · exact ⟨hhalted, .inr ⟨_, thread, reason, shared', hthread, hhalts, rfl⟩⟩
    · exact ⟨hhalted, .inl (.move hthread hmove)⟩

end DynamicPartitions.Program.Moves
