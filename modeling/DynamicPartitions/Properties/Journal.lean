import DynamicPartitions.Program.Logging
import DynamicPartitions.Properties.Conservation

/-!
# Every line of the log is one whole call

A worker calls `slog` between its `sem_wait` and its `sem_post`, so no two calls overlap,
the evaluation of `strclr` included: the static buffers are never overwritten between the
write and the read, and `slog_mutex` never makes a worker wait. What the calls leave on the
screen and in the files is what the same calls would leave one after another.
-/
namespace DynamicPartitions.Properties.Journal

open Relation
open DynamicPartitions.Lib.Update
open DynamicPartitions.Parson.Value
open DynamicPartitions.Program.Algorithms
open DynamicPartitions.Program.WorkerThread
open DynamicPartitions.Program.Threads hiding Step Reachable Starts
open DynamicPartitions.Program.Moves
open DynamicPartitions.Program.Exclusion
open DynamicPartitions.Program.Calls
open DynamicPartitions.Program.Observation
open DynamicPartitions.Program.Logging
open DynamicPartitions.Refinement.Memory
open DynamicPartitions.Properties.Conservation
open DynamicPartitions.Slog.Config
open DynamicPartitions.Slog.Record

/-! ## At most one call -/

theorem critical_of_logs {s : Producer} {i : Nat} {worker : Worker} {outcome : Outcome}
    (h : Logs s i worker outcome) :
    ∃ thread, s.threads[i]? = some thread ∧ thread.pc.isCritical = true := by
  obtain ⟨thread, hi, -, hpc⟩ := h
  exact ⟨thread, hi, by rw [hpc]; rfl⟩

theorem logs_unique {s : Producer} (hwell : WellFormed s) {i j : Nat} {worker other : Worker}
    {outcome outcome' : Outcome} (hi : Logs s i worker outcome) (hj : Logs s j other outcome') :
    j = i ∧ other = worker ∧ outcome' = outcome := by
  obtain ⟨_, hthread, hcritical⟩ := critical_of_logs hi
  obtain ⟨_, hthread', hcritical'⟩ := critical_of_logs hj
  obtain rfl := critical_unique hwell hthread' hthread hcritical' hcritical
  obtain ⟨thread, hfirst, rfl, hpc⟩ := hi
  obtain ⟨thread', hsecond, rfl, hpc'⟩ := hj
  obtain rfl : thread' = thread := Option.some.inj (hsecond.symm.trans hfirst)
  exact ⟨rfl, rfl, Pc.slog.inj (hpc'.symm.trans hpc)⟩

theorem logs_create_iff {s : Producer} {processId : Nat} {processSize processDelay : Int} {i : Nat}
    {worker : Worker} {outcome : Outcome} :
    Logs (create s processId processSize processDelay) i worker outcome ↔ Logs s i worker outcome := by
  constructor
  · rintro ⟨thread, hi, hworker, hpc⟩
    rcases getElem?_concat_cases hi with hold | ⟨-, rfl⟩
    · exact ⟨thread, hold, hworker, hpc⟩
    · cases hpc
  · rintro ⟨thread, hi, hworker, hpc⟩
    have hlt := (List.getElem?_eq_some_iff.mp hi).1
    exact ⟨thread, (List.getElem?_append_left hlt).trans hi, hworker, hpc⟩

theorem logs_moved_of_ne {s : Producer} {i j : Nat} {thread thread' : Thread} {shared' : Shared}
    {events : List Event} {worker : Worker} {outcome : Outcome} (hne : j ≠ i) :
    Logs (moved s i thread thread' shared' events) j worker outcome ↔ Logs s j worker outcome := by
  unfold Logs moved
  rw [List.getElem?_set_ne hne.symm]

/-- A step of a worker that is not in a call neither ends nor overtakes a call. -/
theorem logs_step {algorithm : Algorithm} {s t : Producer} {i : Nat} (hwell : WellFormed t)
    (hout : ∀ worker outcome, ¬ Logs s i worker outcome) (hstep : step algorithm s i = some t)
    {j : Nat} {worker : Worker} {outcome : Outcome} :
    (Logs s j worker outcome → Logs t j worker outcome) ∧
    (Logs t j worker outcome → Logs s j worker outcome ∨ NoneLogs s) := by
  obtain ⟨-, thread, hi, ⟨reason, shared', -, rfl⟩ | ⟨thread', shared', events, hmove, rfl⟩⟩ :=
    step_cases hstep
  · exact ⟨id, .inl⟩
  · have hkeep : ∀ {k worker outcome}, Logs s k worker outcome →
        Logs (moved s i thread thread' shared' events) k worker outcome := fun {k _ _} hk => by
      have hne : k ≠ i := by
        rintro rfl
        exact hout _ _ hk
      exact (logs_moved_of_ne hne).mpr hk
    refine ⟨hkeep, fun hj => ?_⟩
    by_cases hne : j = i
    · subst hne
      refine .inr fun k other outcome' hk => ?_
      obtain ⟨rfl, -, -⟩ := logs_unique hwell hj (hkeep hk)
      exact hout _ _ hk
    · exact .inl ((logs_moved_of_ne hne).mp hj)

/-! ## What the history gains -/

theorem log_append (history : List (Worker × Event)) (worker : Worker) (events : List Event) :
    log (history ++ events.map (Prod.mk worker)) =
      log history ++ log (events.map (Prod.mk worker)) := by
  unfold log
  rw [List.filterMap_append]

theorem log_events_of_move {algorithm : Algorithm} {thread thread' : Thread} {shared shared' : Shared}
    {events : List Event} (hmove : Move algorithm thread shared thread' shared' events)
    (hpc : ∀ outcome, thread.pc ≠ .slog outcome) : log (events.map (Prod.mk thread.worker)) = [] := by
  cases hmove with
  | @loaded call stSize hpc hextent =>
    cases call with
    | placement =>
      simp only [afterRead]
      split <;> rfl
    | _ => rfl
  | logged hslog => exact absurd hslog (hpc _)
  | _ => rfl

theorem log_step {algorithm : Algorithm} {s t : Producer} {i : Nat}
    (hout : ∀ worker outcome, ¬ Logs s i worker outcome) (hstep : step algorithm s i = some t) :
    log t.history = log s.history := by
  obtain ⟨-, thread, hi, ⟨reason, shared', -, rfl⟩ | ⟨thread', shared', events, hmove, rfl⟩⟩ :=
    step_cases hstep
  · rfl
  · have hnone := log_events_of_move hmove fun outcome hpc => hout _ outcome ⟨thread, hi, rfl, hpc⟩
    rw [moved, log_append, hnone, List.append_nil]

/-- The last step of a call. -/
theorem step_logged {algorithm : Algorithm} {s t : Producer} {i : Nat} {worker : Worker}
    {outcome : Outcome} (hi : Logs s i worker outcome) (hstep : step algorithm s i = some t) :
    (∀ other outcome', ¬ Logs t i other outcome') ∧
    (∀ j other outcome', j ≠ i → Logs t j other outcome' → Logs s j other outcome') ∧
    log t.history = log s.history ++ [(worker, slogLine worker outcome)] := by
  obtain ⟨thread, hthread, rfl, hpc⟩ := hi
  obtain ⟨hhalted, -⟩ := step_cases hstep
  have hmove : Move algorithm thread s.shared (thread.at (.semPost outcome)) s.shared [.logged outcome] :=
    .logged hpc
  obtain rfl := Option.some.inj ((step_of_move hhalted hthread hmove).symm.trans hstep)
  refine ⟨?_, fun j other outcome' hne hj => (logs_moved_of_ne hne).mp hj, ?_⟩
  · rintro other outcome' ⟨after, hafter, -, hslog⟩
    obtain rfl := Option.some.inj ((getElem?_set_self_of_some hthread _).symm.trans hafter)
    cases hslog
  · rw [moved, log_append]
    rfl

/-! ## What a call has done so far -/

section Call

variable (slg : SlogFlags) (opens : CString → Bool)

/-- The output once the line is on the screen, if it goes there. -/
def shown (date : SlogDate) (string : CString) (base : Output) : Output :=
  if 0 ≤ slg.level then base.print (slogGet date (string ++ ['\n'])) else base

/-- The buffers and the output in a call that started on the given output. -/
def Consistent (base : Output) (worker : Worker) (outcome : Outcome) (logger : Logger) : Stage → Prop
  | .coloring => logger.output = base
  | .locking | .formatting =>
    logger.output = base ∧ logger.colored = strclr (tagOf outcome).1 (tagOf outcome).2
  | .printing _ string => logger.output = base ∧ 0 ≤ slg.level ∧ string = ownMessage worker outcome
  | .showing date string => logger.output = base ∧ 0 ≤ slg.level ∧ string = ownMessage worker outcome ∧
      logger.gotten = slogGet date (string ++ ['\n'])
  | .saving date string =>
    logger.output = shown slg date string base ∧ Saves slg ∧ string = ownMessage worker outcome
  | .appending date => logger.output = shown slg date (ownMessage worker outcome) base ∧ Saves slg ∧
      logger.gotten = slogGet date (ownMessage worker outcome ++ ['\n'])
  | .unlocking date => logger.output = enter slg opens base (worker, outcome, date)

/-- A whole call, by what it shows and what it saves. -/
theorem enter_eq (base : Output) (worker : Worker) (outcome : Outcome) (date : SlogDate) :
    enter slg opens base (worker, outcome, date) =
      if Saves slg then
        slogToFile slg opens date (slogGet date (ownMessage worker outcome ++ ['\n']))
          (shown slg date (ownMessage worker outcome) base)
      else shown slg date (ownMessage worker outcome) base :=
  slog_eq slg opens date 0 slogNone (ownMessage worker outcome) base

variable {slg opens} {base : Output} {worker : Worker} {outcome : Outcome} {logger logger' : Logger}

theorem consistent_afterScreen {date : SlogDate} {string : CString}
    (houtput : logger.output = shown slg date string base) (hstring : string = ownMessage worker outcome) :
    Consistent slg opens base worker outcome logger (afterScreen slg date string) := by
  unfold afterScreen
  by_cases hsaves : Saves slg
  · rw [if_pos hsaves]
    exact ⟨houtput, hsaves, hstring⟩
  · rw [if_neg hsaves]
    show logger.output = enter slg opens base (worker, outcome, date)
    rw [enter_eq, if_neg hsaves, houtput, hstring]

/-- One step of a call. -/
theorem consistent_slogStep {date : SlogDate} {i : Nat} {stage stage' : Stage}
    (h : Consistent slg opens base worker outcome logger stage)
    (hstep : slogStep slg opens date i worker outcome logger stage = some (logger', stage')) :
    Consistent slg opens base worker outcome logger' stage' := by
  cases stage with
  | coloring =>
    obtain ⟨rfl, rfl⟩ := Prod.mk.inj (Option.some.inj hstep)
    exact ⟨h, rfl⟩
  | locking =>
    simp only [slogStep] at hstep
    split at hstep
    · obtain ⟨rfl, rfl⟩ := Prod.mk.inj (Option.some.inj hstep)
      exact h
    · split at hstep
      · obtain ⟨rfl, rfl⟩ := Prod.mk.inj (Option.some.inj hstep)
        exact h
      · cases hstep
  | formatting =>
    obtain ⟨rfl, rfl⟩ := Prod.mk.inj (Option.some.inj hstep)
    obtain ⟨houtput, hcolored⟩ := h
    have hstring : message worker outcome logger.colored = ownMessage worker outcome := by
      rw [hcolored, ownMessage]
    by_cases hlevel : 0 ≤ slg.level
    · rw [if_pos hlevel]
      exact ⟨houtput, hlevel, hstring⟩
    · rw [if_neg hlevel]
      exact consistent_afterScreen (by rw [shown, if_neg hlevel, houtput]) hstring
  | printing date' string =>
    obtain ⟨rfl, rfl⟩ := Prod.mk.inj (Option.some.inj hstep)
    exact ⟨h.1, h.2.1, h.2.2, rfl⟩
  | showing date' string =>
    obtain ⟨rfl, rfl⟩ := Prod.mk.inj (Option.some.inj hstep)
    obtain ⟨houtput, hlevel, hstring, hgotten⟩ := h
    refine consistent_afterScreen ?_ hstring
    show logger.output.print logger.gotten = _
    rw [shown, if_pos hlevel, houtput, hgotten]
  | saving date' string =>
    obtain ⟨rfl, rfl⟩ := Prod.mk.inj (Option.some.inj hstep)
    obtain ⟨houtput, hsaves, rfl⟩ := h
    exact ⟨houtput, hsaves, rfl⟩
  | appending date' =>
    obtain ⟨rfl, rfl⟩ := Prod.mk.inj (Option.some.inj hstep)
    obtain ⟨houtput, hsaves, hgotten⟩ := h
    show slogToFile slg opens date' logger.gotten logger.output = _
    rw [enter_eq, if_pos hsaves, houtput, hgotten]
  | unlocking date' => cases hstep

/-- A step of a call takes the mutex or leaves it, and does not go back out of it. -/
theorem slogMutex_slogStep {date : SlogDate} {i : Nat} {stage stage' : Stage}
    (hstep : slogStep slg opens date i worker outcome logger stage = some (logger', stage')) :
    (logger'.slogMutex = logger.slogMutex ∧ (stage.isLocked = true → stage'.isLocked = true)) ∨
    (logger'.slogMutex = some i ∧ slg.tdSafe ≠ 0 ∧ stage'.isLocked = true) := by
  have hscreen : ∀ date string, (afterScreen slg date string).isLocked = true := by
    intro date string
    unfold afterScreen
    split <;> rfl
  cases stage with
  | locking =>
    simp only [slogStep] at hstep
    split at hstep
    · obtain ⟨rfl, rfl⟩ := Prod.mk.inj (Option.some.inj hstep)
      exact .inl ⟨rfl, fun _ => rfl⟩
    next hsafe =>
      split at hstep
      · obtain ⟨rfl, rfl⟩ := Prod.mk.inj (Option.some.inj hstep)
        exact .inr ⟨rfl, hsafe, rfl⟩
      · cases hstep
  | formatting =>
    obtain ⟨rfl, rfl⟩ := Prod.mk.inj (Option.some.inj hstep)
    refine .inl ⟨rfl, fun _ => ?_⟩
    split
    · rfl
    · exact hscreen _ _
  | showing date' string =>
    obtain ⟨rfl, rfl⟩ := Prod.mk.inj (Option.some.inj hstep)
    exact .inl ⟨rfl, fun _ => hscreen _ _⟩
  | unlocking date' => cases hstep
  | _ =>
    obtain ⟨rfl, rfl⟩ := Prod.mk.inj (Option.some.inj hstep)
    exact .inl ⟨rfl, fun h => h⟩

end Call

/-! ## The invariant -/

/-- The calls, the mutex, the output and the journal of a reachable process. -/
structure Kept (slg : SlogFlags) (opens : CString → Bool) (output : Output) (s : Process) : Prop where
  busy : ∀ i, s.stages i ≠ .coloring → ∃ worker outcome, Logs s.producer i worker outcome
  mutex : ∀ i, s.logger.slogMutex = some i → slg.tdSafe ≠ 0 ∧ (s.stages i).isLocked = true
  written : ∀ i worker outcome, Logs s.producer i worker outcome →
    Consistent slg opens (enterAll slg opens output s.journal) worker outcome s.logger (s.stages i)
  idle : NoneLogs s.producer → s.logger.output = enterAll slg opens output s.journal
  recorded : log s.producer.history = s.journal.map fun entry => (entry.1, slogLine entry.1 entry.2.1)

section Invariant

variable {slg : SlogFlags} {opens : CString → Bool} {algorithm : Algorithm} {output : Output}
  {s t : Process}

theorem Kept.stage_of_noneLogs (h : Kept slg opens output s) (hnone : NoneLogs s.producer) (i : Nat) :
    s.stages i = .coloring := by
  by_contra hstage
  obtain ⟨worker, outcome, hi⟩ := h.busy i hstage
  exact hnone i worker outcome hi

/-- Steps outside the calls. -/
theorem Kept.outside {producer : Producer} (h : Kept slg opens output s)
    (hkeep : ∀ i worker outcome, Logs s.producer i worker outcome → Logs producer i worker outcome)
    (hnew : ∀ i worker outcome, Logs producer i worker outcome →
      Logs s.producer i worker outcome ∨ NoneLogs s.producer)
    (hlog : log producer.history = log s.producer.history) :
    Kept slg opens output { s with producer } where
  busy i hstage := by
    obtain ⟨worker, outcome, hi⟩ := h.busy i hstage
    exact ⟨worker, outcome, hkeep i worker outcome hi⟩
  mutex := h.mutex
  written i worker outcome hi := by
    rcases hnew i worker outcome hi with hold | hnone
    · exact h.written i worker outcome hold
    · show Consistent slg opens _ worker outcome s.logger (s.stages i)
      rw [h.stage_of_noneLogs hnone i]
      exact h.idle hnone
  idle hnone := h.idle fun i worker outcome hi => hnone i worker outcome (hkeep i worker outcome hi)
  recorded := hlog.trans h.recorded

/-- A step inside a call. -/
theorem Kept.inside {i : Nat} {worker : Worker} {outcome : Outcome} {date : SlogDate} {logger : Logger}
    {stage : Stage} (h : Kept slg opens output s) (hwell : WellFormed s.producer)
    (hi : Logs s.producer i worker outcome)
    (hcall : slogStep slg opens date i worker outcome s.logger (s.stages i) = some (logger, stage)) :
    Kept slg opens output { s with logger, stages := Function.update s.stages i stage } := by
  have hself : Function.update s.stages i stage i = stage := Function.update_self _ _ _
  have hrest : ∀ j, j ≠ i → Function.update s.stages i stage j = s.stages j := fun j hne =>
    Function.update_of_ne hne _ _
  refine ⟨fun j hj => ?_, fun j hj => ?_, fun j other outcome' hj => ?_, fun hnone => ?_, h.recorded⟩
  · by_cases hne : j = i
    · exact ⟨worker, outcome, hne ▸ hi⟩
    · exact h.busy j fun heq => hj ((hrest j hne).trans heq)
  · show slg.tdSafe ≠ 0 ∧ (Function.update s.stages i stage j).isLocked = true
    rcases slogMutex_slogStep hcall with ⟨hsame, hlocked⟩ | ⟨htaken, hsafe, hlocked⟩
    · obtain ⟨hsafe, hheld⟩ := h.mutex j (hsame.symm.trans hj)
      refine ⟨hsafe, ?_⟩
      by_cases hne : j = i
      · subst hne
        rw [hself]
        exact hlocked hheld
      · rw [hrest j hne]
        exact hheld
    · obtain rfl : i = j := Option.some.inj (htaken.symm.trans hj)
      rw [hself]
      exact ⟨hsafe, hlocked⟩
  · obtain ⟨rfl, rfl, rfl⟩ := logs_unique hwell hi hj
    show Consistent slg opens _ other outcome' logger (Function.update s.stages j stage j)
    rw [hself]
    exact consistent_slogStep (h.written _ _ _ hj) hcall
  · exact absurd hi (hnone i worker outcome)

/-- The end of a call. -/
theorem Kept.logged {i : Nat} {worker : Worker} {outcome : Outcome} {date : SlogDate} {producer : Producer}
    (h : Kept slg opens output s) (hwell : WellFormed s.producer) (hi : Logs s.producer i worker outcome)
    (hstage : s.stages i = .unlocking date) (hstep : step algorithm s.producer i = some producer) :
    Kept slg opens output
      { producer, logger := unlock slg s.logger, stages := Function.update s.stages i .coloring
        journal := s.journal ++ [(worker, outcome, date)] } := by
  obtain ⟨hgone, hothers, hlog⟩ := step_logged hi hstep
  have hnone : NoneLogs producer := by
    intro j other outcome' hj
    by_cases hne : j = i
    · subst hne
      exact hgone other outcome' hj
    · exact hne (logs_unique hwell hi (hothers j other outcome' hne hj)).1
  have hcoloring : ∀ j, Function.update s.stages i .coloring j = .coloring := by
    intro j
    by_cases hne : j = i
    · rw [hne, Function.update_self]
    · rw [Function.update_of_ne hne]
      by_contra hj
      obtain ⟨other, outcome', hlogs⟩ := h.busy j hj
      exact hne (logs_unique hwell hi hlogs).1
  refine ⟨fun j hj => absurd (hcoloring j) hj, fun j hj => ?_,
    fun j other outcome' hj => absurd hj (hnone j other outcome'), fun _ => ?_, ?_⟩
  · have hfree : slg.tdSafe = 0 ∧ s.logger.slogMutex = some j := by
      simp only [unlock] at hj
      split at hj
      next hsafe => exact ⟨hsafe, hj⟩
      next => cases hj
    exact absurd hfree.1 (h.mutex j hfree.2).1
  · have hwritten := h.written i worker outcome hi
    rw [hstage] at hwritten
    have hunlock : (unlock slg s.logger).output = s.logger.output := by
      unfold unlock
      split <;> rfl
    rw [enterAll, List.foldl_append]
    exact hunlock.trans hwritten
  · rw [hlog, h.recorded, List.map_append]
    rfl

theorem kept_step (h : Kept slg opens output s) (hwell : WellFormed s.producer)
    (hwell' : WellFormed t.producer) (hstep : Step slg opens algorithm s t) : Kept slg opens output t := by
  cases hstep with
  | create delay _ _ _ heq =>
    subst heq
    exact h.outside (fun _ _ _ => logs_create_iff.mpr) (fun _ _ _ hi => .inl (logs_create_iff.mp hi)) rfl
  | run hout hrun =>
    exact h.outside (fun _ _ _ => (logs_step hwell' hout hrun).1)
      (fun _ _ _ => (logs_step hwell' hout hrun).2) (log_step hout hrun)
  | log hlog =>
    cases hlog with
    | inside date _ hi hcall => exact h.inside hwell hi hcall
    | logged hi hstage hrun => exact h.logged hwell hi hstage hrun

/-- To the workers a step is one of theirs, or nothing has happened. -/
theorem producer_step (hstep : Step slg opens algorithm s t) :
    t.producer = s.producer ∨ Program.Threads.Step algorithm s.producer t.producer := by
  cases hstep with
  | create delay hhalted hfresh hpos heq =>
    subst heq
    exact .inr (.create delay hhalted hfresh hpos)
  | run _ hrun => exact .inr (.run hrun)
  | log hlog =>
    cases hlog with
    | inside => exact .inl rfl
    | logged _ _ hrun => exact .inr (.run hrun)

theorem producer_reachable {schema : CString} (h : Reachable slg opens algorithm schema output s) :
    Program.Threads.Reachable algorithm schema s.producer := by
  obtain ⟨start, hstart, hrun⟩ := h
  refine ⟨start.producer, hstart.1, ?_⟩
  induction hrun with
  | refl => exact .refl
  | tail _ hstep ih =>
    rcases producer_step hstep with heq | hmove
    · rw [heq]
      exact ih
    · exact ih.tail hmove

theorem kept_of_reachable {schema : CString} (h : Reachable slg opens algorithm schema output s) :
    Kept slg opens output s := by
  obtain ⟨start, hstart, hrun⟩ := h
  induction hrun with
  | refl =>
    obtain ⟨⟨-, -, -, hthreads, hhistory, -⟩, hmutex, houtput, hstages, hjournal⟩ := hstart
    have hnone : NoneLogs start.producer := by
      rintro i worker outcome ⟨thread, hi, -⟩
      simp [hthreads] at hi
    refine ⟨fun i hi => absurd (hstages i) hi, fun i hi => ?_,
      fun i worker outcome hi => absurd hi (hnone i worker outcome), fun _ => ?_, ?_⟩
    · rw [hmutex] at hi
      cases hi
    · rw [hjournal, houtput]
      rfl
    · rw [hhistory, hjournal]
      rfl
  | tail hprev hstep ih =>
    exact kept_step ih (wellFormed_of_reachable (producer_reachable ⟨start, hstart, hprev⟩))
      (wellFormed_of_reachable (producer_reachable ⟨start, hstart, hprev.tail hstep⟩)) hstep

/-- A worker in a call is never kept waiting. -/
theorem exists_logStep (h : Kept slg opens output s) (hwell : WellFormed s.producer)
    (hhalted : s.producer.halted = none) {i : Nat} {worker : Worker} {outcome : Outcome}
    (hi : Logs s.producer i worker outcome) (date : SlogDate) :
    ∃ t, LogStep slg opens algorithm s i t := by
  have hinside : ∀ {logger stage}, slogStep slg opens date i worker outcome s.logger (s.stages i) =
      some (logger, stage) → ∃ t, LogStep slg opens algorithm s i t := fun hcall =>
    ⟨_, .inside date hhalted hi hcall⟩
  cases hstage : s.stages i with
  | locking =>
    have hfree : s.logger.slogMutex = none := by
      rw [Option.eq_none_iff_forall_ne_some]
      intro j hj
      obtain ⟨-, hlocked⟩ := h.mutex j hj
      have hbusy : s.stages j ≠ .coloring := by
        intro hcoloring
        rw [hcoloring] at hlocked
        cases hlocked
      obtain ⟨other, outcome', hlogs⟩ := h.busy j hbusy
      obtain ⟨rfl, -, -⟩ := logs_unique hwell hi hlogs
      rw [hstage] at hlocked
      cases hlocked
    by_cases hsafe : slg.tdSafe = 0
    · exact hinside (by rw [hstage, slogStep, if_pos hsafe])
    · exact hinside (by rw [hstage, slogStep, if_neg hsafe, hfree])
  | unlocking date =>
    have hlogs := hi
    obtain ⟨thread, hthread, -, hpc⟩ := hi
    exact ⟨_, .logged hlogs hstage (step_of_move hhalted hthread (.logged hpc))⟩
  | _ => exact hinside (by rw [hstage, slogStep])

end Invariant

/-! ## Every run of the workers is a run with the logger -/

section Whole

variable {slg : SlogFlags} {opens : CString → Bool} {algorithm : Algorithm} {s : Process} {i : Nat}
  {worker : Worker} {outcome : Outcome}

/-- The process with worker `i` at a stage of its call. -/
def inCall (s : Process) (i : Nat) (logger : Logger) (stage : Stage) : Process :=
  { s with logger, stages := Function.update s.stages i stage }

theorem inside_step (hhalted : s.producer.halted = none) (hi : Logs s.producer i worker outcome)
    (date : SlogDate) (logger : Logger) (stage : Stage) {logger' : Logger} {stage' : Stage}
    (hcall : slogStep slg opens date i worker outcome logger stage = some (logger', stage')) :
    Step slg opens algorithm (inCall s i logger stage) (inCall s i logger' stage') := by
  have hself : (inCall s i logger stage).stages i = stage := Function.update_self _ _ _
  have hstep : LogStep slg opens algorithm (inCall s i logger stage) i _ :=
    .inside date hhalted hi (hself.symm ▸ hcall)
  simp only [inCall, Function.update_idem] at hstep
  exact .log hstep

theorem screen_run (hhalted : s.producer.halted = none) (hi : Logs s.producer i worker outcome)
    (date : SlogDate) (string : CString) (logger : Logger) :
    ∃ logger', logger'.slogMutex = logger.slogMutex ∧
      ReflTransGen (Step slg opens algorithm) (inCall s i logger (afterScreen slg date string))
        (inCall s i logger' (.unlocking date)) := by
  unfold afterScreen
  split
  · have hsaving : Step slg opens algorithm (inCall s i logger (.saving date string))
        (inCall s i _ (.appending date)) := inside_step hhalted hi date logger _ rfl
    refine ⟨_, ?_, (ReflTransGen.single hsaving).tail (inside_step hhalted hi date _ _ rfl)⟩
    rfl
  · exact ⟨logger, rfl, .refl⟩

/-- A call that nothing comes between. -/
theorem call_run (hhalted : s.producer.halted = none) (hi : Logs s.producer i worker outcome)
    (hmutex : s.logger.slogMutex = none) (date : SlogDate) :
    ∃ logger', (unlock slg logger').slogMutex = none ∧
      ReflTransGen (Step slg opens algorithm) (inCall s i s.logger .coloring)
        (inCall s i logger' (.unlocking date)) := by
  have hcoloring : Step slg opens algorithm (inCall s i s.logger .coloring) (inCall s i _ .locking) :=
    inside_step hhalted hi date s.logger _ rfl
  obtain ⟨locked, hlocked, hlocking⟩ : ∃ locked, (unlock slg locked).slogMutex = none ∧
      Step slg opens algorithm (inCall s i { s.logger with
        colored := strclr (tagOf outcome).1 (tagOf outcome).2 } .locking)
        (inCall s i locked .formatting) := by
    by_cases hsafe : slg.tdSafe = 0
    · refine ⟨_, ?_, inside_step hhalted hi date _ _ (by rw [slogStep, if_pos hsafe])⟩
      rw [unlock, if_pos hsafe]
      exact hmutex
    · refine ⟨_, ?_, inside_step hhalted hi date _ _ (by rw [slogStep, if_neg hsafe, hmutex])⟩
      rw [unlock, if_neg hsafe]
  have hrelease : ∀ {logger'}, logger'.slogMutex = locked.slogMutex →
      (unlock slg logger').slogMutex = none := fun {logger'} heq => by
    unfold unlock at hlocked ⊢
    by_cases hsafe : slg.tdSafe = 0
    · rw [if_pos hsafe] at hlocked ⊢
      exact heq.trans hlocked
    · rw [if_neg hsafe]
  have hstart := ((ReflTransGen.single hcoloring).tail hlocking).tail
    (inside_step hhalted hi date locked .formatting rfl)
  obtain ⟨printed, hprinted, hscreen⟩ : ∃ printed, printed.slogMutex = locked.slogMutex ∧
      ReflTransGen (Step slg opens algorithm) (inCall s i s.logger .coloring)
        (inCall s i printed (afterScreen slg date (message worker outcome locked.colored))) := by
    by_cases hlevel : 0 ≤ slg.level
    · rw [if_pos hlevel] at hstart
      have hprinting := hstart.tail (inside_step hhalted hi date locked _ rfl)
      refine ⟨_, ?_, hprinting.tail (inside_step hhalted hi date _ _ rfl)⟩
      rfl
    · rw [if_neg hlevel] at hstart
      exact ⟨locked, rfl, hstart⟩
  obtain ⟨logger', heq, hend⟩ := screen_run hhalted hi date _ printed
  exact ⟨logger', hrelease (heq.trans hprinted), hscreen.trans hend⟩

end Whole

/-- A process whose logger has not been used. -/
def beforeCalls (producer : Producer) (output : Output) : Process :=
  ⟨producer, ⟨[], [], none, output⟩, fun _ => .coloring, []⟩

theorem reachable_beforeCalls (slg : SlogFlags) (opens : CString → Bool) (algorithm : Algorithm)
    {schema : CString} {p : Producer} (h : Program.Threads.Starts schema p) (output : Output) :
    Reachable slg opens algorithm schema output (beforeCalls p output) :=
  ⟨beforeCalls p output, ⟨h, rfl, rfl, fun _ => rfl, rfl⟩, .refl⟩

/-- Each run of the workers' machine, with every call of `slog` made at one stroke. -/
theorem reachable_of_producer {slg : SlogFlags} {opens : CString → Bool} {algorithm : Algorithm}
    {schema : CString} (output : Output) {p : Producer}
    (h : Program.Threads.Reachable algorithm schema p) :
    ∃ s, Reachable slg opens algorithm schema output s ∧ s.producer = p ∧
      s.logger.slogMutex = none ∧ ∀ i, s.stages i = .coloring := by
  obtain ⟨start, hstart, hrun⟩ := h
  induction hrun with
  | refl =>
    exact ⟨_, reachable_beforeCalls slg opens algorithm hstart output, rfl, rfl, fun _ => rfl⟩
  | tail hprev hstep ih =>
    obtain ⟨s, ⟨first, hfirst, hsteps⟩, rfl, hmutex, hstages⟩ := ih
    cases hstep with
    | create delay hhalted hfresh hpos =>
      exact ⟨_, ⟨first, hfirst, hsteps.tail (.create delay hhalted hfresh hpos rfl)⟩, rfl, hmutex, hstages⟩
    | @run i t hstep =>
      by_cases hlogs : ∃ worker outcome, Logs s.producer i worker outcome
      · obtain ⟨worker, outcome, hi⟩ := hlogs
        obtain ⟨hhalted, -⟩ := step_cases hstep
        obtain ⟨logger', hfree, hcall⟩ : ∃ logger', (unlock slg logger').slogMutex = none ∧
            ReflTransGen (Step slg opens algorithm) (inCall s i s.logger .coloring)
              (inCall s i logger' (.unlocking ⟨0, 0, 0, 0, 0, 0, 0⟩)) := call_run hhalted hi hmutex _
        have hcoloring : inCall s i s.logger .coloring = s := by
          rw [inCall, ← hstages i, Function.update_eq_self]
        have hself : (inCall s i logger' (.unlocking ⟨0, 0, 0, 0, 0, 0, 0⟩)).stages i =
            .unlocking ⟨0, 0, 0, 0, 0, 0, 0⟩ := Function.update_self _ _ _
        rw [hcoloring] at hcall
        refine ⟨_, ⟨first, hfirst, (hsteps.trans hcall).tail (.log (.logged hi hself hstep))⟩, rfl, hfree,
          fun j => ?_⟩
        show Function.update (Function.update s.stages i _) i _ j = _
        rw [Function.update_idem, ← hstages i, Function.update_eq_self]
        exact (hstages j).trans (hstages i).symm
      · refine ⟨_, ⟨first, hfirst, hsteps.tail (.run ?_ hstep)⟩, rfl, hmutex, hstages⟩
        exact fun worker outcome hi => hlogs ⟨worker, outcome, hi⟩

/-! ## The journal -/

/-- The output in the middle of a call: nothing of it, its line on the screen, or all of it. -/
def Underway (slg : SlogFlags) (opens : CString → Bool) (base : Output)
    (entry : Worker × Outcome × SlogDate) (out : Output) : Prop :=
  out = base ∨ out = shown slg entry.2.2 (ownMessage entry.1 entry.2.1) base ∨
    out = enter slg opens base entry

theorem underway_of_consistent {slg : SlogFlags} {opens : CString → Bool} {base : Output}
    {worker : Worker} {outcome : Outcome} {logger : Logger} {stage : Stage}
    (h : Consistent slg opens base worker outcome logger stage) :
    ∃ date, Underway slg opens base (worker, outcome, date) logger.output := by
  cases stage with
  | coloring => exact ⟨⟨0, 0, 0, 0, 0, 0, 0⟩, .inl h⟩
  | locking | formatting => exact ⟨⟨0, 0, 0, 0, 0, 0, 0⟩, .inl h.1⟩
  | printing date string | showing date string => exact ⟨date, .inl h.1⟩
  | saving date string =>
    obtain ⟨houtput, -, rfl⟩ := h
    exact ⟨date, .inr (.inl houtput)⟩
  | appending date => exact ⟨date, .inr (.inl h.1)⟩
  | unlocking date => exact ⟨date, .inr (.inr h)⟩

/-- The calls of `slog` taken apart run exactly as the single steps of the workers' machine:
the same histories are reachable, what is on the screen and in the files is what the calls
of the history leave one after another, each with its own tag, plus at most a part of the
one under way, and a worker in a call can always go on. -/
theorem journal_exact (slg : SlogFlags) (opens : CString → Bool) (algorithm : Algorithm)
    (schema : CString) (output : Output) :
    (∀ p, Program.Threads.Reachable algorithm schema p ↔
      ∃ s, Reachable slg opens algorithm schema output s ∧ s.producer = p) ∧
    ∀ s, Reachable slg opens algorithm schema output s →
      log s.producer.history = s.journal.map (fun entry => (entry.1, slogLine entry.1 entry.2.1)) ∧
      (NoneLogs s.producer → s.logger.output = enterAll slg opens output s.journal) ∧
      (∀ i worker outcome, Logs s.producer i worker outcome → ∃ date,
        Underway slg opens (enterAll slg opens output s.journal) (worker, outcome, date) s.logger.output) ∧
      (s.producer.halted = none → ∀ i worker outcome, Logs s.producer i worker outcome →
        ∃ t, LogStep slg opens algorithm s i t) := by
  refine ⟨fun p => ⟨fun hp => ?_, ?_⟩, fun s hs => ?_⟩
  · obtain ⟨s, hs, hproducer, -, -⟩ := reachable_of_producer output hp
    exact ⟨s, hs, hproducer⟩
  · rintro ⟨s, hs, rfl⟩
    exact producer_reachable hs
  · have hkept := kept_of_reachable hs
    have hwell := wellFormed_of_reachable (producer_reachable hs)
    exact ⟨hkept.recorded, hkept.idle,
      fun i worker outcome hi => underway_of_consistent (hkept.written i worker outcome hi),
      fun hhalted i worker outcome hi => exists_logStep hkept hwell hhalted hi ⟨0, 0, 0, 0, 0, 0, 0⟩⟩

theorem noneLogs_of_between {s : Producer} (h : BetweenSections s) : NoneLogs s := by
  intro i worker outcome hlogs
  obtain ⟨thread, hi, hcritical⟩ := critical_of_logs hlogs
  rw [h thread (List.mem_of_getElem? hi)] at hcritical
  cases hcritical

/-- Two workers are asleep, each with its ASIG line in the journal. -/
theorem journal_exact_asleep : ∃ s : Process,
    Reachable producerFlags (fun _ => true) .firstFit (schemaOf wide) ⟨[], fun _ => []⟩ s ∧
    s.producer.threads.length = 2 ∧
    (∀ thread ∈ s.producer.threads, (thread.worker, .asig thread.worker.processId 1
      thread.worker.processDelay) ∈ s.journal.map (fun entry => (entry.1, slogLine entry.1 entry.2.1))) ∧
    s.logger.output = enterAll producerFlags (fun _ => true) ⟨[], fun _ => []⟩ s.journal := by
  obtain ⟨p, hasleep⟩ := asleep_of_le 2 (by decide)
  have hexact := journal_exact producerFlags (fun _ => true) .firstFit (schemaOf wide) ⟨[], fun _ => []⟩
  obtain ⟨s, hs, rfl⟩ := (hexact.1 p).mp (reachable_of_when hasleep.reachable)
  obtain ⟨hrecorded, hidle, -⟩ := hexact.2 s hs
  refine ⟨s, hs, hasleep.count, fun thread hthread => ?_,
    hidle (noneLogs_of_between (between_of_asleep hasleep))⟩
  rw [← hrecorded]
  exact logged_of_asleep hasleep hthread

end DynamicPartitions.Properties.Journal
