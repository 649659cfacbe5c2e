import DynamicPartitions.Program.Exclusion

/-!
# Calls taken whole, and conditions on steps

A coarser view of a Producer, in which a call on some of the files is one step, and runs
in which every worker that moves meets a condition on the state it moves in. Both are
runs of the Producer.
-/
namespace DynamicPartitions.Program.Calls

open Relation (ReflTransGen)
open DynamicPartitions.Lib.Update
open DynamicPartitions.Parson.Value
open DynamicPartitions.Parson.Acceptance
open DynamicPartitions.Program.Algorithms
open DynamicPartitions.Program.MappedFile
open DynamicPartitions.Program.Threads
open DynamicPartitions.Program.Moves
open DynamicPartitions.Program.Exclusion

/-- How many effects a worker's next step takes when the calls on the `whole` files are
taken in one piece: a read has two, a write three. -/
def stride (whole : FileName → Bool) : Pc → Nat
  | .reading call .opening => if whole call.file then 2 else 1
  | .writing call (.opening _) => if whole call.file then 3 else 1
  | _ => 1

/-- A step in that view, taken by a worker that meets the condition. -/
inductive StepWhen (whole : FileName → Bool) (cond : Producer → Thread → Prop)
    (algorithm : Algorithm) (s : Producer) : Producer → Prop
  | create {processId : Nat} {processSize : Int} (processDelay : Int) : s.halted = none →
      FreshId s processId → 0 < processSize →
      StepWhen whole cond algorithm s (create s processId processSize processDelay)
  | run {i : Nat} {thread : Thread} {t : Producer} : s.threads[i]? = some thread →
      cond s thread → stepMany algorithm i (stride whole thread.pc) s = some t →
      StepWhen whole cond algorithm s t

def ReachableWhen (whole : FileName → Bool) (cond : Producer → Thread → Prop)
    (algorithm : Algorithm) (schema : CString) (s : Producer) : Prop :=
  ∃ start, Starts schema start ∧ ReflTransGen (StepWhen whole cond algorithm) start s

/-- No call is taken whole. -/
def piecewise : FileName → Bool := fun _ => false

/-- Every call is taken whole. -/
def everyCall : FileName → Bool := fun _ => true

/-- Every worker may move. -/
def always : Producer → Thread → Prop := fun _ _ => True

/-! ## They are runs of the Producer -/

theorem stepMany_one {algorithm : Algorithm} {s t : Producer} {i : Nat}
    (h : step algorithm s i = some t) : stepMany algorithm i 1 s = some t := by
  rw [stepMany, h, Option.bind_some]
  split <;> rfl

theorem run_of_stepMany {algorithm : Algorithm} {i : Nat} (n : Nat) :
    ∀ {s t : Producer}, stepMany algorithm i n s = some t → ReflTransGen (Step algorithm) s t := by
  induction n with
  | zero =>
    intro s t h
    obtain rfl := Option.some.inj h
    exact .refl
  | succ n ih =>
    intro s t h
    obtain ⟨u, hu, hrest⟩ := Option.bind_eq_some_iff.mp h
    refine .head (.run hu) ?_
    split at hrest
    · obtain rfl := Option.some.inj hrest
      exact .refl
    · exact ih hrest

theorem stride_pos (whole : FileName → Bool) (pc : Pc) : 0 < stride whole pc := by
  unfold stride
  split
  · split <;> omega
  · split <;> omega
  · omega

theorem stride_piecewise (pc : Pc) : stride piecewise pc = 1 := by
  unfold stride
  split <;> rfl

/-- Only a running process takes a step. -/
theorem halted_of_stepWhen {whole : FileName → Bool} {cond : Producer → Thread → Prop}
    {algorithm : Algorithm} {s t : Producer} (h : StepWhen whole cond algorithm s t) :
    s.halted = none := by
  cases h with
  | create delay hhalted hfresh hpos => exact hhalted
  | @run i thread t hi hcond hsteps =>
    obtain ⟨n, hn⟩ := Nat.exists_eq_succ_of_ne_zero (stride_pos whole thread.pc).ne'
    rw [hn] at hsteps
    obtain ⟨u, hu, -⟩ := Option.bind_eq_some_iff.mp hsteps
    exact (step_cases hu).1

theorem run_of_stepWhen {whole : FileName → Bool} {cond : Producer → Thread → Prop}
    {algorithm : Algorithm} {s t : Producer} (h : StepWhen whole cond algorithm s t) :
    ReflTransGen (Step algorithm) s t := by
  cases h with
  | create delay hhalted hfresh hpos => exact .single (.create delay hhalted hfresh hpos)
  | run hthread hcond hsteps => exact run_of_stepMany _ hsteps

theorem reachable_of_when {whole : FileName → Bool} {cond : Producer → Thread → Prop}
    {algorithm : Algorithm} {schema : CString} {s : Producer}
    (h : ReachableWhen whole cond algorithm schema s) : Reachable algorithm schema s := by
  obtain ⟨start, hstart, hrun⟩ := h
  refine ⟨start, hstart, ?_⟩
  induction hrun with
  | refl => exact .refl
  | tail _ hlast ih => exact ih.trans (run_of_stepWhen hlast)

theorem when_of_reachable {algorithm : Algorithm} {schema : CString} {s : Producer}
    (h : Reachable algorithm schema s) : ReachableWhen piecewise always algorithm schema s := by
  obtain ⟨start, hstart, hrun⟩ := h
  refine ⟨start, hstart, ReflTransGen.mono (fun s t hstep => ?_) start s hrun⟩
  cases hstep with
  | create delay hhalted hfresh hpos => exact .create delay hhalted hfresh hpos
  | run h =>
    obtain ⟨-, thread, hi, -⟩ := step_cases h
    refine .run hi trivial ?_
    rw [stride_piecewise]
    exact stepMany_one h

/-! ## A call nobody comes between -/

/-- Two moves of one worker in a row, the first of which records nothing. -/
theorem moved_moved (s : Producer) (i : Nat) (thread thread₂ : Thread) (pc : Pc)
    (shared₁ shared₂ : Shared) (events : List Event) :
    moved (moved s i thread (thread.at pc) shared₁ []) i (thread.at pc) thread₂ shared₂ events =
      moved s i thread thread₂ shared₂ events := by
  simp [moved, Thread.at]

theorem afterRead_at (algorithm : Algorithm) (thread : Thread) (pc : Pc) (data : Option CString)
    (call : ReadCall) :
    afterRead algorithm (thread.at pc) data call = afterRead algorithm thread data call := by
  cases call <;> rfl

@[simp] theorem content_setContent (shared : Shared) (content : Content) (file : FileName) :
    (shared.setContent content file).content file = content := by cases file <;> rfl

@[simp] theorem setContent_setContent (shared : Shared) (content content' : Content)
    (file : FileName) :
    (shared.setContent content file).setContent content' file = shared.setContent content' file := by
  cases file <;> rfl

/-- Whoever has opened a complete file goes on with its value. -/
theorem move_loaded {algorithm : Algorithm} {thread : Thread} {shared : Shared} {call : ReadCall}
    {value : JsonValue} (hvalue : Canonical value)
    (hcontent : shared.content call.file = stored (compact value)) :
    Move algorithm (thread.at (.reading call (.mapping (shared.content call.file).length))) shared
      (afterRead algorithm thread (some (pretty value)) call).1 shared
      (afterRead algorithm thread (some (pretty value)) call).2 := by
  have h : Move algorithm (thread.at (.reading call (.mapping (shared.content call.file).length)))
      shared _ _ _ := .loaded rfl (by rw [hcontent]; exact extent_complete value)
  rwa [hcontent, cString_stored_compact, reprint_compact hvalue, afterRead_at, ← hcontent] at h

/-- Whoever has truncated a file fills it with zero bytes. -/
theorem move_stretched (algorithm : Algorithm) (thread : Thread) (shared : Shared) (call : WriteCall)
    (text : CString) :
    Move algorithm (thread.at (.writing call (.stretching text))) (shared.setContent [] call.file)
      (thread.at (.writing call (.copying text))) (shared.setContent (zeros text) call.file) [] := by
  have h : Move algorithm (thread.at (.writing call (.stretching text)))
      (shared.setContent [] call.file) _ _ _ := .stretched rfl
  rw [content_setContent, setContent_setContent, stretch_nil] at h
  exact h

/-- And then replaces them by the text. -/
theorem move_copied (algorithm : Algorithm) (thread : Thread) (shared : Shared) (call : WriteCall)
    (text : CString) :
    Move algorithm (thread.at (.writing call (.copying text))) (shared.setContent (zeros text) call.file)
      (thread.at (afterWrite call)) (shared.setContent (stored text) call.file) [.wrote call] := by
  have h : Move algorithm (thread.at (.writing call (.copying text)))
      (shared.setContent (zeros text) call.file) _ _ _ :=
    .copied rfl (by rw [content_setContent]; exact fits_zeros text)
  rw [content_setContent, setContent_setContent, strcpy_zeros] at h
  exact h

section Alone

variable {algorithm : Algorithm} {s : Producer} {i : Nat} {thread : Thread}
  (hhalted : s.halted = none) (hi : s.threads[i]? = some thread)
include hhalted hi

theorem stepMany_move {thread' : Thread} {shared' : Shared} {events : List Event}
    (hmove : Move algorithm thread s.shared thread' shared' events) (n : Nat) :
    stepMany algorithm i (n + 1) s =
      stepMany algorithm i n (moved s i thread thread' shared' events) := by
  have hgoes : ¬ (moved s i thread thread' shared' events).halted.isSome = true := by
    simp [moved, hhalted]
  rw [stepMany, step_of_move hhalted hi hmove, Option.bind_some, if_neg hgoes]

theorem stepMany_next {pc : Pc} {thread₂ : Thread} {shared₁ shared₂ : Shared}
    {events : List Event} (hmove : Move algorithm (thread.at pc) shared₁ thread₂ shared₂ events)
    (n : Nat) :
    stepMany algorithm i (n + 1) (moved s i thread (thread.at pc) shared₁ []) =
      stepMany algorithm i n (moved s i thread thread₂ shared₂ events) := by
  have hset := getElem?_set_self_of_some hi (thread.at pc)
  rw [stepMany_move (s := moved s i thread (thread.at pc) shared₁ []) hhalted hset hmove,
    moved_moved]

/-- A read of a complete file returns its value. -/
theorem stepMany_read {call : ReadCall} {value : JsonValue}
    (hpc : thread.pc = .reading call .opening) (hvalue : Canonical value)
    (hcontent : s.shared.content call.file = stored (compact value)) :
    stepMany algorithm i 2 s =
      some (moved s i thread (afterRead algorithm thread (some (pretty value)) call).1 s.shared
        (afterRead algorithm thread (some (pretty value)) call).2) := by
  have hopen : Move algorithm thread s.shared _ s.shared [] :=
    .opened hpc (by rw [hcontent]; exact stored_ne_nil _)
  rw [stepMany_move hhalted hi hopen, stepMany_next hhalted hi (move_loaded hvalue hcontent)]
  rfl

/-- A write leaves the complete text. -/
theorem stepMany_write {call : WriteCall} {text : CString}
    (hpc : thread.pc = .writing call (.opening (some text))) :
    stepMany algorithm i 3 s =
      some (moved s i thread (thread.at (afterWrite call))
        (s.shared.setContent (stored text) call.file) [.wrote call]) := by
  rw [stepMany_move hhalted hi (.truncated hpc),
    stepMany_next hhalted hi (move_stretched algorithm thread s.shared call text),
    stepMany_next hhalted hi (move_copied algorithm thread s.shared call text)]
  rfl

end Alone

/-! ## What a step in the coarser view can do -/

/-- A step of one worker that leaves the process running, with the calls on the `whole`
files in one piece: a read of all of a complete file, a write of all of a text, or a
move that is no part of such a call. -/
inductive CallMove (whole : FileName → Bool) (algorithm : Algorithm) (thread : Thread)
    (shared : Shared) : Thread → Shared → List Event → Prop
  | read {call : ReadCall} {value : JsonValue} (hwhole : whole call.file = true)
      (hpc : thread.pc = .reading call .opening) (hvalue : Canonical value)
      (hcontent : shared.content call.file = stored (compact value)) :
      CallMove whole algorithm thread shared
        (afterRead algorithm thread (some (pretty value)) call).1 shared
        (afterRead algorithm thread (some (pretty value)) call).2
  | write {call : WriteCall} {text : CString} (hwhole : whole call.file = true)
      (hpc : thread.pc = .writing call (.opening (some text))) :
      CallMove whole algorithm thread shared (thread.at (afterWrite call))
        (shared.setContent (stored text) call.file) [.wrote call]
  | other {thread' : Thread} {shared' : Shared} {events : List Event}
      (hread : ∀ call stage, thread.pc = .reading call stage → whole call.file = false)
      (hwrite : ∀ call stage, thread.pc = .writing call stage → whole call.file = false)
      (h : Move algorithm thread shared thread' shared' events) :
      CallMove whole algorithm thread shared thread' shared' events

/-- The worker stays itself, and only one that has not finished moves. -/
theorem callMove_keeps {whole : FileName → Bool} {algorithm : Algorithm} {thread thread' : Thread}
    {shared shared' : Shared} {events : List Event}
    (h : CallMove whole algorithm thread shared thread' shared' events) :
    thread'.worker = thread.worker ∧ thread.pc ≠ .finished := by
  cases h with
  | @read call value hwhole hpc hvalue hcontent =>
    exact ⟨afterRead_worker algorithm thread _ call, by simp [hpc]⟩
  | write hwhole hpc => exact ⟨rfl, by simp [hpc]⟩
  | other hread hwrite hmove =>
    obtain ⟨hworker, hlive, -⟩ := move_keeps hmove
    exact ⟨hworker, hlive⟩

/-- Not in the middle of a call taken whole, nor about to write NULL by one. -/
def AtRest (whole : FileName → Bool) : Pc → Prop
  | .reading call (.mapping _) => whole call.file = false
  | .writing call (.opening none) => whole call.file = false
  | .writing call (.stretching _) => whole call.file = false
  | .writing call (.copying _) => whole call.file = false
  | _ => True

/-- The files whose calls are taken whole are complete, and nobody is inside such a call. -/
structure Settled (whole : FileName → Bool) (s : Producer) : Prop where
  complete : ∀ file, whole file = true →
    ∃ value, Canonical value ∧ s.shared.content file = stored (compact value)
  resting : ∀ thread ∈ s.threads, AtRest whole thread.pc

theorem settled_piecewise (s : Producer) : Settled piecewise s := by
  constructor
  · intro file hwhole
    exact absurd hwhole (by simp [piecewise])
  · intro thread _
    cases thread.pc with
    | reading call stage => cases stage <;> trivial
    | writing call stage =>
      cases stage with
      | opening text => cases text <;> trivial
      | _ => trivial
    | _ => trivial

/-- One step of a worker, as a move or a halt. -/
theorem stepMany_one_cases {algorithm : Algorithm} {s t : Producer} {i : Nat} {thread : Thread}
    (hi : s.threads[i]? = some thread) (h : stepMany algorithm i 1 s = some t) :
    (∃ reason shared', Halts thread s.shared reason shared' ∧ t = stopped s reason shared') ∨
    ∃ thread' shared' events, Move algorithm thread s.shared thread' shared' events ∧
      t = moved s i thread thread' shared' events := by
  obtain ⟨u, hu, hrest⟩ := Option.bind_eq_some_iff.mp h
  have htu : t = u := by
    split at hrest <;> exact (Option.some.inj hrest).symm
  obtain ⟨-, other, hother, hcase⟩ := step_cases hu
  obtain rfl := Option.some.inj (hi.symm.trans hother)
  rwa [htu]

/-- What a worker's step in the coarser view comes to. -/
def Comes (whole : FileName → Bool) (algorithm : Algorithm) (s : Producer) (i : Nat)
    (thread : Thread) (t : Producer) : Prop :=
  (∃ reason shared', Halts thread s.shared reason shared' ∧ t = stopped s reason shared' ∧
    (∀ call stage, thread.pc = .reading call stage → whole call.file = false) ∧
    ∀ call stage, thread.pc = .writing call stage → whole call.file = false) ∨
  ∃ thread' shared' events, CallMove whole algorithm thread s.shared thread' shared' events ∧
    t = moved s i thread thread' shared' events

theorem comes_of_stepMany {whole : FileName → Bool} {algorithm : Algorithm} {s t : Producer}
    {i : Nat} {thread : Thread} (hsettled : Settled whole s) (hhalted : s.halted = none)
    (hi : s.threads[i]? = some thread)
    (h : stepMany algorithm i (stride whole thread.pc) s = some t) :
    Comes whole algorithm s i thread t := by
  have hrest := hsettled.resting thread (List.mem_of_getElem? hi)
  have hone : stride whole thread.pc = 1 →
      (∀ call stage, thread.pc = .reading call stage → whole call.file = false) →
      (∀ call stage, thread.pc = .writing call stage → whole call.file = false) →
      Comes whole algorithm s i thread t := by
    intro hstride hread hwrite
    rw [hstride] at h
    rcases stepMany_one_cases hi h with ⟨reason, shared', hhalts, ht⟩ |
      ⟨thread', shared', events, hmove, ht⟩
    · exact .inl ⟨reason, shared', hhalts, ht, hread, hwrite⟩
    · exact .inr ⟨thread', shared', events, .other hread hwrite hmove, ht⟩
  cases hpc : thread.pc with
  | reading call stage =>
    cases hwhole : whole call.file with
    | false =>
      refine hone ?_ (fun call' stage' hpc' => ?_) (fun call' stage' hpc' => ?_)
      · cases stage <;> simp [hpc, stride, hwhole]
      · rw [hpc, Pc.reading.injEq] at hpc'
        rwa [← hpc'.1]
      · simp [hpc] at hpc'
    | true =>
      cases stage with
      | opening =>
        obtain ⟨value, hvalue, hcontent⟩ := hsettled.complete call.file hwhole
        simp only [hpc, stride, hwhole, if_true] at h
        rw [stepMany_read hhalted hi hpc hvalue hcontent] at h
        exact .inr ⟨_, _, _, .read hwhole hpc hvalue hcontent, (Option.some.inj h).symm⟩
      | mapping stSize => simp [hpc, AtRest, hwhole] at hrest
  | writing call stage =>
    cases hwhole : whole call.file with
    | false =>
      refine hone ?_ (fun call' stage' hpc' => ?_) (fun call' stage' hpc' => ?_)
      · cases stage <;> simp [hpc, stride, hwhole]
      · simp [hpc] at hpc'
      · rw [hpc, Pc.writing.injEq] at hpc'
        rwa [← hpc'.1]
    | true =>
      cases stage with
      | opening text =>
        cases text with
        | none => simp [hpc, AtRest, hwhole] at hrest
        | some text =>
          simp only [hpc, stride, hwhole, if_true] at h
          rw [stepMany_write hhalted hi hpc] at h
          exact .inr ⟨_, _, _, .write hwhole hpc, (Option.some.inj h).symm⟩
      | stretching text => simp [hpc, AtRest, hwhole] at hrest
      | copying text => simp [hpc, AtRest, hwhole] at hrest
  | _ =>
    refine hone ?_ (fun call stage hpc' => ?_) (fun call stage hpc' => ?_)
    · rw [hpc]
      rfl
    · simp [hpc] at hpc'
    · simp [hpc] at hpc'

/-- When no call is taken whole, a worker's move is an ordinary one. -/
theorem move_of_callMove {algorithm : Algorithm} {thread thread' : Thread} {shared shared' : Shared}
    {events : List Event} (h : CallMove piecewise algorithm thread shared thread' shared' events) :
    Move algorithm thread shared thread' shared' events := by
  cases h with
  | read hwhole => exact absurd hwhole (by simp [piecewise])
  | write hwhole => exact absurd hwhole (by simp [piecewise])
  | other _ _ hmove => exact hmove

/-- A step in the coarser view from a settled state: a creation, or what a worker that
meets the condition comes to. -/
theorem stepWhen_cases {whole : FileName → Bool} {cond : Producer → Thread → Prop}
    {algorithm : Algorithm} {s t : Producer} (hsettled : Settled whole s)
    (h : StepWhen whole cond algorithm s t) :
    (∃ processId processSize processDelay, FreshId s processId ∧ 0 < processSize ∧
      t = create s processId processSize processDelay) ∨
    ∃ (i : Nat) (thread : Thread), s.threads[i]? = some thread ∧ cond s thread ∧
      Comes whole algorithm s i thread t := by
  have hhalted := halted_of_stepWhen h
  cases h with
  | create delay _ hfresh hpos => exact .inl ⟨_, _, delay, hfresh, hpos, rfl⟩
  | run hi hcond hsteps =>
    exact .inr ⟨_, _, hi, hcond, comes_of_stepMany hsettled hhalted hi hsteps⟩

/-! ## Runs, one step at a time -/

section Runs

variable {whole : FileName → Bool} {cond : Producer → Thread → Prop} {algorithm : Algorithm}
  {schema : CString} {s : Producer}

/-- Induction over the states of such runs, each of them reachable. -/
theorem reachableWhen_induction {P : Producer → Prop} (hstart : ∀ s, Starts schema s → P s)
    (hstep : ∀ s t, Reachable algorithm schema s → P s → StepWhen whole cond algorithm s t → P t)
    (h : ReachableWhen whole cond algorithm schema s) : P s := by
  obtain ⟨start, hinit, hrun⟩ := h
  induction hrun with
  | refl => exact hstart start hinit
  | tail hprev hlast ih => exact hstep _ _ (reachable_of_when ⟨start, hinit, hprev⟩) ih hlast

theorem ReachableWhen.start (h : Starts schema s) : ReachableWhen whole cond algorithm schema s :=
  ⟨s, h, .refl⟩

theorem ReachableWhen.append {t : Producer} (h : ReachableWhen whole cond algorithm schema s)
    (hrun : ReflTransGen (StepWhen whole cond algorithm) s t) :
    ReachableWhen whole cond algorithm schema t := by
  obtain ⟨start, hinit, hbefore⟩ := h
  exact ⟨start, hinit, hbefore.trans hrun⟩

theorem ReachableWhen.tail {t : Producer} (h : ReachableWhen whole cond algorithm schema s)
    (hstep : StepWhen whole cond algorithm s t) : ReachableWhen whole cond algorithm schema t :=
  h.append (.single hstep)

theorem StepWhen.move {i : Nat} {thread thread' : Thread} {shared' : Shared} {events : List Event}
    (hhalted : s.halted = none) (hi : s.threads[i]? = some thread) (hcond : cond s thread)
    (hstride : stride whole thread.pc = 1)
    (hmove : Move algorithm thread s.shared thread' shared' events) :
    StepWhen whole cond algorithm s (moved s i thread thread' shared' events) := by
  refine .run hi hcond ?_
  rw [hstride]
  exact stepMany_move hhalted hi hmove 0

/-- The step after one that records nothing. -/
theorem StepWhen.next {i : Nat} {thread thread₂ : Thread} {pc : Pc} {shared₁ shared₂ : Shared}
    {events : List Event} (hhalted : s.halted = none) (hi : s.threads[i]? = some thread)
    (hcond : cond (moved s i thread (thread.at pc) shared₁ []) (thread.at pc))
    (hstride : stride whole pc = 1)
    (hmove : Move algorithm (thread.at pc) shared₁ thread₂ shared₂ events) :
    StepWhen whole cond algorithm (moved s i thread (thread.at pc) shared₁ [])
      (moved s i thread thread₂ shared₂ events) := by
  rw [← moved_moved s i thread thread₂ pc shared₁ shared₂ events]
  exact .move (s := moved s i thread (thread.at pc) shared₁ []) hhalted
    (getElem?_set_self_of_some hi _) hcond hstride hmove

variable {i : Nat} {thread : Thread} (h : ReachableWhen whole cond algorithm schema s)
  (hhalted : s.halted = none) (hi : s.threads[i]? = some thread) (hcond : cond s thread)
include h hhalted hi hcond

theorem ReachableWhen.read (call : ReadCall) {value : JsonValue} (hwhole : whole call.file = true)
    (hpc : thread.pc = .reading call .opening) (hvalue : Canonical value)
    (hcontent : s.shared.content call.file = stored (compact value)) :
    ReachableWhen whole cond algorithm schema
      (moved s i thread (afterRead algorithm thread (some (pretty value)) call).1 s.shared
        (afterRead algorithm thread (some (pretty value)) call).2) := by
  refine h.tail (.run hi hcond ?_)
  simp only [hpc, stride, hwhole, if_true]
  exact stepMany_read hhalted hi hpc hvalue hcontent

theorem ReachableWhen.write (call : WriteCall) {text : CString} (hwhole : whole call.file = true)
    (hpc : thread.pc = .writing call (.opening (some text))) :
    ReachableWhen whole cond algorithm schema
      (moved s i thread (thread.at (afterWrite call))
        (s.shared.setContent (stored text) call.file) [.wrote call]) := by
  refine h.tail (.run hi hcond ?_)
  simp only [hpc, stride, hwhole, if_true]
  exact stepMany_write hhalted hi hpc

theorem ReachableWhen.move {thread' : Thread} {shared' : Shared} {events : List Event}
    (hstride : stride whole thread.pc = 1)
    (hmove : Move algorithm thread s.shared thread' shared' events) :
    ReachableWhen whole cond algorithm schema (moved s i thread thread' shared' events) :=
  h.tail (.move hhalted hi hcond hstride hmove)

theorem ReachableWhen.halt {reason : Halt} {shared' : Shared} (hstride : stride whole thread.pc = 1)
    (hhalts : Halts thread s.shared reason shared') :
    ReachableWhen whole cond algorithm schema (stopped s reason shared') := by
  refine h.tail (.run hi hcond ?_)
  rw [hstride, stepMany, step_of_halts algorithm hhalted hi hhalts]
  rfl

end Runs

/-! ## A coarser run is a finer one -/

/-- How many more steps belong to a call that is under way. -/
def midSteps : Pc → Nat
  | .reading _ (.mapping _) => 1
  | .writing _ (.stretching _) => 2
  | .writing _ (.copying _) => 1
  | _ => 0

theorem stride_of_midSteps (whole : FileName → Bool) {pc : Pc} (h : 0 < midSteps pc) :
    stride whole pc = 1 := by
  cases pc with
  | reading call stage => cases stage <;> simp [midSteps, stride] at h ⊢
  | writing call stage => cases stage <;> simp [midSteps, stride] at h ⊢
  | _ => rfl

/-- The stages of a call follow each other. -/
theorem midSteps_of_move {algorithm : Algorithm} {thread thread' : Thread} {shared shared' : Shared}
    {events : List Event} (h : Move algorithm thread shared thread' shared' events) :
    midSteps thread.pc ≤ midSteps thread'.pc + 1 := by
  cases h with
  | loaded hpc => simp [hpc, midSteps]
  | truncated hpc => simp [hpc, midSteps]
  | stretched hpc => simp [hpc, midSteps, Thread.at]
  | copied hpc => simp [hpc, midSteps]
  | opened hpc => simp [hpc, midSteps]
  | acquired hpc => simp [hpc, midSteps]
  | logged hpc => simp [hpc, midSteps]
  | released hpc => simp [hpc, midSteps]
  | woken hpc => simp [hpc, midSteps]

theorem stride_of_move {algorithm : Algorithm} {thread thread' : Thread} {shared shared' : Shared}
    {events : List Event} (h : Move algorithm thread shared thread' shared' events) :
    stride everyCall thread.pc ≤ midSteps thread'.pc + 1 := by
  cases h with
  | opened hpc => simp [hpc, stride, everyCall, midSteps, Thread.at]
  | truncated hpc => simp [hpc, stride, everyCall, midSteps, Thread.at]
  | loaded hpc => simp [hpc, stride]
  | stretched hpc => simp [hpc, stride]
  | copied hpc => simp [hpc, stride]
  | acquired hpc => simp [hpc, stride]
  | logged hpc => simp [hpc, stride]
  | released hpc => simp [hpc, stride]
  | woken hpc => simp [hpc, stride]

/-- With fewer calls taken whole, a step is as long, or it is one effect. -/
theorem stride_cases {whole whole' : FileName → Bool}
    (hfiles : ∀ file, whole' file = true → whole file = true) (pc : Pc) :
    stride whole' pc = stride whole pc ∨
      (stride whole' pc = 1 ∧ stride whole pc ≤ stride everyCall pc) := by
  have hcall : ∀ (file : FileName) (n : Nat), 1 ≤ n →
      (if whole' file then n else 1) = (if whole file then n else 1) ∨
      ((if whole' file then n else 1) = 1 ∧ (if whole file then n else 1) ≤ n) := by
    intro file n hn
    cases hwhole' : whole' file with
    | true => simp [hfiles file hwhole']
    | false =>
      refine .inr ⟨rfl, ?_⟩
      split <;> omega
  cases pc with
  | reading call stage =>
    cases stage with
    | opening => exact hcall call.file 2 (by omega)
    | mapping stSize => exact .inl rfl
  | writing call stage =>
    cases stage with
    | opening text => exact hcall call.file 3 (by omega)
    | _ => exact .inl rfl
  | _ => exact .inl rfl

section Finer

variable {whole whole' : FileName → Bool} {cond cond' : Producer → Thread → Prop}
  {algorithm : Algorithm}
  (hmid : ∀ s thread, 0 < midSteps thread.pc → cond' s thread)
include hmid

/-- The rest of a call, one step after the other. -/
theorem run_of_midSteps {i : Nat} (n : Nat) : ∀ {s t : Producer} {thread : Thread},
    s.threads[i]? = some thread → n ≤ midSteps thread.pc → stepMany algorithm i n s = some t →
    ReflTransGen (StepWhen whole' cond' algorithm) s t := by
  induction n with
  | zero =>
    intro s t thread _ _ h
    obtain rfl := Option.some.inj h
    exact .refl
  | succ n ih =>
    intro s t thread hi hle h
    obtain ⟨u, hu, hrest⟩ := Option.bind_eq_some_iff.mp h
    have hpos : 0 < midSteps thread.pc := by omega
    have hfirst : StepWhen whole' cond' algorithm s u := by
      refine .run hi (hmid s thread hpos) ?_
      rw [stride_of_midSteps whole' hpos]
      exact stepMany_one hu
    refine .head hfirst ?_
    split at hrest
    · obtain rfl := Option.some.inj hrest
      exact .refl
    · next hgoes =>
      obtain ⟨-, other, hother, ⟨reason, shared', -, rfl⟩ | ⟨thread', shared', events, hmove, rfl⟩⟩ :=
        step_cases hu
      · simp [stopped] at hgoes
      · obtain rfl := Option.some.inj (hi.symm.trans hother)
        have hstages := midSteps_of_move hmove
        exact ih (getElem?_set_self_of_some hi thread') (by omega) hrest

theorem run_of_stride {s t : Producer} {i : Nat} {thread : Thread} (hi : s.threads[i]? = some thread)
    (hfiles : ∀ file, whole' file = true → whole file = true) (hcond : cond' s thread)
    (h : stepMany algorithm i (stride whole thread.pc) s = some t) :
    ReflTransGen (StepWhen whole' cond' algorithm) s t := by
  rcases stride_cases hfiles thread.pc with hsame | ⟨hone, hle⟩
  · exact .single (.run hi hcond (hsame ▸ h))
  · obtain ⟨n, hn⟩ := Nat.exists_eq_succ_of_ne_zero (stride_pos whole thread.pc).ne'
    rw [hn] at h
    obtain ⟨u, hu, hrest⟩ := Option.bind_eq_some_iff.mp h
    refine .head (.run hi hcond (by rw [hone]; exact stepMany_one hu)) ?_
    split at hrest
    · obtain rfl := Option.some.inj hrest
      exact .refl
    · next hgoes =>
      obtain ⟨-, other, hother, ⟨reason, shared', -, rfl⟩ | ⟨thread', shared', events, hmove, rfl⟩⟩ :=
        step_cases hu
      · simp [stopped] at hgoes
      · obtain rfl := Option.some.inj (hi.symm.trans hother)
        have hstages := stride_of_move hmove
        exact run_of_midSteps hmid n (getElem?_set_self_of_some hi thread') (by omega) hrest

/-- A run with more calls taken whole is one with fewer, under any condition that says
nothing about a worker in the middle of a call. -/
theorem ReachableWhen.finer {schema : CString} {s : Producer}
    (hfiles : ∀ file, whole' file = true → whole file = true)
    (hcond : ∀ s thread, cond s thread → cond' s thread)
    (h : ReachableWhen whole cond algorithm schema s) :
    ReachableWhen whole' cond' algorithm schema s := by
  obtain ⟨start, hstart, hrun⟩ := h
  refine ⟨start, hstart, ?_⟩
  induction hrun with
  | refl => exact .refl
  | tail _ hlast ih =>
    refine ih.trans ?_
    cases hlast with
    | create delay hhalted hfresh hpos => exact .single (.create delay hhalted hfresh hpos)
    | run hi hguard hsteps => exact run_of_stride hmid hi hfiles (hcond _ _ hguard) hsteps

end Finer

/-! ## One worker at a time -/

/-- From a state in which worker `i` is `first`, its steps alone lead to `thread` and
`shared`. -/
def Alone (algorithm : Algorithm) (schema : CString) (s : Producer) (i : Nat) (first thread : Thread)
    (shared : Shared) : Prop :=
  thread.worker = first.worker ∧ ∃ events,
    ReachableWhen everyCall always algorithm schema (moved s i first thread shared events)

section Solo

variable {algorithm : Algorithm} {schema : CString} {s : Producer} {i : Nat} {first thread : Thread}
  {shared : Shared}

theorem Alone.start (h : ReachableWhen everyCall always algorithm schema s)
    (hi : s.threads[i]? = some first) : Alone algorithm schema s i first first s.shared := by
  have hsame : moved s i first first s.shared [] = s := by
    obtain ⟨hlt, rfl⟩ := List.getElem?_eq_some_iff.mp hi
    simp [moved]
  refine ⟨rfl, [], ?_⟩
  rwa [hsame]

theorem moved_append {thread' : Thread} {shared' : Shared} {events events' : List Event}
    (hworker : thread.worker = first.worker) :
    moved (moved s i first thread shared events) i thread thread' shared' events' =
      moved s i first thread' shared' (events ++ events') := by
  simp [moved, hworker]

variable (hi : s.threads[i]? = some first) (hhalted : s.halted = none)
  (h : Alone algorithm schema s i first thread shared)
include hi hhalted h

theorem Alone.read (call : ReadCall) {value : JsonValue} (hpc : thread.pc = .reading call .opening)
    (hvalue : Canonical value) (hcontent : shared.content call.file = stored (compact value)) :
    Alone algorithm schema s i first (afterRead algorithm thread (some (pretty value)) call).1
      shared := by
  obtain ⟨hworker, events, hreach⟩ := h
  have hread := hreach.read (i := i) hhalted (getElem?_set_self_of_some hi thread) trivial call rfl hpc
    hvalue hcontent
  rw [moved_append hworker] at hread
  exact ⟨(afterRead_worker algorithm thread _ call).trans hworker, _, hread⟩

theorem Alone.write (call : WriteCall) {text : CString}
    (hpc : thread.pc = .writing call (.opening (some text))) :
    Alone algorithm schema s i first (thread.at (afterWrite call))
      (shared.setContent (stored text) call.file) := by
  obtain ⟨hworker, events, hreach⟩ := h
  have hwrite := hreach.write (i := i) hhalted (getElem?_set_self_of_some hi thread) trivial call rfl hpc
  rw [moved_append hworker] at hwrite
  exact ⟨hworker, _, hwrite⟩

theorem Alone.move {thread' : Thread} {shared' : Shared} {events : List Event}
    (hstride : stride everyCall thread.pc = 1)
    (hmove : Move algorithm thread shared thread' shared' events) :
    Alone algorithm schema s i first thread' shared' := by
  obtain ⟨hworker, events, hreach⟩ := h
  have hstep := hreach.move (i := i) hhalted (getElem?_set_self_of_some hi thread) trivial hstride
    hmove
  rw [moved_append hworker] at hstep
  exact ⟨(move_keeps hmove).1.trans hworker, _, hstep⟩

end Solo

end DynamicPartitions.Program.Calls
