import DynamicPartitions.Program.Calls

/-!
# Spy

Spy is a program of its own beside a running Producer and takes no semaphore. One call
of `spy_memory` or `spy_on_waiting` is a read like those of the workers; option 2 of its
menu prints the waiting list and then every process table that is not empty.
-/
namespace DynamicPartitions.Program.Spy

open Relation (ReflTransGen)
open DynamicPartitions.Lib.Update
open DynamicPartitions.Parson.Value
open DynamicPartitions.Parson.Serializer
open DynamicPartitions.Parson.Acceptance
open DynamicPartitions.Program.Algorithms
open DynamicPartitions.Program.MappedFile
open DynamicPartitions.Program.WorkerThread
open DynamicPartitions.Program.Threads
open DynamicPartitions.Program.Moves
open DynamicPartitions.Program.Exclusion
open DynamicPartitions.Program.Calls

/-! ## One call -/

inductive SpyPc where
  | reading (stage : ReadStage)
  | returned (serializedString : Option CString)
  | gone (reason : Halt)
deriving DecidableEq, Repr

/-- A Producer, a call of Spy, and what the file has held since the call began, which no
step reads. -/
structure Scene where
  producer : Producer
  spy : SpyPc
  held : List Content

def spyAfter : Progress ReadStage (Option CString) → SpyPc
  | .halt reason => .gone reason
  | .next stage => .reading stage
  | .done data => .returned data

/-- A step of the scene: of the Producer, taken by a worker that meets `cond`, or of the
call on the file, in a state that meets `spyCond`. -/
inductive SceneStep (cond : Producer → Thread → Prop) (spyCond : Producer → ReadStage → Prop)
    (algorithm : Algorithm) (file : FileName) (scene : Scene) : Scene → Prop
  | producer {t : Producer} : StepWhen piecewise cond algorithm scene.producer t →
      SceneStep cond spyCond algorithm file scene
        { scene with producer := t, held := scene.held ++ [t.shared.content file] }
  | spy {stage : ReadStage} : scene.spy = .reading stage → spyCond scene.producer stage →
      SceneStep cond spyCond algorithm file scene
        { scene with spy := spyAfter (readStep (scene.producer.shared.content file) stage) }

theorem SceneStep.call {cond : Producer → Thread → Prop} {spyCond : Producer → ReadStage → Prop}
    {algorithm : Algorithm} {file : FileName} {scene : Scene} {stage : ReadStage}
    {progress : Progress ReadStage (Option CString)} (hspy : scene.spy = .reading stage)
    (hcond : spyCond scene.producer stage)
    (hread : readStep (scene.producer.shared.content file) stage = progress) :
    SceneStep cond spyCond algorithm file scene { scene with spy := spyAfter progress } := by
  rw [← hread]
  exact .spy hspy hcond

theorem readStep_opening (text : CString) :
    readStep (stored text) .opening = .next (.mapping (stored text).length) :=
  if_neg (stored_ne_nil text)

/-- A complete file is parsed as its value, if the call has mapped enough of it. -/
theorem readStep_mapping {value : JsonValue} {stSize : Nat} (hvalue : Canonical value)
    (hmapped : parseExtent (compact value) ≤ pageUp stSize) :
    readStep (stored (compact value)) (.mapping stSize) = .done (some (pretty value)) := by
  have hextent := extent_complete value
  rw [cString_stored_compact] at hextent
  have hfits : ¬ parseExtent (compact value) >
      min (pageUp stSize) (pageUp (stored (compact value)).length) := by omega
  rw [readStep, cString_stored_compact, if_neg hfits, reprint_compact hvalue]

/-- The call begins at any point of a run of the Producer. -/
def SceneReachable (cond : Producer → Thread → Prop) (spyCond : Producer → ReadStage → Prop)
    (algorithm : Algorithm) (schema : CString) (file : FileName) (scene : Scene) : Prop :=
  ∃ s, ReachableWhen piecewise cond algorithm schema s ∧
    ReflTransGen (SceneStep cond spyCond algorithm file)
      ⟨s, .reading .opening, [s.shared.content file]⟩ scene

/-- Spy may always go on. -/
def whenever : Producer → ReadStage → Prop := fun _ _ => True

/-! ## Option 2 of the menu -/

/-- Both stages of a read at one moment. -/
def readWhole (content : Content) : Except Halt (Option CString) :=
  match readStep content .opening with
  | .next stage =>
    match readStep content stage with
    | .done data => .ok data
    | .halt reason => .error reason
    | .next _ => .ok none
  | .halt reason => .error reason
  | .done data => .ok data

theorem readWhole_complete {value : JsonValue} (hvalue : Canonical value) :
    readWhole (stored (compact value)) = .ok (some (pretty value)) := by
  have hextent := extent_complete value
  rw [cString_stored_compact] at hextent
  have hmapped : parseExtent (compact value) ≤ pageUp (stored (compact value)).length := by omega
  simp only [readWhole, readStep_opening, readStep_mapping hvalue hmapped]

/-- The loop body of `spy_on_memory`: the table it prints, if any. A partition without a
table is a NULL pointer dereferenced. -/
def spyOnPartition (memArr : Option (JsonArray JsonValue)) (i : Nat) :
    Except Halt (Option (Option CString)) :=
  match jsonObjectGetObject (jsonArrayGetObject memArr i) processesName with
  | none => .error .fault
  | some processes =>
    .ok (if jsonValueEquals (.object processes) (.object jsonObjectInit) then none
      else some (jsonSerializeToStringPretty (some (.object processes))))

/-- `spy_on_memory` on the text of `spy_memory`: the tables it prints. -/
def spyOnMemory (serializedString : Option CString) : Except Halt (List (Option CString)) := do
  let memArr := jsonValueGetArray (parseText serializedString)
  let n := (memArr.map jsonArrayGetCount).getD 0
  let printed ← (List.range n).mapM (spyOnPartition memArr)
  return printed.filterMap id

/-- `spy_memory` and what is printed of it. -/
def listMemory (content : Content) : Except Halt (List (Option CString)) :=
  readWhole content >>= spyOnMemory

inductive InquiryPc where
  | asked
  | listedWaiting (waiting : Option CString) (first : Producer)
  | listed (waiting : Option CString) (memory : List (Option CString)) (first last : Producer)
  | gone (reason : Halt)

/-- A Producer and Spy answering option 2, with the states of the Producer at its two
reads, which no step reads. -/
structure Inquiry where
  producer : Producer
  spy : InquiryPc

/-- Calls are taken whole, by the workers and by Spy. -/
inductive InquiryStep (cond : Producer → Thread → Prop) (spyCond : Producer → Producer → Prop)
    (algorithm : Algorithm) (inquiry : Inquiry) : Inquiry → Prop
  | producer {t : Producer} : StepWhen everyCall cond algorithm inquiry.producer t →
      InquiryStep cond spyCond algorithm inquiry { inquiry with producer := t }
  | waiting {data : Option CString} : inquiry.spy = .asked →
      readWhole inquiry.producer.shared.processesOnWaiting = .ok data →
      InquiryStep cond spyCond algorithm inquiry
        { inquiry with spy := .listedWaiting data inquiry.producer }
  | memory {waiting : Option CString} {tables : List (Option CString)} {first : Producer} :
      inquiry.spy = .listedWaiting waiting first → spyCond first inquiry.producer →
      listMemory inquiry.producer.shared.memory = .ok tables →
      InquiryStep cond spyCond algorithm inquiry
        { inquiry with spy := .listed waiting tables first inquiry.producer }
  | goneAtWaiting {reason : Halt} : inquiry.spy = .asked →
      readWhole inquiry.producer.shared.processesOnWaiting = .error reason →
      InquiryStep cond spyCond algorithm inquiry { inquiry with spy := .gone reason }
  | goneAtMemory {waiting : Option CString} {first : Producer} {reason : Halt} :
      inquiry.spy = .listedWaiting waiting first → spyCond first inquiry.producer →
      listMemory inquiry.producer.shared.memory = .error reason →
      InquiryStep cond spyCond algorithm inquiry { inquiry with spy := .gone reason }

/-- The user asks at any point of a run of the Producer. -/
def InquiryReachable (cond : Producer → Thread → Prop) (spyCond : Producer → Producer → Prop)
    (algorithm : Algorithm) (schema : CString) (inquiry : Inquiry) : Prop :=
  ∃ s, ReachableWhen everyCall cond algorithm schema s ∧
    ReflTransGen (InquiryStep cond spyCond algorithm) ⟨s, .asked⟩ inquiry

/-- Nothing is asked of the producer between the two reads. -/
def anytime : Producer → Producer → Prop := fun _ _ => True

/-! ## Whom it should show -/

/-- How far a worker has come: not past its registration write, registered, past its
removal write, past its admission write, and rejected or past its release write. -/
inductive Standing where
  | registering
  | waiting
  | searching
  | resident
  | gone
deriving DecidableEq, Repr

def standing : Pc → Standing
  | .reading .registration _ | .writing .registration _ => .registering
  | .semWait .admission | .reading .removal _ | .writing .removal _ => .waiting
  | .reading .placement _ | .writing (.admission _) _ => .searching
  | .slog (.admitted _) | .semPost (.admitted _) | .sleeping _ | .semWait (.devolution _)
  | .reading (.devolution _) _ | .writing (.devolution _) _ => .resident
  | .slog .rejected | .semPost .rejected | .slog (.returned _) | .semPost (.returned _)
  | .finished => .gone

theorem isEnlisted_of_standing {pc : Pc} (h : standing pc = .waiting) : pc.isEnlisted = true := by
  unfold standing at h
  split at h
  case h_3 | h_4 | h_5 => rfl
  all_goals cases h

theorem residence_of_standing {pc : Pc} (h : standing pc = .resident) :
    ∃ memIndex, pc.residence = some memIndex := by
  unfold standing at h
  split at h
  case h_8 | h_9 | h_10 | h_11 | h_12 | h_13 => exact ⟨_, rfl⟩
  all_goals cases h

def Standing.rank : Standing → Nat
  | .registering => 0
  | .waiting => 1
  | .searching => 2
  | .resident => 3
  | .gone => 4

theorem Standing.rank_injective : Function.Injective Standing.rank := by
  intro x y h
  cases x <;> cases y <;> first | rfl | cases h

/-- No move takes a worker back. -/
theorem rank_of_move {algorithm : Algorithm} {thread thread' : Thread} {shared shared' : Shared}
    {events : List Event} (h : Move algorithm thread shared thread' shared' events) :
    (standing thread.pc).rank ≤ (standing thread'.pc).rank := by
  cases h with
  | @opened call hpc hsize =>
    rw [hpc]
    cases call <;> exact Nat.le_refl _
  | @loaded call stSize hpc hextent =>
    rw [hpc]
    cases call with
    | placement =>
      simp only [afterRead]
      split
      · show 2 ≤ 4
        omega
      · exact Nat.le_refl 2
    | _ => exact Nat.le_refl _
  | @truncated call text hpc | @stretched call text hpc =>
    rw [hpc]
    cases call <;> exact Nat.le_refl _
  | @copied call text hpc hfits =>
    rw [hpc]
    cases call <;> exact Nat.le_succ _
  | @acquired critical value hpc hvalue =>
    rw [hpc]
    cases critical <;> exact Nat.le_refl _
  | @logged outcome hpc | @released outcome hpc =>
    rw [hpc]
    cases outcome <;> exact Nat.le_refl _
  | woken hpc =>
    rw [hpc]
    exact Nat.le_refl 3

/-- The workers of `s` are those of `t`, as far as there or further. -/
def Further (s t : Producer) : Prop :=
  ∀ (i : Nat) (thread : Thread), s.threads[i]? = some thread →
    ∃ thread', t.threads[i]? = some thread' ∧ thread'.worker = thread.worker ∧
      (standing thread.pc).rank ≤ (standing thread'.pc).rank

theorem further_step {algorithm : Algorithm} {s t : Producer} (h : Step algorithm s t) :
    Further s t := by
  intro i thread hi
  cases h with
  | create delay hhalted hfresh hpos =>
    obtain ⟨hlt, -⟩ := List.getElem?_eq_some_iff.mp hi
    refine ⟨thread, ?_, rfl, Nat.le_refl _⟩
    simpa [create, List.getElem?_append_left hlt] using hi
  | @run j t hstep =>
    obtain ⟨-, mover, hj, ⟨reason, shared', -, rfl⟩ | ⟨thread', shared', events, hmove, rfl⟩⟩ :=
      step_cases hstep
    · exact ⟨thread, hi, rfl, Nat.le_refl _⟩
    · by_cases hij : j = i
      · subst hij
        obtain rfl := Option.some.inj (hi.symm.trans hj)
        exact ⟨thread', getElem?_set_self_of_some hi thread', (move_keeps hmove).1,
          rank_of_move hmove⟩
      · exact ⟨thread, by rwa [moved, List.getElem?_set_ne hij], rfl, Nat.le_refl _⟩

theorem Further.refl (s : Producer) : Further s s :=
  fun _ thread hi => ⟨thread, hi, rfl, Nat.le_refl _⟩

theorem Further.trans {s t u : Producer} (h : Further s t) (h' : Further t u) : Further s u := by
  intro i thread hi
  obtain ⟨thread₁, hi₁, hworker₁, hrank₁⟩ := h i thread hi
  obtain ⟨thread₂, hi₂, hworker₂, hrank₂⟩ := h' i thread₁ hi₁
  exact ⟨thread₂, hi₂, hworker₂.trans hworker₁, Nat.le_trans hrank₁ hrank₂⟩

theorem further_run {algorithm : Algorithm} {s t : Producer}
    (h : ReflTransGen (Step algorithm) s t) : Further s t := by
  induction h with
  | refl => exact .refl s
  | tail _ hlast ih => exact ih.trans (further_step hlast)

end DynamicPartitions.Program.Spy
