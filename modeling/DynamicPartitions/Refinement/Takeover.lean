import DynamicPartitions.Refinement.Sections
import DynamicPartitions.Refinement.Simulation

/-!
# A Producer on any memory

A Producer that goes on from a moment between two critical sections, with a file of which
only this is known, that it holds partition objects, performs on them the sections its
history records from then on. What a partition has less free space than at that moment is
what its residents have taken since.
-/
namespace DynamicPartitions.Refinement.Takeover

open Relation (ReflTransGen)
open DynamicPartitions.Lib.Update
open DynamicPartitions.Parson.Value
open DynamicPartitions.Abstract.Residents
open DynamicPartitions.Program.Algorithms
open DynamicPartitions.Program.MappedFile
open DynamicPartitions.Program.WorkerThread
open DynamicPartitions.Program.Threads
open DynamicPartitions.Program.Moves
open DynamicPartitions.Program.Exclusion
open DynamicPartitions.Program.Observation
open DynamicPartitions.Refinement.Memory
open DynamicPartitions.Refinement.Sections hiding WellFormed
open DynamicPartitions.Refinement.Simulation

/-! ## The sections of a history -/

/-- The section that an event completes. -/
def sectionOf : Worker × Event → Option Turn
  | (worker, .wrote (.admission memIndex)) => some (.admits worker memIndex)
  | (worker, .wrote (.devolution memIndex)) => some (.releases worker memIndex)
  | _ => none

def sections (history : List (Worker × Event)) : List Turn := history.filterMap sectionOf

theorem sections_append (history more : List (Worker × Event)) :
    sections (history ++ more) = sections history ++ sections more := List.filterMap_append

/-- The partition objects after sections. -/
def after (base : List (JsonObject JsonValue)) (turns : List Turn) : List (JsonObject JsonValue) :=
  turns.foldl Turn.change base

theorem after_append (base : List (JsonObject JsonValue)) (turns more : List Turn) :
    after base (turns ++ more) = after (after base turns) more := List.foldl_append

/-- Partition objects a file can hold. -/
structure Sound (partitions : List (JsonObject JsonValue)) : Prop where
  length_le : partitions.length ≤ arrayMaxCapacity
  isPartition : ∀ p ∈ partitions, IsPartition p

theorem Sound.after {base : List (JsonObject JsonValue)} (h : Sound base) (turns : List Turn) :
    Sound (after base turns) := by
  constructor
  · rw [Takeover.after, length_foldl_change]
    exact h.length_le
  · induction turns using List.reverseRecOn with
    | nil => exact h.isPartition
    | append_singleton turns turn ih =>
      rw [after_append]
      exact isPartition_change ih turn

theorem Sound.holds {partitions : List (JsonObject JsonValue)} (h : Sound partitions) :
    Holds (stored (compact (memoryOf partitions))) partitions := holds_stored h.length_le h.isPartition

/-- The text a section writes when it has read a complete file. -/
def Turn.text (content : Content) : Turn → Option CString
  | .admits worker memIndex => admission worker memIndex (reprint (cString content))
  | .releases worker memIndex => devolution worker memIndex (reprint (cString content))

section Held

variable {content : Content} {partitions : List (JsonObject JsonValue)} (h : Holds content partitions)
include h

theorem text_eq (turn : Turn) :
    Turn.text content turn = some (compact (memoryOf (turn.change partitions))) := by
  rw [← trim_turn h turn, compact_trim]
  cases turn with
  | admits worker memIndex =>
    rw [Turn.text, admission, h.parseText_reprint]
    rfl
  | releases worker memIndex =>
    rw [Turn.text, devolution, h.parseText_reprint]
    rfl

/-- A worker is only sent to a partition with room for it. -/
theorem placement_fits {algorithm : Algorithm} {worker : Worker} {k : Nat}
    (hplace : placement algorithm worker (reprint (cString content)) = some k) :
    ∃ p, partitions[k]? = some p ∧ worker.processSize ≤ freeSpaceOf p := by
  let array : JsonArray JsonValue := ⟨partitions.map .object, partitions.length⟩
  let freeSpace := fun i => jsonObjectGetNumber (jsonArrayGetObject (some array) i) freeSpaceName
  have hsearch : searchLoop algorithm freeSpace worker.processSize array.items.length 0 none =
      some k := by
    rw [placement, h.parseText_reprint] at hplace
    exact hplace
  have hfits := fits_searchLoop algorithm array.items.length (i := 0)
    (show Fits freeSpace worker.processSize 0 none from fun k hk => absurd hk (Option.not_mem_none k))
  obtain ⟨hlt, hle⟩ := hfits k (Option.mem_def.mpr hsearch)
  simp only [array, List.length_map, Nat.zero_add] at hlt
  refine ⟨partitions[k], List.getElem?_eq_getElem hlt, ?_⟩
  simpa [freeSpace, array, jsonArrayGetObject, jsonArrayGetValue, hlt, jsonValueGetObject,
    freeSpaceOf] using hle

end Held

/-! ## The view of a worker -/

/-- A section under way: what the file was, and what it is going to be. -/
def Underway (memory : Content) (partitions : List (JsonObject JsonValue)) (turn : Turn) :
    WriteStage → Prop
  | .opening text => Holds memory partitions ∧
      text = some (compact (memoryOf (turn.change partitions)))
  | .stretching text => memory = [] ∧ text = compact (memoryOf (turn.change partitions))
  | .copying text => memory = zeros text ∧ text = compact (memoryOf (turn.change partitions))

/-- What the memory file holds while the worker is where it is and nobody else is inside
a critical section. -/
def Sees (partitions : List (JsonObject JsonValue)) (memory : Content) (thread : Thread) : Prop :=
  match thread.pc with
  | .writing (.admission k) stage => Underway memory partitions (.admits thread.worker k) stage ∧
      ∃ p, partitions[k]? = some p ∧ thread.worker.processSize ≤ freeSpaceOf p
  | .writing (.devolution k) stage => Underway memory partitions (.releases thread.worker k) stage
  | _ => Holds memory partitions

theorem sees_of_not_critical {partitions : List (JsonObject JsonValue)} {memory : Content}
    {thread : Thread} (hcrit : thread.pc.isCritical = false) :
    Sees partitions memory thread ↔ Holds memory partitions := by
  unfold Sees
  cases hpc : thread.pc with
  | writing call stage => cases call <;> simp [hpc, Pc.isCritical] at hcrit ⊢
  | _ => simp

/-- The space a section takes from its partition. -/
def taken : Turn → Int
  | .admits worker _ => worker.processSize
  | .releases worker _ => -worker.processSize

/-- What sections took from a partition, all in all. -/
def spent (turns : List Turn) (i : Nat) : Int :=
  ((turns.filter fun turn => turn.memIndex = i).map taken).sum

theorem spent_append (turns more : List Turn) (i : Nat) :
    spent (turns ++ more) i = spent turns i + spent more i := by
  simp [spent]

/-- What a worker holds of a partition. -/
def share (i : Nat) (thread : Thread) : Int :=
  if thread.pc.residence = some i then thread.worker.processSize else 0

theorem residentSizes_eq_sum (s : Producer) (i : Nat) :
    residentSizes s i = (s.threads.map (share i)).sum := by
  unfold residentSizes residentsAt
  induction s.threads with
  | nil => rfl
  | cons thread rest ih =>
    rw [List.filter_cons, List.map_cons, List.sum_cons, ← ih, share]
    by_cases hi : thread.pc.residence = some i
    · simp [hi]
    · simp [hi]

theorem freeSpaceOf_act {p : JsonObject JsonValue} (h : IsPartition p) (turn : Turn) :
    freeSpaceOf (turn.act p) = freeSpaceOf p - taken turn := by
  cases turn with
  | admits worker k => exact h.freeSpaceOf_alter _ _
  | releases worker k =>
    rw [Turn.act, h.freeSpaceOf_alter, taken]
    omega

/-- An admission where there is room and a release leave no debt. -/
theorem nonneg_change {partitions : List (JsonObject JsonValue)} (hsound : Sound partitions)
    (h : ∀ p ∈ partitions, 0 ≤ freeSpaceOf p) (turn : Turn) (hpos : 0 < turn.worker.processSize)
    (hroom : ∀ worker k, turn = .admits worker k →
      ∃ p, partitions[k]? = some p ∧ worker.processSize ≤ freeSpaceOf p) :
    ∀ p ∈ turn.change partitions, 0 ≤ freeSpaceOf p := by
  intro q hq
  obtain ⟨i, hi⟩ := List.mem_iff_getElem?.mp hq
  rw [Turn.change, List.getElem?_modify] at hi
  obtain ⟨p, hp, rfl⟩ := Option.map_eq_some_iff.mp hi
  have hmem := List.mem_of_getElem? hp
  have hold := h p hmem
  split
  · next hindex =>
    rw [freeSpaceOf_act (hsound.isPartition p hmem)]
    cases turn with
    | admits worker k =>
      obtain ⟨p', hp', hfits⟩ := hroom worker k rfl
      obtain rfl : k = i := hindex
      obtain rfl := Option.some.inj (hp.symm.trans hp')
      rw [taken]
      omega
    | releases worker k =>
      rw [Turn.worker] at hpos
      rw [taken]
      omega
  · exact hold

/-! ## One move -/

/-- What a move comes to: the sections it completes, seen in the file, in the shares of
the workers and in the free space. -/
structure Advanced (partitions : List (JsonObject JsonValue)) (memory' : Content)
    (thread thread' : Thread) (turns : List Turn) : Prop where
  sees : Sees (after partitions turns) memory' thread'
  share : ∀ i, share i thread' = share i thread + spent turns i
  own : ∀ turn ∈ turns, turn.worker = thread.worker
  nonneg : 0 < thread.worker.processSize → (∀ p ∈ partitions, 0 ≤ freeSpaceOf p) →
    ∀ p ∈ after partitions turns, 0 ≤ freeSpaceOf p

/-- A move that completes no section. -/
theorem advanced_same {partitions : List (JsonObject JsonValue)} {memory' : Content}
    {thread thread' : Thread} (hsees : Sees partitions memory' thread')
    (hworker : thread'.worker = thread.worker) (hresidence : thread'.pc.residence = thread.pc.residence) :
    Advanced partitions memory' thread thread' [] :=
  ⟨hsees, fun i => by simp [share, spent, hworker, hresidence], by simp, fun _ h => h⟩

section Move

variable {partitions : List (JsonObject JsonValue)} {algorithm : Algorithm} {thread thread' : Thread}
  {shared shared' : Shared} {events : List Event}

theorem advanced_loaded {call : ReadCall} {stSize : Nat} (h : Sees partitions shared.memory thread)
    (hpc : thread.pc = .reading call (.mapping stSize)) :
    let data := reprint (cString (shared.content call.file))
    Advanced partitions shared.memory thread (afterRead algorithm thread data call).1 [] := by
  intro data
  have hholds : Holds shared.memory partitions := by simpa only [Sees, hpc] using h
  apply advanced_same
  · cases call with
    | registration | removal => exact hholds
    | placement =>
      simp only [afterRead]
      split
      · exact hholds
      · next k hplace => exact ⟨⟨hholds, text_eq hholds (.admits thread.worker k)⟩,
          placement_fits hholds hplace⟩
    | devolution k => exact ⟨hholds, text_eq hholds (.releases thread.worker k)⟩
  · exact afterRead_worker algorithm thread data call
  · cases call with
    | placement =>
      simp only [afterRead]
      split <;> simp [hpc, Thread.at, Pc.residence]
    | _ => simp [hpc, afterRead, Thread.at, Pc.residence]

theorem advanced_copied {call : WriteCall} {text : CString} (hsound : Sound partitions)
    (h : Sees partitions shared.memory thread) (hpc : thread.pc = .writing call (.copying text)) :
    Advanced partitions (shared.setContent (strcpy (shared.content call.file) text) call.file).memory
      thread (thread.at (afterWrite call)) (sections [(thread.worker, .wrote call)]) := by
  have hwritten : ∀ turn : Turn, shared.memory = zeros text →
      text = compact (memoryOf (turn.change partitions)) →
      Holds (strcpy shared.memory text) (after partitions [turn]) := by
    intro turn hzeros htext
    rw [hzeros, strcpy_zeros, htext]
    exact (hsound.after [turn]).holds
  cases call with
  | registration | removal =>
    have hholds : Holds shared.memory partitions := by simpa only [Sees, hpc] using h
    exact advanced_same hholds rfl (by simp [hpc, Thread.at, afterWrite, Pc.residence])
  | admission k =>
    simp only [Sees, hpc, Underway] at h
    obtain ⟨⟨hzeros, htext⟩, hroom⟩ := h
    refine ⟨hwritten _ hzeros htext, fun i => ?_, ?_, ?_⟩
    · by_cases hi : k = i <;>
        simp [share, spent, sections, sectionOf, hpc, Thread.at, afterWrite, Pc.residence,
          Turn.memIndex, taken, hi]
    · simp [sections, sectionOf, Turn.worker]
    · intro hpos hnonneg
      apply nonneg_change hsound hnonneg (.admits thread.worker k) hpos
      intro worker k' heq
      simp only [Turn.admits.injEq] at heq
      rwa [← heq.1, ← heq.2]
  | devolution k =>
    simp only [Sees, hpc, Underway] at h
    refine ⟨hwritten _ h.1 h.2, fun i => ?_, ?_, ?_⟩
    · by_cases hi : k = i <;>
        simp [share, spent, sections, sectionOf, hpc, Thread.at, afterWrite, Pc.residence,
          Turn.memIndex, taken, hi]
    · simp [sections, sectionOf, Turn.worker]
    · intro hpos hnonneg
      exact nonneg_change hsound hnonneg (.releases thread.worker k) hpos (by simp)

/-- A move of a worker that knows the file. -/
theorem advanced_move (hsound : Sound partitions) (h : Sees partitions shared.memory thread)
    (hmove : Move algorithm thread shared thread' shared' events) :
    Advanced partitions shared'.memory thread thread'
      (sections (events.map (Prod.mk thread.worker))) := by
  cases hmove with
  | @opened call hpc hsize =>
    have hholds : Holds shared.memory partitions := by simpa only [Sees, hpc] using h
    exact advanced_same hholds rfl (by cases call <;> simp [hpc, Thread.at, Pc.residence])
  | @loaded call stSize hpc hextent =>
    have hnone : sections ((afterRead algorithm thread
        (reprint (cString (shared.content call.file))) call).2.map (Prod.mk thread.worker)) = [] := by
      cases call with
      | placement =>
        simp only [afterRead]
        split <;> rfl
      | _ => rfl
    rw [hnone]
    exact advanced_loaded h hpc
  | @truncated call text hpc =>
    cases call with
    | registration | removal =>
      have hholds : Holds shared.memory partitions := by simpa only [Sees, hpc] using h
      exact advanced_same hholds rfl (by simp [hpc, Thread.at, Pc.residence])
    | admission k =>
      simp only [Sees, hpc, Underway, Option.some.injEq] at h
      exact advanced_same ⟨⟨rfl, h.1.2⟩, h.2⟩ rfl (by simp [hpc, Thread.at, Pc.residence])
    | devolution k =>
      simp only [Sees, hpc, Underway, Option.some.injEq] at h
      exact advanced_same ⟨rfl, h.2⟩ rfl (by simp [hpc, Thread.at, Pc.residence])
  | @stretched call text hpc =>
    cases call with
    | registration | removal =>
      have hholds : Holds shared.memory partitions := by simpa only [Sees, hpc] using h
      exact advanced_same hholds rfl (by simp [hpc, Thread.at, Pc.residence])
    | admission k =>
      simp only [Sees, hpc, Underway] at h
      have hzeros : stretch shared.memory text = zeros text := by rw [h.1.1, stretch_nil]
      exact advanced_same ⟨⟨hzeros, h.1.2⟩, h.2⟩ rfl (by simp [hpc, Thread.at, Pc.residence])
    | devolution k =>
      simp only [Sees, hpc, Underway] at h
      have hzeros : stretch shared.memory text = zeros text := by rw [h.1, stretch_nil]
      exact advanced_same ⟨hzeros, h.2⟩ rfl (by simp [hpc, Thread.at, Pc.residence])
  | copied hpc hfits => exact advanced_copied hsound h hpc
  | @acquired critical value hpc hvalue =>
    have hholds : Holds shared.memory partitions := by simpa only [Sees, hpc] using h
    cases critical <;> exact advanced_same hholds rfl (by simp [hpc, Thread.at, afterWait, Pc.residence])
  | @logged outcome hpc =>
    have hholds : Holds shared.memory partitions := by simpa only [Sees, hpc] using h
    cases outcome <;> exact advanced_same hholds rfl (by simp [hpc, Thread.at, Pc.residence])
  | @released outcome hpc =>
    have hholds : Holds shared.memory partitions := by simpa only [Sees, hpc] using h
    cases outcome <;> exact advanced_same hholds rfl (by simp [hpc, Thread.at, afterPost, Pc.residence])
  | @woken k hpc =>
    have hholds : Holds shared.memory partitions := by simpa only [Sees, hpc] using h
    exact advanced_same hholds rfl (by simp [hpc, Thread.at, Pc.residence])

/-- A worker that stops the process leaves the memory file as it found it. -/
theorem memory_of_halts {reason : Halt} (h : Sees partitions shared.memory thread)
    (hhalts : Halts thread shared reason shared') : shared'.memory = shared.memory := by
  cases hhalts with
  | @null call hpc =>
    cases call with
    | registration | removal => rfl
    | _ => simp [Sees, Underway, hpc] at h
  | @cut call text hpc hfits =>
    cases call with
    | registration | removal => rfl
    | admission k =>
      simp only [Sees, hpc, Underway] at h
      rw [WriteCall.file, Shared.content, h.1.1] at hfits
      exact absurd (fits_zeros text) (Nat.not_le.mpr hfits)
    | devolution k =>
      simp only [Sees, hpc, Underway] at h
      rw [WriteCall.file, Shared.content, h.1] at hfits
      exact absurd (fits_zeros text) (Nat.not_le.mpr hfits)
  | _ => rfl

/-- Outside the critical sections a worker only calls on the waiting list. -/
theorem memory_of_halts_outside {reason : Halt} (hout : thread.pc.isCritical = false)
    (hhalts : Halts thread shared reason shared') : shared'.memory = shared.memory := by
  cases hhalts with
  | @null call hpc | @cut call text hpc hfits =>
    cases call with
    | registration | removal => rfl
    | _ => simp [hpc, Pc.isCritical] at hout
  | _ => rfl

/-- A move that neither starts nor ends inside a critical section. -/
theorem outside_section (hmove : Move algorithm thread shared thread' shared' events)
    (hout : thread.pc.isCritical = false) (hout' : thread'.pc.isCritical = false) :
    shared'.memory = shared.memory ∧ (∀ i, share i thread' = share i thread) ∧
      sections (events.map (Prod.mk thread.worker)) = [] := by
  obtain ⟨hmemory, hresident, hcommits, -⟩ := outside_move hmove hout hout'
  have hresidence : thread'.pc.residence = thread.pc.residence := by
    have hindex := congrArg (Option.map Resident.index) hresident
    simpa [residentOf, Function.comp_def] using hindex
  refine ⟨hmemory, fun i => ?_, ?_⟩
  · rw [share, share, hresidence, worker_of_move hmove]
  · rw [sections, List.filterMap_eq_nil_iff]
    rw [commits, List.filterMap_eq_nil_iff] at hcommits
    intro entry hentry
    have hnone := hcommits entry hentry
    obtain ⟨worker, event⟩ := entry
    cases event with
    | wrote call => cases call <;> simp_all [commit, sectionOf]
    | _ => rfl

end Move

/-! ## The process -/

/-- The sections completed since an earlier state. -/
def turnsSince (origin s : Producer) : List Turn :=
  sections (s.history.drop origin.history.length)

/-- The partition objects of a Producer that had the given ones in that state. -/
def current (base : List (JsonObject JsonValue)) (origin s : Producer) : List (JsonObject JsonValue) :=
  after base (turnsSince origin s)

/-- The Producer has performed the sections of its history since then. -/
structure Performs (base : List (JsonObject JsonValue)) (origin s : Producer) : Prop where
  past : origin.history.length ≤ s.history.length
  idle : BetweenSections s → Holds s.shared.memory (current base origin s)
  view : ∀ thread ∈ s.threads, thread.pc.isCritical = true →
    Sees (current base origin s) s.shared.memory thread
  shares : ∀ i, residentSizes s i = residentSizes origin i + spent (turnsSince origin s) i
  authors : ∀ turn ∈ turnsSince origin s, ∃ thread ∈ s.threads, thread.worker = turn.worker
  nonneg : (∀ p ∈ base, 0 ≤ freeSpaceOf p) → ∀ p ∈ current base origin s, 0 ≤ freeSpaceOf p

section Step

variable {base : List (JsonObject JsonValue)} {algorithm : Algorithm} {origin s : Producer} {i : Nat}
  {thread thread' : Thread} {shared' : Shared} {events : List Event}

theorem sees_of_performs (hwell : WellFormed s) (h : Performs base origin s)
    (hi : s.threads[i]? = some thread)
    (hmove : Move algorithm thread s.shared thread' shared' events)
    (hcrit : thread.pc.isCritical = true ∨ thread'.pc.isCritical = true) :
    Sees (current base origin s) s.shared.memory thread := by
  cases hc : thread.pc.isCritical with
  | true => exact h.view thread (List.mem_of_getElem? hi) hc
  | false =>
    -- the worker is about to enter, so the semaphore is free
    have hc' : thread'.pc.isCritical = true := hcrit.resolve_left (by simp [hc])
    have hheld := (move_keeps hmove).2.2
    obtain ⟨value, hvalue⟩ : ∃ value, s.shared.semFindSpace = value + 1 := by
      simp only [held, hc, hc', if_true, Bool.false_eq_true, if_false] at hheld
      exact ⟨shared'.semFindSpace, by omega⟩
    exact (sees_of_not_critical hc).mpr (h.idle (between_of_sem hwell hvalue))

theorem residentSizes_moved (hi : s.threads[i]? = some thread) (k : Nat) :
    residentSizes (moved s i thread thread' shared' events) k + share k thread =
      residentSizes s k + share k thread' := by
  rw [residentSizes_eq_sum, residentSizes_eq_sum]
  exact sum_map_set (share k) hi thread'

/-- Who completes sections stays among the workers. -/
theorem authors_moved {turns fresh : List Turn} (hi : s.threads[i]? = some thread)
    (hworker : thread'.worker = thread.worker)
    (hold : ∀ turn ∈ turns, ∃ other ∈ s.threads, other.worker = turn.worker)
    (hown : ∀ turn ∈ fresh, turn.worker = thread.worker) :
    ∀ turn ∈ turns ++ fresh, ∃ other ∈ s.threads.set i thread', other.worker = turn.worker := by
  have hself : thread' ∈ s.threads.set i thread' :=
    List.mem_of_getElem? (getElem?_set_self_of_some hi thread')
  intro turn hturn
  rcases List.mem_append.mp hturn with hpast | hnew
  · obtain ⟨other, hother, hsame⟩ := hold turn hpast
    obtain ⟨j, hj⟩ := List.mem_iff_getElem?.mp hother
    by_cases hij : i = j
    · subst hij
      obtain rfl := Option.some.inj (hi.symm.trans hj)
      exact ⟨thread', hself, hworker.trans hsame⟩
    · have hj' : (s.threads.set i thread')[j]? = some other := by rwa [List.getElem?_set_ne hij]
      exact ⟨other, List.mem_of_getElem? hj', hsame⟩
  · exact ⟨thread', hself, hworker.trans (hown turn hnew).symm⟩

theorem turnsSince_moved (hpast : origin.history.length ≤ s.history.length) :
    turnsSince origin (moved s i thread thread' shared' events) =
      turnsSince origin s ++ sections (events.map (Prod.mk thread.worker)) := by
  rw [turnsSince, turnsSince, moved, List.drop_append_of_le_length hpast, sections_append]

theorem current_moved (hpast : origin.history.length ≤ s.history.length) :
    current base origin (moved s i thread thread' shared' events) =
      after (current base origin s) (sections (events.map (Prod.mk thread.worker))) := by
  rw [current, turnsSince_moved hpast, after_append]
  rfl

theorem past_moved (hpast : origin.history.length ≤ s.history.length) :
    origin.history.length ≤ (moved s i thread thread' shared' events).history.length := by
  rw [moved, List.length_append]
  omega

/-- A move that starts or ends inside a critical section. -/
theorem performs_inside (hbase : Sound base) (hwell : WellFormed s) (h : Performs base origin s)
    (hi : s.threads[i]? = some thread)
    (hmove : Move algorithm thread s.shared thread' shared' events)
    (hcrit : thread.pc.isCritical = true ∨ thread'.pc.isCritical = true) :
    Performs base origin (moved s i thread thread' shared' events) := by
  have hmem := List.mem_of_getElem? hi
  have hwell' := wellFormed_move hwell hi hmove
  have hset := getElem?_set_self_of_some hi thread'
  have hadvanced := advanced_move (hbase.after _) (sees_of_performs hwell h hi hmove hcrit) hmove
  constructor
  case past => exact past_moved h.past
  case idle =>
    intro hbetween
    have hout : thread'.pc.isCritical = false := hbetween thread' (List.mem_of_getElem? hset)
    rw [current_moved h.past]
    exact (sees_of_not_critical hout).mp hadvanced.sees
  case view =>
    intro other hother hcrit'
    rw [current_moved h.past]
    obtain ⟨j, hj⟩ := List.mem_iff_getElem?.mp hother
    rcases getElem?_set_cases hj with ⟨rfl, rfl⟩ | ⟨hne, hold⟩
    · exact hadvanced.sees
    · -- another worker inside excludes this one before and after the move
      rcases hcrit with hc | hc
      · exact absurd (critical_unique hwell hold hi hcrit' hc) hne
      · exact absurd (critical_unique hwell' hj hset hcrit' hc) hne
  case shares =>
    intro k
    have hshare := hadvanced.share k
    have hold := h.shares k
    have hnew : residentSizes (moved s i thread thread' shared' events) k + share k thread =
        residentSizes s k + share k thread' := residentSizes_moved hi k
    rw [turnsSince_moved h.past, spent_append]
    omega
  case authors =>
    rw [turnsSince_moved h.past]
    exact authors_moved hi (worker_of_move hmove) h.authors hadvanced.own
  case nonneg =>
    intro hnonneg
    rw [current_moved h.past]
    exact hadvanced.nonneg (hwell.size_pos thread hmem) (h.nonneg hnonneg)

/-- A move outside the critical sections. -/
theorem performs_outside (h : Performs base origin s) (hi : s.threads[i]? = some thread)
    (hmove : Move algorithm thread s.shared thread' shared' events)
    (hout : thread.pc.isCritical = false) (hout' : thread'.pc.isCritical = false) :
    Performs base origin (moved s i thread thread' shared' events) := by
  obtain ⟨hmemory, hshare, hnil⟩ := outside_section hmove hout hout'
  have hsame : current base origin (moved s i thread thread' shared' events) = current base origin s := by
    rw [current_moved h.past, hnil]
    rfl
  constructor
  case past => exact past_moved h.past
  case idle =>
    intro hbetween
    rw [hsame, moved, hmemory]
    apply h.idle
    intro other hother
    obtain ⟨j, hj⟩ := List.mem_iff_getElem?.mp hother
    by_cases hij : i = j
    · subst hij
      obtain rfl := Option.some.inj (hi.symm.trans hj)
      exact hout
    · have hj' : (s.threads.set i thread')[j]? = some other := by rwa [List.getElem?_set_ne hij]
      exact hbetween other (List.mem_of_getElem? hj')
  case view =>
    intro other hother hcrit'
    rw [hsame, moved, hmemory]
    obtain ⟨j, hj⟩ := List.mem_iff_getElem?.mp hother
    rcases getElem?_set_cases hj with ⟨rfl, rfl⟩ | ⟨-, hold⟩
    · rw [hout'] at hcrit'
      exact absurd hcrit' (by decide)
    · exact h.view other (List.mem_of_getElem? hold) hcrit'
  case shares =>
    intro k
    have hold := h.shares k
    have hnew : residentSizes (moved s i thread thread' shared' events) k + share k thread =
        residentSizes s k + share k thread' := residentSizes_moved hi k
    rw [hshare k] at hnew
    rw [turnsSince_moved h.past, hnil, List.append_nil]
    omega
  case authors =>
    rw [turnsSince_moved h.past]
    exact authors_moved hi (worker_of_move hmove) h.authors (by simp [hnil])
  case nonneg =>
    intro hnonneg
    rw [hsame]
    exact h.nonneg hnonneg

theorem performs_move (hbase : Sound base) (hwell : WellFormed s) (h : Performs base origin s)
    (hi : s.threads[i]? = some thread)
    (hmove : Move algorithm thread s.shared thread' shared' events) :
    Performs base origin (moved s i thread thread' shared' events) := by
  by_cases hcrit : thread.pc.isCritical = true ∨ thread'.pc.isCritical = true
  · exact performs_inside hbase hwell h hi hmove hcrit
  · rw [not_or, Bool.not_eq_true, Bool.not_eq_true] at hcrit
    exact performs_outside h hi hmove hcrit.1 hcrit.2

theorem performs_create (h : Performs base origin s) (processId : Nat)
    (processSize processDelay : Int) :
    Performs base origin (create s processId processSize processDelay) := by
  constructor
  case past => exact h.past
  case idle =>
    exact fun hbetween => h.idle fun thread hthread => hbetween thread (List.mem_append_left _ hthread)
  case view =>
    intro thread hthread hcrit
    rcases List.mem_append.mp hthread with hold | hnew
    · exact h.view thread hold hcrit
    · rw [List.mem_singleton.mp hnew] at hcrit
      exact absurd hcrit (by simp [Thread.start, Pc.isCritical])
  case shares =>
    intro k
    rw [residentSizes_eq_sum, create, List.map_append, List.sum_append, ← residentSizes_eq_sum,
      h.shares k]
    simp [share, Thread.start, Pc.residence, turnsSince]
  case authors =>
    intro turn hturn
    obtain ⟨thread, hthread, hsame⟩ := h.authors turn hturn
    exact ⟨thread, List.mem_append_left _ hthread, hsame⟩
  case nonneg => exact h.nonneg

theorem performs_stopped {reason : Halt} (h : Performs base origin s) (hi : s.threads[i]? = some thread)
    (hhalts : Halts thread s.shared reason shared') : Performs base origin (stopped s reason shared') := by
  have hmemory : shared'.memory = s.shared.memory := by
    cases hcrit : thread.pc.isCritical with
    | true => exact memory_of_halts (h.view thread (List.mem_of_getElem? hi) hcrit) hhalts
    | false => exact memory_of_halts_outside hcrit hhalts
  constructor
  case past => exact h.past
  case idle => exact fun hbetween => hmemory ▸ h.idle hbetween
  case view => exact fun other hother hcrit => hmemory ▸ h.view other hother hcrit
  case shares => exact h.shares
  case authors => exact h.authors
  case nonneg => exact h.nonneg

end Step

/-! ## Runs -/

/-- From a moment between two critical sections on. -/
theorem performs_of_steps {algorithm : Algorithm} {base : List (JsonObject JsonValue)}
    {origin : Producer} (hwell : WellFormed origin) (hbetween : BetweenSections origin)
    (hholds : Holds origin.shared.memory base) {s : Producer}
    (hs : ReflTransGen (Step algorithm) origin s) : WellFormed s ∧ Performs base origin s := by
  have hbase : Sound base := ⟨hholds.length_le, hholds.isPartition⟩
  induction hs with
  | refl =>
    have hnone : turnsSince origin origin = [] := by simp [turnsSince, sections]
    have hcurrent : current base origin origin = base := by rw [current, hnone, after, List.foldl_nil]
    refine ⟨hwell, le_refl _, ?_, ?_, ?_, ?_, ?_⟩
    · intro _
      rwa [hcurrent]
    · intro thread hthread hcrit
      rw [hbetween thread hthread] at hcrit
      exact absurd hcrit (by decide)
    · simp [hnone, spent]
    · simp [hnone]
    · intro hnonneg
      rwa [hcurrent]
  | tail _ hlast ih =>
    obtain ⟨hwell, hP⟩ := ih
    obtain ⟨hhalted, hstep | ⟨i, thread, reason, shared', hi, hhalts, rfl⟩⟩ := live_or_halt hlast
    · refine ⟨wellFormed_live hwell hstep, ?_⟩
      cases hstep with
      | create delay hfresh hpos => exact performs_create hP _ _ _
      | move hi hmove => exact performs_move hbase hwell hP hi hmove
    · exact ⟨wellFormed_stopped hwell hhalts, performs_stopped hP hi hhalts⟩

theorem wellFormed_startOn (memory processesOnWaiting : Content) :
    WellFormed (startOn memory processesOnWaiting) := by
  refine ⟨rfl, ?_, ?_, ?_⟩ <;> simp [startOn]

/-- A run of a Producer from the files as they are. -/
def RunsFrom (algorithm : Algorithm) (memory processesOnWaiting : Content) (s : Producer) : Prop :=
  ReflTransGen (Step algorithm) (startOn memory processesOnWaiting) s

theorem performs_of_run {algorithm : Algorithm} {memory processesOnWaiting : Content}
    {base : List (JsonObject JsonValue)} (hholds : Holds memory base) {s : Producer}
    (hs : RunsFrom algorithm memory processesOnWaiting s) :
    Performs base (startOn memory processesOnWaiting) s :=
  (performs_of_steps (wellFormed_startOn memory processesOnWaiting) (by simp [BetweenSections, startOn])
    hholds hs).2

/-- The file is complete whenever no worker is inside a write of it. -/
theorem holds_of_quiet {base : List (JsonObject JsonValue)} {origin s : Producer}
    (h : Performs base origin s) (hquiet : Quiet .memory s) :
    Holds s.shared.memory (current base origin s) := by
  by_cases hbetween : BetweenSections s
  · exact h.idle hbetween
  · simp only [BetweenSections, not_forall, Bool.not_eq_false] at hbetween
    obtain ⟨thread, hthread, hcrit⟩ := hbetween
    have hview := h.view thread hthread hcrit
    have hstill := hquiet thread hthread
    unfold Sees at hview
    split at hview
    · next k stage hpc =>
      cases stage with
      | opening => exact hview.1.1
      | _ => simp [hpc, Pc.isWriting, WriteCall.file] at hstill
    · next k stage hpc =>
      cases stage with
      | opening => exact hview.1
      | _ => simp [hpc, Pc.isWriting, WriteCall.file] at hstill
    · exact hview

end DynamicPartitions.Refinement.Takeover
