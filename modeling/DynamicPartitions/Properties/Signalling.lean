import DynamicPartitions.Lib.Transition
import DynamicPartitions.Program.Announcement

/-!
# Whom Killer signals

A Producer that has stored its pid finds it in its own segment until it ends. What
Killer reads is that pid exactly when it reads that segment in that time.
-/
namespace DynamicPartitions.Properties.Signalling

open DynamicPartitions.Lib.Naming
open DynamicPartitions.Lib.Transition
open DynamicPartitions.Program.Announcement

variable {s t : Scene} {label : Label} {entries : List (Scene × Label)}

/-- The pid read is the one stored by a Producer that had not ended. -/
def Announced (reading : Reading) : Prop :=
  ∃ producer, reading.producer = some producer ∧
    reading.content = some ⟨producer.pid, producer.number⟩ ∧
    reading.pid = producer.pid ∧ reading.pid ≠ 0

/-- If the step is Killer's read, a Producer that has not ended has stored its pid in the
segment that Killer reads. -/
def InTime (entry : Scene × Label) : Prop :=
  entry.2 = .killer → ∀ shmID, entry.1.killer = .loading shmID →
    ∃ producer, entry.1.producer = some producer ∧ producer.announced = true ∧
      producer.shmID = shmID

/-! ## What the segments hold -/

/-- A Producer that has not ended: nobody else has written its segment since its store,
and it has written no other. -/
structure Owns (segments : Segments) (producer : Producer) : Prop where
  pid : producer.pid ≠ 0
  allocated : producer.shmID < segments.objects.length
  announced : producer.announced = true →
    segments.objects[producer.shmID]? = some (some ⟨producer.pid, producer.number⟩)
  only : ∀ (shmID : Nat) (stored : Stored), segments.objects[shmID]? = some (some stored) →
    stored.run = producer.number → shmID = producer.shmID ∧ producer.announced = true

structure Consistent (s : Scene) : Prop where
  earlier : ∀ (shmID : Nat) (stored : Stored),
    s.segments.objects[shmID]? = some (some stored) → stored.run < s.runs
  numbered : ∀ producer, s.producer = some producer → producer.number < s.runs
  owns : ∀ producer, s.producer = some producer → Owns s.segments producer

theorem consistent_start : Consistent start := by
  constructor
  · exact fun _ _ h => nomatch h
  · exact fun _ h => nomatch h
  · exact fun _ h => nomatch h

/-- `shmget` stores nothing. -/
theorem stored_of_acquire {segments : Segments} {shmID : Nat} {stored : Stored}
    (h : (segments.acquire () none).2.objects[shmID]? = some (some stored)) :
    segments.objects[shmID]? = some (some stored) := by
  rcases Catalog.getElem?_of_acquire h with hold | hnew
  · exact hold
  · cases hnew

theorem consistent_launch (h : Consistent s) {pid : Nat} (hstep : launch s pid = some t) :
    Consistent t := by
  unfold launch at hstep
  split at hstep
  · rename_i hguard
    obtain rfl := Option.some.inj hstep
    have hlink := Catalog.link_acquire_self s.segments () none
    constructor
    · intro shmID stored hstored
      exact Nat.lt_succ_of_lt (h.earlier shmID stored (stored_of_acquire hstored))
    · intro producer hproducer
      obtain rfl := Option.some.inj hproducer
      exact Nat.lt_succ_self _
    · intro producer hproducer
      obtain rfl := Option.some.inj hproducer
      constructor
      · exact hguard.2
      · exact (s.segments.acquire () none).2.linked () _ hlink
      · exact fun hannounced => nomatch hannounced
      · intro shmID stored hstored hrun
        have hearlier := h.earlier shmID stored (stored_of_acquire hstored)
        change stored.run = s.runs at hrun
        omega
  · cases hstep

/-- Neither the place in the program nor the name of the segment matters. -/
theorem Owns.moved {segments segments' : Segments} {producer producer' : Producer}
    (h : Owns segments producer) (hobjects : segments'.objects = segments.objects)
    (hstage : producer' = { producer with stage := producer'.stage }) :
    Owns segments' producer' := by
  rw [hstage]
  constructor
  · exact h.pid
  · rw [hobjects]
    exact h.allocated
  · rw [hobjects]
    exact h.announced
  · rw [hobjects]
    exact h.only

/-- What a step that stores nothing keeps. -/
theorem Consistent.moved (h : Consistent s) (hobjects : t.segments.objects = s.segments.objects)
    (hruns : t.runs = s.runs)
    (hproducer : ∀ producer', t.producer = some producer' → ∃ producer,
      s.producer = some producer ∧ producer' = { producer with stage := producer'.stage }) :
    Consistent t := by
  constructor
  · rw [hobjects, hruns]
    exact h.earlier
  · intro producer' hsome
    obtain ⟨producer, hold, hstage⟩ := hproducer producer' hsome
    rw [hruns, hstage]
    exact h.numbered producer hold
  · intro producer' hsome
    obtain ⟨producer, hold, hstage⟩ := hproducer producer' hsome
    exact (h.owns producer hold).moved hobjects hstage

theorem consistent_store (h : Consistent s) {producer : Producer}
    (hproducer : s.producer = some producer)
    (hsegments : t.segments = s.segments.store producer.shmID (some ⟨producer.pid, producer.number⟩))
    (hafter : t.producer = some { producer with stage := .running, announced := true })
    (hruns : t.runs = s.runs) : Consistent t := by
  have howns := h.owns producer hproducer
  have hnumber := h.numbered producer hproducer
  have hself : t.segments.objects[producer.shmID]? =
      some (some ⟨producer.pid, producer.number⟩) := by
    rw [hsegments, Catalog.objects_store, List.getElem?_set_self howns.allocated]
  have hother : ∀ shmID, shmID ≠ producer.shmID →
      t.segments.objects[shmID]? = s.segments.objects[shmID]? := by
    intro shmID hne
    rw [hsegments, Catalog.getElem?_store_of_ne _ hne]
  constructor
  · intro shmID stored hstored
    rw [hruns]
    by_cases hid : shmID = producer.shmID
    · rw [hid, hself] at hstored
      obtain rfl := Option.some.inj (Option.some.inj hstored)
      exact hnumber
    · rw [hother shmID hid] at hstored
      exact h.earlier shmID stored hstored
  · intro producer' hsome
    obtain rfl := Option.some.inj (hafter.symm.trans hsome)
    rw [hruns]
    exact hnumber
  · intro producer' hsome
    obtain rfl := Option.some.inj (hafter.symm.trans hsome)
    constructor
    · exact howns.pid
    · rw [hsegments, Catalog.objects_store, List.length_set]
      exact howns.allocated
    · exact fun _ => hself
    · intro shmID stored hstored hrun
      refine ⟨?_, rfl⟩
      by_contra hne
      rw [hother shmID hne] at hstored
      exact hne (howns.only shmID stored hstored hrun).1

theorem consistent_advance (h : Consistent s) {producer : Producer}
    (hproducer : s.producer = some producer) (hstep : advance s producer = some t) :
    Consistent t := by
  cases hstage : producer.stage with
  | attaching =>
    simp only [advance, hstage] at hstep
    obtain rfl := Option.some.inj hstep
    refine h.moved rfl rfl ?_
    intro producer' hsome
    obtain rfl := Option.some.inj hsome
    exact ⟨producer, hproducer, rfl⟩
  | storing =>
    simp only [advance, hstage] at hstep
    obtain rfl := Option.some.inj hstep
    exact consistent_store h hproducer rfl rfl rfl
  | running =>
    simp only [advance, hstage] at hstep
    cases hstep
  | removing =>
    simp only [advance, hstage] at hstep
    obtain rfl := Option.some.inj hstep
    apply h.moved
    · show (ite _ _ _ : Segments).objects = _
      split <;> rfl
    · rfl
    · intro producer' hsome
      obtain rfl := Option.some.inj hsome
      exact ⟨producer, hproducer, rfl⟩
  | exiting =>
    simp only [advance, hstage] at hstep
    obtain rfl := Option.some.inj hstep
    exact h.moved rfl rfl fun producer' hsome => nomatch hsome

theorem consistent_interrupt (h : Consistent s) {producer : Producer}
    (hproducer : s.producer = some producer) (hstep : interrupt s producer = some t) :
    Consistent t := by
  have hafter : t = { s with producer := some { producer with stage := .removing } } := by
    unfold interrupt at hstep
    split at hstep
    all_goals cases hstep
    all_goals rfl
  obtain rfl := hafter
  refine h.moved rfl rfl ?_
  intro producer' hsome
  obtain rfl := Option.some.inj hsome
  exact ⟨producer, hproducer, rfl⟩

theorem consistent_fail (h : Consistent s) {producer : Producer}
    (hstep : fail s producer = some t) : Consistent t := by
  unfold fail at hstep
  split at hstep
  · obtain rfl := Option.some.inj hstep
    exact h.moved rfl rfl fun producer' hsome => nomatch hsome
  · cases hstep

/-! ## Killer -/

/-- Killer leaves the segments and Producer alone. Before its read there is nothing it has
read, the read takes what is there, and afterwards that is kept. -/
theorem killProducer_cases (h : killProducer s = some t) :
    t.segments = s.segments ∧ t.producer = s.producer ∧ t.runs = s.runs ∧
      ((∃ shmID, s.killer = .loading shmID ∧ s.killer.taken = none ∧
          t.killer.taken = some ⟨s.segments.objects.getD shmID none, s.producer⟩) ∨
        (∀ shmID, s.killer ≠ .loading shmID) ∧ t.killer.taken = s.killer.taken) := by
  unfold killProducer at h
  split at h
  · rename_i hkiller
    split at h
    all_goals
      obtain rfl := Option.some.inj h
      exact ⟨rfl, rfl, rfl, .inr (by rw [hkiller]; exact ⟨nofun, rfl⟩)⟩
  · rename_i shmID hkiller
    split at h
    all_goals
      obtain rfl := Option.some.inj h
      exact ⟨rfl, rfl, rfl, .inr (by rw [hkiller]; exact ⟨nofun, rfl⟩)⟩
  · rename_i shmID hkiller
    obtain rfl := Option.some.inj h
    exact ⟨rfl, rfl, rfl, .inl ⟨shmID, hkiller, by rw [hkiller]; rfl, rfl⟩⟩
  · rename_i reading hkiller
    obtain rfl := Option.some.inj h
    exact ⟨rfl, rfl, rfl, .inr (by rw [hkiller]; exact ⟨nofun, rfl⟩)⟩
  · cases h
  · cases h

theorem consistent_step (h : Consistent s) (hstep : Step s label t) : Consistent t := by
  cases label with
  | launch pid => exact consistent_launch h hstep
  | producer =>
    obtain ⟨producer, hproducer, hadvance⟩ := Option.bind_eq_some_iff.mp hstep
    exact consistent_advance h hproducer hadvance
  | interrupt =>
    obtain ⟨producer, hproducer, hinterrupt⟩ := Option.bind_eq_some_iff.mp hstep
    exact consistent_interrupt h hproducer hinterrupt
  | fail =>
    obtain ⟨producer, -, hfail⟩ := Option.bind_eq_some_iff.mp hstep
    exact consistent_fail h hfail
  | killer =>
    obtain ⟨hsegments, hproducer, hruns, -⟩ := killProducer_cases hstep
    apply h.moved
    · rw [hsegments]
    · exact hruns
    · intro producer hsome
      rw [hproducer] at hsome
      exact ⟨producer, hsome, rfl⟩

theorem consistent_run (hrun : Run Step start entries t) : Consistent t :=
  hrun.holds (P := Consistent) (fun _ _ _ h hstep => consistent_step h hstep) consistent_start

/-! ## Killer's read -/

/-- Only Killer moves Killer. -/
theorem killer_of_ne (hlabel : label ≠ .killer) (hstep : Step s label t) : t.killer = s.killer := by
  cases label with
  | launch pid =>
    change launch s pid = some t at hstep
    unfold launch at hstep
    split at hstep
    · obtain rfl := Option.some.inj hstep
      rfl
    · cases hstep
  | producer =>
    obtain ⟨producer, -, hadvance⟩ := Option.bind_eq_some_iff.mp hstep
    unfold advance at hadvance
    split at hadvance
    all_goals cases hadvance
    all_goals rfl
  | interrupt =>
    obtain ⟨producer, -, hinterrupt⟩ := Option.bind_eq_some_iff.mp hstep
    unfold interrupt at hinterrupt
    split at hinterrupt
    all_goals cases hinterrupt
    all_goals rfl
  | fail =>
    obtain ⟨producer, -, hfail⟩ := Option.bind_eq_some_iff.mp hstep
    unfold fail at hfail
    split at hfail
    · obtain rfl := Option.some.inj hfail
      rfl
    · cases hfail
  | killer => exact absurd rfl hlabel

/-- A step is Killer's read, or leaves what Killer has read as it is. -/
theorem taken_cases (hstep : Step s label t) :
    (∃ shmID, label = .killer ∧ s.killer = .loading shmID ∧ s.killer.taken = none ∧
      t.killer.taken = some ⟨s.segments.objects.getD shmID none, s.producer⟩) ∨
    InTime (s, label) ∧ t.killer.taken = s.killer.taken := by
  by_cases hlabel : label = .killer
  · subst hlabel
    obtain ⟨-, -, -, ⟨shmID, hkiller, hnone, htaken⟩ | ⟨hother, htaken⟩⟩ := killProducer_cases hstep
    · exact .inl ⟨shmID, rfl, hkiller, hnone, htaken⟩
    · exact .inr ⟨fun _ shmID hkiller => absurd hkiller (hother shmID), htaken⟩
  · right
    rw [killer_of_ne hlabel hstep]
    exact ⟨fun h => absurd h hlabel, rfl⟩

/-- What Killer reads is announced exactly if it reads in time. -/
theorem announced_iff_inTime (h : Consistent s) {shmID : Nat}
    (hkiller : s.killer = .loading shmID) :
    Announced ⟨s.segments.objects.getD shmID none, s.producer⟩ ↔ InTime (s, .killer) := by
  rw [List.getD_eq_getElem?_getD]
  constructor
  · rintro ⟨producer, hproducer, hcontent, -, -⟩ - shmID' hkiller'
    obtain rfl := KillerStage.loading.inj (hkiller.symm.trans hkiller')
    have hstored : s.segments.objects[shmID]? =
        some (some ⟨producer.pid, producer.number⟩) := by
      change s.segments.objects[shmID]?.getD none = _ at hcontent
      cases hobject : s.segments.objects[shmID]? with
      | none =>
        rw [hobject] at hcontent
        cases hcontent
      | some content =>
        rw [hobject] at hcontent
        exact congrArg some hcontent
    obtain ⟨hown, hannounced⟩ := (h.owns producer hproducer).only shmID _ hstored rfl
    exact ⟨producer, hproducer, hannounced, hown.symm⟩
  · intro hintime
    obtain ⟨producer, hproducer, hannounced, rfl⟩ := hintime rfl shmID hkiller
    have howns := h.owns producer hproducer
    rw [howns.announced hannounced]
    exact ⟨producer, hproducer, rfl, rfl, howns.pid⟩

theorem taken_iff_inTime (hrun : Run Step start entries t) :
    (t.killer.taken = none → ∀ entry ∈ entries, InTime entry) ∧
    ∀ reading, t.killer.taken = some reading →
      (Announced reading ↔ ∀ entry ∈ entries, InTime entry) := by
  induction hrun with
  | nil => exact ⟨fun _ _ h => (nomatch h), fun _ h => nomatch h⟩
  | @snoc entries t u label hbefore hlast ih =>
    rw [forall_mem_snoc]
    rcases taken_cases hlast with ⟨shmID, rfl, hkiller, hnone, htaken⟩ | ⟨hintime, htaken⟩
    · have hall := ih.1 hnone
      have hread := announced_iff_inTime (consistent_run hbefore) hkiller
      constructor
      · intro h
        rw [htaken] at h
        cases h
      · intro reading h
        obtain rfl := Option.some.inj (htaken.symm.trans h)
        rw [hread]
        exact (and_iff_right hall).symm
    · rw [htaken]
      constructor
      · exact fun h => ⟨ih.1 h, hintime⟩
      · intro reading h
        rw [ih.2 reading h]
        exact (and_iff_left hintime).symm

/-- Killer reads, and signals, the pid of a Producer that has announced itself and has not
ended exactly if it reads in time. -/
theorem reads_announced_iff (hrun : Run Step start entries t) :
    (∀ reading, t.killer.taken = some reading → Announced reading) ↔
      ∀ entry ∈ entries, InTime entry := by
  obtain ⟨hnone, hsome⟩ := taken_iff_inTime hrun
  cases htaken : t.killer.taken with
  | none => exact iff_of_true (fun _ h => nomatch h) (hnone htaken)
  | some reading =>
    rw [← hsome reading htaken]
    constructor
    · exact fun h => h reading rfl
    · intro hannounced other h
      obtain rfl := Option.some.inj h
      exact hannounced

/-! ## Killer alone -/

/-- Killer reads whatever the segment under the key holds if nobody comes between. -/
theorem run_killer {shmID : Nat} (hkiller : s.killer = .locating)
    (hlink : s.segments.link () = some shmID) :
    Run Step s [(s, .killer), ({ s with killer := .attaching shmID }, .killer),
        ({ s with killer := .loading shmID }, .killer)]
      { s with killer := .prompting ⟨s.segments.objects.getD shmID none, s.producer⟩ } := by
  have hlocated : Step s .killer { s with killer := .attaching shmID } := by
    simp only [Step, next, killProducer, hkiller, hlink]
  have hattached : Step { s with killer := .attaching shmID } .killer
      { s with killer := .loading shmID } := by
    simp only [Step, next, killProducer, hlink, if_true]
  have hread : Step { s with killer := .loading shmID } .killer
      { s with killer := .prompting ⟨s.segments.objects.getD shmID none, s.producer⟩ } := rfl
  exact ((Run.nil.snoc hlocated).snoc hattached).snoc hread

/-- The first Producer has its segment. -/
def firstLaunched : Scene :=
  { start with
      segments := start.segments.add () none
      producer := some ⟨0, 7, 0, .attaching, false⟩
      runs := 1 }

/-- The first Producer has stored its pid. -/
def firstAnnounced : Scene :=
  { firstLaunched with
      segments := firstLaunched.segments.store 0 (some ⟨7, 0⟩)
      producer := some ⟨0, 7, 0, .running, true⟩ }

theorem run_announced : ∃ entries, Run Step start entries firstAnnounced ∧
    ∀ entry ∈ entries, entry.2 ≠ .killer := by
  let attached : Scene := { firstLaunched with producer := some ⟨0, 7, 0, .storing, false⟩ }
  have hlaunched : Step start (.launch 7) firstLaunched := rfl
  have hattached : Step firstLaunched .producer attached := rfl
  have hstored : Step attached .producer firstAnnounced := rfl
  refine ⟨_, ((Run.nil.snoc hlaunched).snoc hattached).snoc hstored, ?_⟩
  simp

/-- After the store Killer reads the pid of the running Producer. -/
theorem reads_announced_first :
    ∃ entries t reading, Run Step start entries t ∧ t.killer.taken = some reading ∧
      Announced reading := by
  obtain ⟨entries, hannounced, hentries⟩ := run_announced
  have hrun := hannounced.append (run_killer rfl rfl)
  refine ⟨_, _, _, hrun, rfl, (reads_announced_iff hrun).mpr ?_ _ rfl⟩
  intro entry hentry hlabel
  rcases List.mem_append.mp hentry with hentry | hentry
  · exact absurd hlabel (hentries entry hentry)
  · simp only [List.mem_cons, List.not_mem_nil, or_false] at hentry
    rcases hentry with rfl | rfl | rfl
    · exact fun _ h => nomatch h
    · exact fun _ h => nomatch h
    · intro shmID h
      obtain rfl := KillerStage.loading.inj h
      exact ⟨_, rfl, rfl, rfl⟩

/-- A Producer that a worker takes down leaves its pid behind for Killer. -/
theorem stale_pid_read :
    ¬ ∀ entries t, Run Step start entries t →
      ∀ reading, t.killer.taken = some reading → Announced reading := by
  intro hclaim
  obtain ⟨entries, hannounced, -⟩ := run_announced
  have hfailed : Step firstAnnounced .fail { firstAnnounced with producer := none } := rfl
  have hrun := (hannounced.snoc hfailed).append (run_killer rfl rfl)
  obtain ⟨producer, hproducer, -⟩ := hclaim _ _ hrun _ rfl
  cases hproducer

/-- Between its `shmget` and its store Killer reads zero. -/
theorem zero_read :
    ∃ entries t reading, Run Step start entries t ∧ t.killer.taken = some reading ∧
      reading.pid = 0 := by
  have hlaunched : Step start (.launch 7) firstLaunched := rfl
  exact ⟨_, _, _, (Run.nil.snoc hlaunched).append (run_killer rfl rfl), rfl, rfl⟩

end DynamicPartitions.Properties.Signalling
