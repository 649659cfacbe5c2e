import DynamicPartitions.Parson.Truncation
import DynamicPartitions.Properties.Spying
import DynamicPartitions.Properties.Succession

/-!
# Reading in the middle of a copy

`strcpy` fills the stretched file byte by byte, and a reader may come at any byte. What it
sees is a beginning of the new text, which the parser does not accept before it is complete,
so a torn memory is read as NULL and never as other partitions.
-/
namespace DynamicPartitions.Properties.Tearing

open DynamicPartitions.Lib.Update
open DynamicPartitions.Parson.Value
open DynamicPartitions.Parson.Parser
open DynamicPartitions.Parson.Acceptance
open DynamicPartitions.Parson.Truncation
open DynamicPartitions.Program.Algorithms
open DynamicPartitions.Program.MappedFile
open DynamicPartitions.Program.WorkerThread
open DynamicPartitions.Program.Threads
open DynamicPartitions.Program.Moves
open DynamicPartitions.Refinement.Memory
open DynamicPartitions.Refinement.Sections
open DynamicPartitions.Refinement.Takeover
open DynamicPartitions.Properties.Conservation
open DynamicPartitions.Properties.Spying
open DynamicPartitions.Properties.Succession

/-- What can be seen while a text is copied over zero bytes: each of its bytes, or the zero
that it is going to replace. -/
def Torn (text : CString) (seen : Content) : Prop :=
  List.Forall₂ (fun byte now => now = byte ∨ now = nul) (stored text) seen

theorem cString_cons_nul (seen : Content) : cString (nul :: seen) = [] := by simp [cString]

theorem cString_cons {c : Char} (hc : c ≠ nul) (seen : Content) :
    cString (c :: seen) = c :: cString seen := by simp [cString, hc]

/-- The C string that is seen is a beginning of the text. -/
theorem cString_prefix_of_torn {text : CString} : ∀ {seen : Content}, Torn text seen →
    cString seen <+: text := by
  induction text with
  | nil =>
    intro seen h
    obtain ⟨now, rest, hnow, -, rfl⟩ := List.forall₂_cons_left_iff.mp h
    obtain rfl : now = nul := or_self_iff.mp hnow
    rw [cString_cons_nul]
  | cons c text ih =>
    intro seen h
    obtain ⟨now, rest, hnow, hrest, rfl⟩ := List.forall₂_cons_left_iff.mp h
    by_cases hzero : now = nul
    · rw [hzero, cString_cons_nul]
      exact List.nil_prefix
    · obtain rfl := hnow.resolve_right hzero
      rw [cString_cons hzero]
      exact (List.prefix_cons_inj now).mpr (ih hrest)

/-- Whoever sees the whole text sees the finished copy. -/
theorem stored_of_torn {text : CString} : ∀ {seen : Content}, Torn text seen → cString seen = text →
    seen = stored text := by
  induction text with
  | nil =>
    intro seen h _
    obtain ⟨now, rest, hnow, hrest, rfl⟩ := List.forall₂_cons_left_iff.mp h
    rw [List.forall₂_nil_left_iff.mp hrest, or_self_iff.mp hnow]
    rfl
  | cons c text ih =>
    intro seen h hall
    obtain ⟨now, rest, hnow, hrest, rfl⟩ := List.forall₂_cons_left_iff.mp h
    by_cases hzero : now = nul
    · rw [hzero, cString_cons_nul] at hall
      cases hall
    · obtain rfl := hnow.resolve_right hzero
      rw [cString_cons hzero, List.cons.injEq] at hall
      rw [ih hrest hall.2]
      rfl

/-- The parser stays within the mapping, whatever it sees. -/
theorem extent_of_torn {text : CString} {seen : Content} (h : Torn text seen) :
    parseExtent (cString seen) ≤ min (pageUp seen.length) (pageUp seen.length) := by
  have hextent := parseExtent_le (cString seen)
  have hprefix := (cString_prefix_of_torn h).length_le
  have hlength : (stored text).length = seen.length := List.Forall₂.length_eq h
  have hpage := le_pageUp seen.length
  rw [length_stored] at hlength
  rw [Nat.min_self]
  omega

theorem readStep_of_torn {value : JsonValue} (hvalue : Canonical value) (hcontainer : IsContainer value)
    {seen : Content} (h : Torn (compact value) seen) :
    readStep seen (.mapping seen.length) = .done none ∨
      seen = stored (compact value) ∧ readStep seen (.mapping seen.length) = .done (some (pretty value)) := by
  have hread : readStep seen (.mapping seen.length) = .done (reprint (cString seen)) := by
    rw [readStep, if_neg (Nat.not_lt.mpr (extent_of_torn h))]
  by_cases hall : cString seen = compact value
  · refine .inr ⟨stored_of_torn h hall, ?_⟩
    rw [hread, hall, reprint_compact hvalue]
  · apply Or.inl
    rw [hread, reprint, jsonParseString_truncated false hvalue hcontainer (cString_prefix_of_torn h) hall]
    rfl

/-! ## In a run -/

/-- What a worker copies into the memory file are partitions. -/
theorem copied_of_run {algorithm : Algorithm} {memory processesOnWaiting : Content}
    (hmemory : WellFormed memory) {s : Producer} (hs : RunsFrom algorithm memory processesOnWaiting s)
    {thread : Thread} (hthread : thread ∈ s.threads) {call : WriteCall} (hcall : call.file = .memory)
    {text : CString} (hpc : thread.pc = .writing call (.copying text)) :
    ∃ partitions, Sound partitions ∧ text = compact (memoryOf partitions) := by
  obtain ⟨base, hholds⟩ := holds_of_wellFormed hmemory
  have hperforms := performs_of_run hholds hs
  have hbase : Sound base := ⟨hholds.length_le, hholds.isPartition⟩
  have hcurrent : Sound (current base (startOn memory processesOnWaiting) s) := hbase.after _
  cases call with
  | registration | removal => cases hcall
  | admission k =>
    have hview := hperforms.view thread hthread (by simp [hpc, Pc.isCritical])
    simp only [Sees, hpc, Underway] at hview
    exact ⟨_, hcurrent.after [.admits thread.worker k], hview.1.2⟩
  | devolution k =>
    have hview := hperforms.view thread hthread (by simp [hpc, Pc.isCritical])
    simp only [Sees, hpc, Underway] at hview
    exact ⟨_, hcurrent.after [.releases thread.worker k], hview.2⟩

/-- The new memory is read whole or not at all. -/
def WholeOrNull (text : CString) (seen : Content) : Prop :=
  readStep seen (.mapping seen.length) = .done none ∨
    seen = stored text ∧ ∃ partitions, Holds seen partitions ∧
      readStep seen (.mapping seen.length) = .done (some (pretty (memoryOf partitions)))

/-- In every state of every run in which a worker copies a text into the memory file, a
reader that sees any part of the copy gets NULL, or the partitions the worker writes. -/
theorem torn_read_detected {algorithm : Algorithm} {memory processesOnWaiting : Content}
    (hmemory : WellFormed memory) {s : Producer} (hs : RunsFrom algorithm memory processesOnWaiting s)
    {thread : Thread} (hthread : thread ∈ s.threads) {call : WriteCall} (hcall : call.file = .memory)
    {text : CString} (hpc : thread.pc = .writing call (.copying text)) {seen : Content}
    (hseen : Torn text seen) : WholeOrNull text seen := by
  obtain ⟨partitions, hsound, rfl⟩ := copied_of_run hmemory hs hthread hcall hpc
  have hcanonical : Canonical (memoryOf partitions) :=
    canonical_memoryOf hsound.length_le hsound.isPartition
  rcases readStep_of_torn hcanonical trivial hseen with hnull | ⟨rfl, hwhole⟩
  · exact .inl hnull
  · exact .inr ⟨rfl, partitions, hsound.holds, hwhole⟩

theorem torn_zeros (text : CString) : Torn text (zeros text) := by
  induction text with
  | nil => exact .cons (.inr rfl) .nil
  | cons c text ih => exact .cons (.inr rfl) ih

/-- The first `n` bytes have been copied. -/
theorem torn_part (text : CString) : ∀ n : Nat, Torn text (text.take n ++ zeros (text.drop n)) := by
  induction text with
  | nil =>
    intro n
    simpa using torn_zeros []
  | cons c text ih =>
    intro n
    cases n with
    | zero => exact torn_zeros (c :: text)
    | succ n => exact .cons (.inl rfl) (ih n)

theorem copied_bracket (partitions : List (JsonObject JsonValue)) :
    ∃ rest, compact (memoryOf partitions) = '[' :: rest ++ [']'] :=
  ⟨_, rfl⟩

/-- An admission is being copied, and Spy comes after any number of its bytes. -/
theorem torn_read_detected_admission : ∃ (s : Producer) (thread : Thread) (rest : CString),
    thread ∈ s.threads ∧ thread.pc = .writing (.admission 0) (.copying ('[' :: rest ++ [']'])) ∧
      ∀ n, WholeOrNull ('[' :: rest ++ [']'])
        (('[' :: rest ++ [']']).take n ++ zeros (('[' :: rest ++ [']']).drop n)) := by
  obtain ⟨s, thread, text, hreach, hhalted, hi, hpc⟩ := admission_prepared
  have hframed : Framed tenUnits (unoccupied tenUnits).partitions := framed_unoccupied (by decide)
  have hinit : initMemory (schemaOf tenUnits) = some (memoryFile tenUnits (unoccupied tenUnits).partitions) :=
    initMemory_schemaOf (by decide)
  obtain ⟨processesOnWaiting, hrun⟩ := runsFrom_of_reachable hinit hreach
  have hopened := hrun.tail (.run (step_of_move hhalted hi (.truncated hpc)))
  have hi' := getElem?_set_self_of_some hi (thread.at (.writing (.admission 0) (.stretching text)))
  obtain ⟨t, hrun', ht⟩ : ∃ t, RunsFrom .firstFit (memoryFile tenUnits (unoccupied tenUnits).partitions)
      processesOnWaiting t ∧ t.threads[0]? = some (thread.at (.writing (.admission 0) (.copying text))) :=
    ⟨_, hopened.tail (.run (step_of_move hhalted hi' (.stretched rfl))), getElem?_set_self_of_some hi' _⟩
  have hmem := List.mem_of_getElem? ht
  have hcall : WriteCall.file (.admission 0) = .memory := rfl
  have hmemory := wellFormed_memoryFile (unoccupied tenUnits) hframed
  obtain ⟨partitions, -, hcopied⟩ := copied_of_run hmemory hrun' hmem hcall rfl
  obtain ⟨rest, hbracket⟩ := copied_bracket partitions
  obtain rfl := hcopied.trans hbracket
  exact ⟨t, _, rest, hmem, rfl, fun n => torn_read_detected hmemory hrun' hmem hcall rfl (torn_part _ n)⟩

end DynamicPartitions.Properties.Tearing
