import DynamicPartitions.Program.WorkerThread

/-!
# Updates whose system calls fail

The four functions that rewrite a file, with every call that may fail. The file is
opened with truncation before anything else is known to work, and each later failure
leaves it as it then is.
-/
namespace DynamicPartitions.Program.FileUpdate

open DynamicPartitions.Parson.Value
open DynamicPartitions.Parson.Parser
open DynamicPartitions.Parson.Serializer
open DynamicPartitions.Program.MappedFile

/-- The calls whose failure ends the process. A failing `msync` is only reported. -/
inductive SysCall where
  | openFile
  | lseek
  | write
  | mmap
  | munmap
deriving DecidableEq, Repr

inductive Ending where
  | returned
  | exitFailure
deriving DecidableEq, Repr

/-- The body the four functions share: what the file holds afterwards, if it exists, and
how the function ends. -/
def update (fails : SysCall → Bool) (previous : Option Content) (serializedString : Option CString) :
    Option Content × Ending :=
  if fails .openFile then (previous, .exitFailure)
  -- O_CREAT and O_TRUNC: from here on the previous content is gone
  else match serializedString with
    | none => (some [], .exitFailure)
    | some text =>
      if fails .lseek then (some [], .exitFailure)
      else if fails .write then (some [], .exitFailure)
      else if fails .mmap then (some (stretch [] text), .exitFailure)
      else if fails .munmap then (some (strcpy (stretch [] text) text), .exitFailure)
      else (some (strcpy (stretch [] text) text), .returned)

/-- `write_memory`. -/
def writeMemory (fails : SysCall → Bool) (previous : Option Content)
    (serializedString : Option CString) : Option Content × Ending :=
  update fails previous serializedString

/-- `write_memory_processes_on_waiting`. -/
def writeMemoryProcessesOnWaiting (fails : SysCall → Bool) (previous : Option Content)
    (serializedString : Option CString) : Option Content × Ending :=
  update fails previous serializedString

/-- What `json_serialize_to_string` makes of the value `json_parse_string` reads. -/
def reserialize (text : CString) : Option CString :=
  jsonSerializeToString (jsonParseString text)

/-- `init_memory`, for the text of `schema.json`, if that can be read. What is `printed`
for a text is left open: a schema may hold numbers that are no integers. -/
def initMemory (printed : CString → Option CString) (fails : SysCall → Bool)
    (previous : Option Content) (schema : Option CString) : Option Content × Ending :=
  update fails previous (schema.bind printed)

/-- `init_memory_processes_on_waiting`. -/
def initMemoryProcessesOnWaiting (fails : SysCall → Bool) (previous : Option Content) :
    Option Content × Ending :=
  update fails previous (reserialize "{}".toList)

/-- A call of one of the four, with its argument. -/
inductive Call where
  | writeMemory (serializedString : Option CString)
  | writeMemoryProcessesOnWaiting (serializedString : Option CString)
  | initMemory (schema : Option CString)
  | initMemoryProcessesOnWaiting
deriving DecidableEq, Repr

def Call.run (printed : CString → Option CString) (fails : SysCall → Bool)
    (previous : Option Content) : Call → Option Content × Ending
  | .writeMemory serializedString => FileUpdate.writeMemory fails previous serializedString
  | .writeMemoryProcessesOnWaiting serializedString =>
    FileUpdate.writeMemoryProcessesOnWaiting fails previous serializedString
  | .initMemory schema => FileUpdate.initMemory printed fails previous schema
  | .initMemoryProcessesOnWaiting => FileUpdate.initMemoryProcessesOnWaiting fails previous

/-- The new text, where there is one. -/
def Call.serializedString (printed : CString → Option CString) : Call → Option CString
  | .writeMemory serializedString | .writeMemoryProcessesOnWaiting serializedString =>
    serializedString
  | .initMemory schema => schema.bind printed
  | .initMemoryProcessesOnWaiting => reserialize "{}".toList

theorem Call.run_eq (printed : CString → Option CString) (fails : SysCall → Bool)
    (previous : Option Content) (call : Call) :
    call.run printed fails previous =
      update fails previous (call.serializedString printed) := by
  cases call <;> rfl

/-! ## Without failures -/

/-- The stages of a write, one after the other. -/
def runWrite : Nat → Content → WriteStage → Content × Progress WriteStage Unit
  | 0, content, stage => (content, .next stage)
  | n + 1, content, stage =>
    match writeStep content stage with
    | (content, .next stage) => runWrite n content stage
    | (content, .done ()) => (content, .done ())
    | (content, .halt reason) => (content, .halt reason)

/-- A whole call of `write_memory` or `write_memory_processes_on_waiting`. -/
def writeWhole (content : Content) (serializedString : Option CString) :
    Content × Progress WriteStage Unit :=
  runWrite 3 content (.opening serializedString)

theorem runWrite_next {content content' : Content} {stage stage' : WriteStage}
    (h : writeStep content stage = (content', .next stage')) (n : Nat) :
    runWrite (n + 1) content stage = runWrite n content' stage' := by
  rw [runWrite, h]

theorem runWrite_done {content content' : Content} {stage : WriteStage}
    (h : writeStep content stage = (content', .done ())) (n : Nat) :
    runWrite (n + 1) content stage = (content', .done ()) := by
  rw [runWrite, h]

theorem writeWhole_some (content : Content) (text : CString) :
    writeWhole content (some text) = (stored text, .done ()) := by
  have hopened : writeStep content (.opening (some text)) = ([], .next (.stretching text)) := rfl
  have hstretched : writeStep [] (.stretching text) = (zeros text, .next (.copying text)) := by
    rw [writeStep, stretch_nil]
  have hcopied : writeStep (zeros text) (.copying text) = (stored text, .done ()) := by
    rw [writeStep, if_neg (Nat.not_lt.mpr (fits_zeros text)), strcpy_zeros]
  exact (runWrite_next hopened 2).trans ((runWrite_next hstretched 1).trans (runWrite_done hcopied 0))

/-- An update in which no call fails is such a write. -/
theorem update_succeeds {fails : SysCall → Bool} (h : ∀ call, fails call = false)
    (previous : Content) (text : CString) :
    update fails (some previous) (some text) =
      (some (writeWhole previous (some text)).1, .returned) := by
  simp [update, h, writeWhole_some, stretch_nil, strcpy_zeros]

/-- Where nothing fails, Initializer leaves the files the other programs start from. -/
theorem initMemory_succeeds {fails : SysCall → Bool} (h : ∀ call, fails call = false)
    (previous : Option Content) {schema : CString} {value : JsonValue}
    (hparse : jsonParseString schema = some value) :
    initMemory reserialize fails previous (some schema) =
      (WorkerThread.initMemory schema, .returned) := by
  rw [WorkerThread.initMemory, WorkerThread.initFile, initMemory, Option.bind_some, reserialize, hparse]
  simp [jsonSerializeToString, update, h, stretch_nil, strcpy_zeros]

theorem initMemoryProcessesOnWaiting_succeeds {fails : SysCall → Bool}
    (h : ∀ call, fails call = false) (previous : Option Content) :
    initMemoryProcessesOnWaiting fails previous =
      (WorkerThread.initMemoryProcessesOnWaiting, .returned) := by
  obtain ⟨text, htext⟩ : ∃ text, jsonSerializeToString (jsonParseString "{}".toList) = some text :=
    ⟨_, rfl⟩
  rw [WorkerThread.initMemoryProcessesOnWaiting, WorkerThread.initFile, initMemoryProcessesOnWaiting,
    reserialize, htext]
  simp [update, h, stretch_nil, strcpy_zeros]

/-! ## What a failure leaves behind -/

/-- What is in the file when a call has ended the process: by the first call that failed,
the previous content, nothing, zero bytes only, or the complete new text. -/
inductive Left (fails : SysCall → Bool) (previous : Option Content) (serializedString : Option CString) :
    Option Content → Prop
  | kept : fails .openFile = true → Left fails previous serializedString previous
  | emptied : fails .openFile = false →
      (serializedString = none ∨ fails .lseek = true ∨ fails .write = true) →
      Left fails previous serializedString (some [])
  | zeroed {text : CString} : fails .openFile = false → fails .lseek = false → fails .write = false →
      fails .mmap = true → serializedString = some text →
      Left fails previous serializedString (some (zeros text))
  | completed {text : CString} : fails .openFile = false → fails .lseek = false →
      fails .write = false → fails .mmap = false → fails .munmap = true →
      serializedString = some text → Left fails previous serializedString (some (stored text))

theorem left_of_exit {fails : SysCall → Bool} {previous : Option Content}
    {serializedString : Option CString}
    (h : (update fails previous serializedString).2 = .exitFailure) :
    Left fails previous serializedString (update fails previous serializedString).1 := by
  unfold update at h ⊢
  cases hopen : fails .openFile with
  | true => exact .kept hopen
  | false =>
    cases serializedString with
    | none => exact .emptied hopen (.inl rfl)
    | some text =>
      cases hlseek : fails .lseek with
      | true => exact .emptied hopen (.inr (.inl hlseek))
      | false =>
        cases hwrite : fails .write with
        | true => exact .emptied hopen (.inr (.inr hwrite))
        | false =>
          cases hmmap : fails .mmap with
          | true =>
            simp only [Bool.false_eq_true, if_false, if_true, stretch_nil]
            exact .zeroed hopen hlseek hwrite hmmap rfl
          | false =>
            cases hmunmap : fails .munmap with
            | true =>
              simp only [Bool.false_eq_true, if_false, if_true, stretch_nil, strcpy_zeros]
              exact .completed hopen hlseek hwrite hmmap hmunmap rfl
            | false => simp [hopen, hlseek, hwrite, hmmap, hmunmap] at h

/-- A call that ends the process leaves the file by the first of its steps that failed,
whatever parsing and serializing make of a schema. -/
theorem failing_call_leaves (printed : CString → Option CString) (call : Call)
    {fails : SysCall → Bool} {previous : Option Content}
    (h : (call.run printed fails previous).2 = .exitFailure) :
    Left fails previous (call.serializedString printed)
      (call.run printed fails previous).1 := by
  rw [call.run_eq] at h ⊢
  exact left_of_exit h

/-- `mmap` fails in `init_memory`, for the schema `[]`. -/
theorem failing_call_leaves_mmap :
    Left (fun call => call = .mmap) (some (stored "{}".toList)) (some "[]".toList)
      (Call.run reserialize (fun call => call = .mmap) (some (stored "{}".toList))
        (.initMemory (some "[]".toList))).1 :=
  failing_call_leaves reserialize (.initMemory (some "[]".toList)) (by decide)

/-- `lseek` fails in `write_memory`: the file is empty, neither old nor new. -/
theorem update_not_atomic :
    ¬ ∀ (call : Call) (fails : SysCall → Bool) (previous : Option Content),
      fails .munmap = false → (call.run reserialize fails previous).2 = .exitFailure →
      (call.run reserialize fails previous).1 = previous ∨
        ∃ text, call.serializedString reserialize = some text ∧
          (call.run reserialize fails previous).1 = some (stored text) := by
  intro hclaim
  have hleft := hclaim (.writeMemory (some "{}".toList)) (fun call => call = .lseek)
    (some (stored "[]".toList)) rfl (by decide)
  have hempty : (Call.run reserialize (fun call => call = .lseek) (some (stored "[]".toList))
      (.writeMemory (some "{}".toList))).1 = some [] := by decide
  rw [hempty] at hleft
  rcases hleft with hold | ⟨text, -, hnew⟩
  · exact absurd hold (by decide)
  · have hlength := congrArg List.length (Option.some.inj hnew)
    exact stored_ne_nil text hlength.symm

end DynamicPartitions.Program.FileUpdate
