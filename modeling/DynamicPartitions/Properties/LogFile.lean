import DynamicPartitions.Properties.Journal

/-!
# What the log file tells

With the flags of the programs each call adds one line to the file of its day. The lines of
that file, read back, are the calls of that day in their order, and the text of a line
determines the thread id, the kind of the line and its two numbers.
-/
namespace DynamicPartitions.Properties.LogFile

open DynamicPartitions.Lib.Words
open DynamicPartitions.Parson.Value
open DynamicPartitions.Parson.Serializer
open DynamicPartitions.Parson.Scalars
open DynamicPartitions.Program.Algorithms
open DynamicPartitions.Program.WorkerThread
open DynamicPartitions.Program.Threads hiding Step Reachable Starts
open DynamicPartitions.Program.Calls
open DynamicPartitions.Program.Observation
open DynamicPartitions.Program.Logging
open DynamicPartitions.Refinement.Memory
open DynamicPartitions.Properties.Conservation
open DynamicPartitions.Properties.Journal
open DynamicPartitions.Slog.Config
open DynamicPartitions.Slog.Record

/-! ## One line, and no more, for each call -/

/-- An entry of the journal without its end of line. -/
def entryText (entry : Worker × Outcome × SlogDate) : CString :=
  slogGet entry.2.2 (ownMessage entry.1 entry.2.1)

/-- The entries of a journal that go to a file. -/
def entriesFor (slg : SlogFlags) (filename : CString) (journal : List (Worker × Outcome × SlogDate)) :
    List (Worker × Outcome × SlogDate) :=
  journal.filter fun entry => logName slg entry.2.2 = filename

theorem files_enter {slg : SlogFlags} {opens : CString → Bool} {filename : CString} (hsaves : Saves slg)
    (hopens : opens filename = true) (out : Output) (entry : Worker × Outcome × SlogDate) :
    (enter slg opens out entry).files filename =
      if logName slg entry.2.2 = filename then out.files filename ++ (entryText entry ++ ['\n'])
      else out.files filename := by
  obtain ⟨worker, outcome, date⟩ := entry
  have hshown : (shown slg date (ownMessage worker outcome) out).files = out.files := by
    unfold shown
    split <;> rfl
  rw [enter_eq, if_pos hsaves]
  unfold slogToFile
  by_cases hname : logName slg date = filename
  · subst hname
    simp [hopens, hshown, entryText, slogGet]
  · have hother : filename ≠ logName slg date := fun heq => hname heq.symm
    rw [if_neg hname]
    dsimp only
    split
    · exact (Function.update_of_ne hother _ _).trans (congrFun hshown filename)
    · exact congrFun hshown filename

theorem files_enterAll {slg : SlogFlags} {opens : CString → Bool} {filename : CString}
    (hsaves : Saves slg) (hopens : opens filename = true)
    (journal : List (Worker × Outcome × SlogDate)) : ∀ out : Output,
      (enterAll slg opens out journal).files filename = out.files filename ++
        (entriesFor slg filename journal).flatMap fun entry => entryText entry ++ ['\n'] := by
  induction journal with
  | nil =>
    intro out
    exact (List.append_nil _).symm
  | cons entry journal ih =>
    intro out
    have hrest := ih (enter slg opens out entry)
    rw [files_enter hsaves hopens] at hrest
    rw [enterAll, List.foldl_cons, ← enterAll, hrest]
    unfold entriesFor
    by_cases hname : logName slg entry.2.2 = filename
    · rw [if_pos hname, List.filter_cons_of_pos (by simpa using hname), List.flatMap_cons,
        List.append_assoc]
    · rw [if_neg hname, List.filter_cons_of_neg (by simpa using hname)]

/-! ## The characters of a line -/

theorem not_mem_decimal {n : Int} {c : Char} (hminus : c ≠ '-') (hdigit : c.isDigit = false) :
    c ∉ decimal n := by
  intro h
  rcases mem_decimal h with rfl | htrue
  · exact hminus rfl
  · rw [hdigit] at htrue
    cases htrue

theorem not_mem_twoDigits {n : Int} {c : Char} (hminus : c ≠ '-') (hdigit : c.isDigit = false) :
    c ∉ twoDigits n := by
  have hzero : c ≠ '0' := by
    rintro rfl
    cases hdigit
  unfold twoDigits
  split
  · simp [hzero, not_mem_decimal hminus hdigit]
  · exact not_mem_decimal hminus hdigit

theorem not_mem_stamp (date : SlogDate) {c : Char} (h : c = '\n' ∨ c = '[') : c ∉ stamp date := by
  rcases h with rfl | rfl <;> simp [stamp, not_mem_twoDigits]

theorem newline_not_mem_details (worker : Worker) (outcome : Outcome) :
    '\n' ∉ details worker outcome := by
  have hnumber : ∀ n : Int, '\n' ∉ decimal n := fun _ => not_mem_decimal (by decide) rfl
  have hpair : ∀ {first second : CString} (a b : Int), '\n' ∉ first → '\n' ∉ second →
      '\n' ∉ first ++ decimal a ++ second ++ decimal b := fun a b hfirst hsecond =>
    List.not_mem_append (List.not_mem_append (List.not_mem_append hfirst (hnumber a)) hsecond) (hnumber b)
  cases outcome with
  | rejected =>
    show '\n' ∉ " No entr".toList ++ _ :: _ :: " a memoria.".toList
    decide
  | admitted memIndex => exact hpair worker.processSize worker.processDelay (by decide) (by decide)
  | returned memIndex => exact hpair worker.processSize memIndex (by decide) (by decide)

theorem newline_not_mem_entryText (entry : Worker × Outcome × SlogDate) : '\n' ∉ entryText entry := by
  obtain ⟨worker, outcome, date⟩ := entry
  have htag : '\n' ∉ strclr (tagOf outcome).1 (tagOf outcome).2 := by
    cases outcome with
    | rejected =>
      show '\n' ∉ strclr clrYellow "WARN".toList
      decide
    | admitted memIndex =>
      show '\n' ∉ strclr clrGreen "ASIG".toList
      decide
    | returned memIndex =>
      show '\n' ∉ strclr clrBlue "DEVO".toList
      decide
  have hdecimal : '\n' ∉ worker.strProcessId := not_mem_decimal (by decide) rfl
  simp [entryText, slogGet, ownMessage, message, not_mem_stamp, htag, hdecimal,
    newline_not_mem_details]

/-! ## The text determines the line -/

theorem decimal_append_inj {m n : Int} {rest rest' : CString} (hrest : ∀ c ∈ rest.head?, c.isDigit = false)
    (hrest' : ∀ c ∈ rest'.head?, c.isDigit = false) (h : decimal m ++ rest = decimal n ++ rest') :
    m = n ∧ rest = rest' := by
  have hm := scanfInt_decimal m hrest
  have hn := scanfInt_decimal n hrest'
  rw [h, hn] at hm
  obtain rfl := Option.some.inj hm
  exact ⟨rfl, List.append_cancel_left h⟩

theorem pair_inj {first second : CString} {a b a' b' : Int}
    (h : first ++ decimal a ++ ' ' :: second ++ decimal b =
      first ++ decimal a' ++ ' ' :: second ++ decimal b') : a = a' ∧ b = b' := by
  have hspace : ∀ rest : CString, ∀ c ∈ (' ' :: rest).head?, c.isDigit = false := by
    intro rest c hc
    obtain rfl : ' ' = c := by simpa using hc
    rfl
  simp only [List.append_assoc, List.cons_append] at h
  obtain ⟨rfl, htail⟩ := decimal_append_inj (hspace _) (hspace _) (List.append_cancel_left h)
  have hlast : second ++ decimal b = second ++ decimal b' := (List.cons.inj htail).2
  exact ⟨rfl, decimal_injective (List.append_cancel_left hlast)⟩

/-- The digit of the color that tells the three kinds of line apart. -/
def colorDigit : Outcome → Char
  | .rejected => '3'
  | .admitted _ => '2'
  | .returned _ => '4'

theorem getElem_ownMessage (worker : Worker) (outcome : Outcome) :
    (ownMessage worker outcome)[4]? = some (colorDigit outcome) := by
  cases outcome <;> rfl

theorem head_details (worker : Worker) (outcome : Outcome) :
    ∀ c ∈ (details worker outcome).head?, c.isDigit = false := by
  have hspace : (details worker outcome).head? = some ' ' := by cases outcome <;> rfl
  intro c hc
  rw [hspace] at hc
  obtain rfl := Option.some.inj hc
  rfl

theorem slogLine_of_ownMessage {worker other : Worker} {outcome outcome' : Outcome}
    (h : ownMessage worker outcome = ownMessage other outcome') :
    slogLine worker outcome = slogLine other outcome' := by
  have hcolor : some (colorDigit outcome) = some (colorDigit outcome') := by
    rw [← getElem_ownMessage worker, h, getElem_ownMessage]
  have hbody : tagOf outcome = tagOf outcome' →
      worker.processId = other.processId ∧ details worker outcome = details other outcome' := by
    intro htag
    let front : CString := '[' :: strclr (tagOf outcome').1 (tagOf outcome').2 ++ [']', ' ']
    have hfront : front ++ (decimal worker.processId ++ details worker outcome) =
        front ++ (decimal other.processId ++ details other outcome') := by
      rw [ownMessage, ownMessage, htag] at h
      rw [← List.append_assoc, ← List.append_assoc]
      exact h
    obtain ⟨hid, hdetails⟩ := decimal_append_inj (head_details worker outcome) (head_details other outcome')
      (List.append_cancel_left hfront)
    exact ⟨Int.ofNat.inj hid, hdetails⟩
  cases outcome with
  | rejected =>
    cases outcome' with
    | rejected =>
      obtain ⟨hid, -⟩ := hbody rfl
      rw [slogLine, slogLine, hid]
    | _ => exact absurd hcolor (by simp [colorDigit])
  | admitted k =>
    cases outcome' with
    | admitted k' =>
      obtain ⟨hid, hdetails⟩ := hbody rfl
      obtain ⟨hsize, hdelay⟩ := pair_inj hdetails
      rw [slogLine, slogLine, hid, hsize, hdelay]
    | _ => exact absurd hcolor (by simp [colorDigit])
  | returned k =>
    cases outcome' with
    | returned k' =>
      obtain ⟨hid, hdetails⟩ := hbody rfl
      obtain ⟨hsize, hindex⟩ := pair_inj hdetails
      rw [slogLine, slogLine, hid, hsize, Int.ofNat.inj hindex]
    | _ => exact absurd hcolor (by simp [colorDigit])

/-- The line of an entry of the journal. -/
def lineOf (entry : Worker × Outcome × SlogDate) : LogLine := slogLine entry.1 entry.2.1

theorem lineOf_of_entryText {entry other : Worker × Outcome × SlogDate}
    (h : entryText entry = entryText other) : lineOf entry = lineOf other := by
  have hmark : ∀ entry : Worker × Outcome × SlogDate, (entryText entry).dropWhile (· ≠ '[') =
      ownMessage entry.1 entry.2.1 := by
    intro entry
    have hstamp : ∀ c ∈ stamp entry.2.2, decide (c ≠ '[') = true := fun c hc => decide_eq_true fun heq =>
      not_mem_stamp entry.2.2 (.inr heq) hc
    rw [entryText, slogGet, List.dropWhile_append_of_pos hstamp]
    rfl
  apply slogLine_of_ownMessage
  rw [← hmark entry, ← hmark other, h]

/-- Lists of entries that look alike have the same lines. -/
theorem map_lineOf_of_text : ∀ {entries others : List (Worker × Outcome × SlogDate)},
    entries.map (fun entry => entryText entry ++ ['\n']) =
      others.map (fun entry => entryText entry ++ ['\n']) → entries.map lineOf = others.map lineOf := by
  intro entries
  induction entries with
  | nil =>
    intro others h
    cases others with
    | nil => rfl
    | cons => cases h
  | cons entry entries ih =>
    intro others h
    cases others with
    | nil => cases h
    | cons other others =>
      obtain ⟨hhead, htail⟩ := List.cons.inj h
      rw [List.map_cons, List.map_cons, ih htail,
        lineOf_of_entryText (List.append_cancel_right hhead)]

/-- The log file of a day: read line by line while no call is under way it is what stood
there before and then one line for each call of that day, in order; and a run that leaves
the same text there has logged the same thread ids, kinds and numbers in the same order. -/
theorem logFile_faithful {slg : SlogFlags} {opens : CString → Bool} {filename : CString}
    (hsaves : Saves slg) (hopens : opens filename = true) {output : Output}
    (hcomplete : ∀ c ∈ (output.files filename).getLast?, c = '\n') {algorithm : Algorithm}
    {schema : CString} {s : Process} (h : Reachable slg opens algorithm schema output s)
    (hnone : NoneLogs s.producer) :
    lines (· = '\n') (s.logger.output.files filename) =
      lines (· = '\n') (output.files filename) ++
        (entriesFor slg filename s.journal).map (fun entry => entryText entry ++ ['\n']) ∧
    ∀ (algorithm' : Algorithm) (schema' : CString) (t : Process),
      Reachable slg opens algorithm' schema' output t → NoneLogs t.producer →
      t.logger.output.files filename = s.logger.output.files filename →
      (entriesFor slg filename t.journal).map lineOf = (entriesFor slg filename s.journal).map lineOf := by
  have hread : ∀ {algorithm schema t}, Reachable slg opens algorithm schema output t →
      NoneLogs t.producer → lines (· = '\n') (t.logger.output.files filename) =
        lines (· = '\n') (output.files filename) ++
          (entriesFor slg filename t.journal).map (fun entry => entryText entry ++ ['\n']) := by
    intro algorithm schema t ht hquiet
    have hnew : lines (· = '\n') ((entriesFor slg filename t.journal).flatMap
        (fun entry => entryText entry ++ ['\n']) ++ []) =
        (entriesFor slg filename t.journal).map (fun entry => entryText entry ++ ['\n']) ++ [] :=
      lines_flatMap entryText (by decide) [] fun entry _ c hc => decide_eq_false fun heq =>
        newline_not_mem_entryText entry (heq ▸ hc)
    have hold : ∀ c ∈ (output.files filename).getLast?, decide (c = '\n') = true := fun c hc =>
      decide_eq_true (hcomplete c hc)
    rw [(kept_of_reachable ht).idle hquiet, files_enterAll hsaves hopens, lines_complete_append hold]
    rw [List.append_nil, List.append_nil] at hnew
    rw [hnew]
  refine ⟨hread h hnone, fun algorithm' schema' t ht hquiet heq => ?_⟩
  have hlines := hread ht hquiet
  rw [heq, hread h hnone] at hlines
  exact (map_lineOf_of_text (List.append_cancel_left hlines)).symm

/-- A worker has been admitted: its ASIG line stands below the line of an earlier day. -/
theorem logFile_faithful_asleep : ∃ (s : Process) (filename : CString)
    (entry : Worker × Outcome × SlogDate), entry ∈ entriesFor producerFlags filename s.journal ∧
    lineOf entry = .asig entry.1.processId 1 entry.1.processDelay ∧
    lines (· = '\n') (s.logger.output.files filename) = ["LIVE\n".toList] ++
      (entriesFor producerFlags filename s.journal).map (fun entry => entryText entry ++ ['\n']) := by
  obtain ⟨p, hasleep⟩ := asleep_of_le 1 (by decide)
  obtain ⟨thread, hthread⟩ := List.length_eq_one_iff.mp hasleep.count
  have hmem : thread ∈ p.threads := by simp [hthread]
  obtain ⟨s, hs, rfl, -⟩ : ∃ s, Reachable producerFlags (fun _ => true) .firstFit (schemaOf wide)
      ⟨[], fun _ => "LIVE\n".toList⟩ s ∧ s.producer = p ∧ _ :=
    reachable_of_producer _ (reachable_of_when hasleep.reachable)
  have hnone := noneLogs_of_between (between_of_asleep hasleep)
  have hlogged := logged_of_asleep hasleep hmem
  rw [(kept_of_reachable hs).recorded] at hlogged
  obtain ⟨entry, hentry, hline⟩ := List.mem_map.mp hlogged
  obtain ⟨hworker, hline⟩ := Prod.mk.inj hline
  have hsaves : Saves producerFlags := ⟨by decide, by decide⟩
  refine ⟨s, logName producerFlags entry.2.2, entry, ?_, ?_, ?_⟩
  · exact List.mem_filter.mpr ⟨hentry, by simp⟩
  · rw [lineOf, hline, hworker]
  · exact (logFile_faithful hsaves rfl (by simp) hs hnone).1

end DynamicPartitions.Properties.LogFile
