import DynamicPartitions.Lib.Update
import DynamicPartitions.Program.MappedFile
import DynamicPartitions.Program.Menus

/-!
# The configuration of slog

`parse_config` goes through `slog.cfg` line by line. A line counts for a key when the key
stands anywhere in it, and the value is then read at a fixed distance from the start of
the line, not behind the key. A line that holds no key is passed over in silence.
-/
namespace DynamicPartitions.Slog.Config

open DynamicPartitions.Lib.Update
open DynamicPartitions.Lib.Words
open DynamicPartitions.Parson.Value
open DynamicPartitions.Parson.Parser
open DynamicPartitions.Parson.Serializer
open DynamicPartitions.Parson.Scalars
open DynamicPartitions.Parson.RoundTrip
open DynamicPartitions.Program.MappedFile
open DynamicPartitions.Program.Menus

/-- What an `int` leaves in a `short`. -/
def toShort (n : Int) : Int := n.bmod (2 ^ 16)

/-- `strtol` in base ten, which stops at the ends of a `long`. -/
def strtol (text : CString) : Int :=
  max (-2 ^ 63) (min (2 ^ 63 - 1) ((scanfInt text).1.getD 0))

/-- `atoi`, the cast of `strtol` to `int`. -/
def atoi (text : CString) : Int := (strtol text).bmod (2 ^ 32)

/-- `strstr(line, word) != NULL`. -/
def strstr (line word : CString) : Bool := word <:+: line

structure SlogFlags where
  fname : Option CString
  fileLevel : Int
  level : Int
  toFile : Int
  pretty : Int
  filestamp : Int
  tdSafe : Int
deriving DecidableEq, Repr

/-- The words `parse_config` looks for. -/
inductive Key where
  | logLevel
  | logFileLevel
  | logToFile
  | prettyLog
  | fileStamp
deriving DecidableEq, Repr

def Key.word : Key → CString
  | .logLevel => ['L', 'O', 'G', 'L', 'E', 'V', 'E', 'L']
  | .logFileLevel => ['L', 'O', 'G', 'F', 'I', 'L', 'E', 'L', 'E', 'V', 'E', 'L']
  | .logToFile => ['L', 'O', 'G', 'T', 'O', 'F', 'I', 'L', 'E']
  | .prettyLog => ['P', 'R', 'E', 'T', 'T', 'Y', 'L', 'O', 'G']
  | .fileStamp => ['F', 'I', 'L', 'E', 'S', 'T', 'A', 'M', 'P']

/-- Where the value is read from the line. -/
def Key.offset : Key → Nat
  | .logLevel => 8
  | .logFileLevel => 12
  | .logToFile | .prettyLog | .fileStamp => 9

def SlogFlags.get (slg : SlogFlags) : Key → Int
  | .logLevel => slg.level
  | .logFileLevel => slg.fileLevel
  | .logToFile => slg.toFile
  | .prettyLog => slg.pretty
  | .fileStamp => slg.filestamp

def SlogFlags.set (slg : SlogFlags) (value : Int) : Key → SlogFlags
  | .logLevel => { slg with level := value }
  | .logFileLevel => { slg with fileLevel := value }
  | .logToFile => { slg with toFile := value }
  | .prettyLog => { slg with pretty := value }
  | .fileStamp => { slg with filestamp := value }

/-- The value a line has for a key. -/
def Key.valueIn (key : Key) (line : CString) : Int := toShort (atoi (line.drop key.offset))

/-- The body of the `if` of a key: the flags and `ret`. -/
def assign (state : SlogFlags × Bool) (line : CString) (key : Key) : SlogFlags × Bool :=
  (state.1.set (key.valueIn line) key, true)

/-- One turn of the loop of `parse_config`. The first `if` stands alone; the others are
one chain. -/
def parseLine (state : SlogFlags × Bool) (line : CString) : SlogFlags × Bool :=
  let state := if strstr line Key.logLevel.word then assign state line .logLevel else state
  if strstr line Key.logFileLevel.word then assign state line .logFileLevel
  else if strstr line Key.logToFile.word then assign state line .logToFile
  else if strstr line Key.prettyLog.word then assign state line .prettyLog
  else if strstr line Key.fileStamp.word then assign state line .fileStamp
  else state

/-- `getline` to the end of the file, each line as the C string it is used as. -/
def getlines (file : Content) : List CString := (lines (· = '\n') file).map cString

/-- `parse_config`, for the content of the file or `none` when it does not open. -/
def parseConfig (slg : SlogFlags) : Option Content → SlogFlags × Bool
  | none => (slg, false)
  | some file => (getlines file).foldl parseLine (slg, false)

/-! ## Which line decides a flag -/

/-- The keys whose branches come before the one of the key in its chain. -/
def Key.earlier : Key → List Key
  | .logLevel | .logFileLevel => []
  | .logToFile => [.logFileLevel]
  | .prettyLog => [.logFileLevel, .logToFile]
  | .fileStamp => [.logFileLevel, .logToFile, .prettyLog]

/-- The branch of the key is taken on the line. -/
def Key.takenOn (key : Key) (line : CString) : Bool :=
  strstr line key.word && key.earlier.all fun other => ! strstr line other.word

theorem get_set_self (slg : SlogFlags) (value : Int) (key : Key) : (slg.set value key).get key = value := by
  cases key <;> rfl

theorem get_set_of_ne (slg : SlogFlags) (value : Int) {key other : Key} (h : other ≠ key) :
    (slg.set value key).get other = slg.get other := by
  cases key <;> cases other <;> first | rfl | exact absurd rfl h

theorem get_assign (state : SlogFlags × Bool) (line : CString) (key other : Key) :
    (assign state line key).1.get other =
      if other = key then other.valueIn line else state.1.get other := by
  split
  next heq => rw [heq]; exact get_set_self _ _ _
  next hne => exact get_set_of_ne _ _ hne

theorem get_parseLine (key : Key) (state : SlogFlags × Bool) (line : CString) :
    (parseLine state line).1.get key =
      if key.takenOn line then key.valueIn line else state.1.get key := by
  have hfirst : ∀ b : Bool, (if b then assign state line .logLevel else state).1.get key =
      if b = true ∧ key = .logLevel then key.valueIn line else state.1.get key := by
    intro b
    cases b <;> simp [get_assign]
  simp only [parseLine, Key.takenOn]
  split
  next h => cases key <;> simp [get_assign, hfirst, Key.earlier, h]
  next hfile =>
    split
    next h => cases key <;> simp [get_assign, hfirst, Key.earlier, h, hfile]
    next hto =>
      split
      next h => cases key <;> simp [get_assign, hfirst, Key.earlier, h, hfile, hto]
      next hpretty =>
        split
        next h => cases key <;> simp [get_assign, hfirst, Key.earlier, h, hfile, hto, hpretty]
        next h => cases key <;> simp [hfirst, Key.earlier, h, hfile, hto, hpretty]

theorem others_parseLine (state : SlogFlags × Bool) (line : CString) :
    (parseLine state line).1.fname = state.1.fname ∧
    (parseLine state line).1.tdSafe = state.1.tdSafe := by
  have hassign : ∀ (state : SlogFlags × Bool) key, (assign state line key).1.fname = state.1.fname ∧
      (assign state line key).1.tdSafe = state.1.tdSafe := fun _ key => by
    cases key <;> exact ⟨rfl, rfl⟩
  unfold parseLine
  split_ifs <;> simp [hassign]

theorem ret_parseLine (state : SlogFlags × Bool) (line : CString) :
    (parseLine state line).2 = true ↔ state.2 = true ∨ ∃ key : Key, strstr line key.word = true := by
  have hassign : ∀ state key, (assign state line key).2 = true := fun _ _ => rfl
  unfold parseLine
  by_cases h : ∃ key : Key, strstr line key.word = true
  · refine iff_of_true ?_ (.inr h)
    obtain ⟨key, hkey⟩ := h
    split_ifs <;> first | exact hassign _ _ | (cases key <;> simp_all)
  · have hnone : ∀ key : Key, strstr line key.word = false := fun key =>
      Bool.eq_false_iff.mpr fun hkey => h ⟨key, hkey⟩
    simp [hnone]

/-! ## Settings written into a file -/

/-- A line of a configuration file: a setting with what stands behind its value, or a line
without a key. -/
inductive ConfigLine where
  | setting (key : Key) (value : Int) (behind : CString)
  | remark (text : CString)

def ConfigLine.text : ConfigLine → CString
  | .setting key value behind => key.word ++ ' ' :: (decimal value ++ behind)
  | .remark text => text

/-- Text in which `parse_config` finds nothing. -/
def Keyless (text : CString) : Prop :=
  '\n' ∉ text ∧ nul ∉ text ∧ ∀ key : Key, ¬ key.word <:+: text

/-- Behind a value stands no further digit. -/
def ConfigLine.Valid : ConfigLine → Prop
  | .setting _ value behind =>
    toShort value = value ∧ Keyless behind ∧ ∀ c ∈ behind.head?, c.isDigit = false
  | .remark text => Keyless text

/-- The file made of the lines. -/
def configText (configLines : List ConfigLine) : Content :=
  configLines.flatMap fun line => line.text ++ ['\n']

def ConfigLine.isSetting : ConfigLine → Bool
  | .setting _ _ _ => true
  | .remark _ => false

def ConfigLine.valueOf (key : Key) : ConfigLine → Option Int
  | .setting other value _ => if other = key then some value else none
  | .remark _ => none

theorem scanfInt_decimal (value : Int) {rest : CString} (h : ∀ c ∈ rest.head?, c.isDigit = false) :
    (scanfInt (' ' :: (decimal value ++ rest))).1 = some value := by
  have hskip : skipWhitespaces (' ' :: (decimal value ++ rest)) = decimal value ++ rest := by
    obtain ⟨c, cs, hdecimal, hc⟩ := decimal_head value
    have hspace : isspace c = false := by
      rcases hc with rfl | hdigit
      · rfl
      · exact isspace_of_isDigit hdigit
    rw [hdecimal]
    exact skipWhitespaces_cons _ hspace
  obtain ⟨htake, -⟩ := takeWhile_toDigits value.natAbs h
  have hne : Nat.toDigits 10 value.natAbs ≠ [] := Nat.toDigits_ne_nil
  have hconvert : ∀ negative, (convert negative (Nat.toDigits 10 value.natAbs ++ rest)).1 =
      some (if negative then -(value.natAbs : Int) else value.natAbs) := by
    intro negative
    simp only [convert, htake, if_neg hne, Nat.ofDigitChars_ten_toDigits]
  rw [scanfInt, hskip]
  unfold decimal
  by_cases hneg : value < 0
  · simp only [if_pos hneg, List.cons_append, hconvert, if_true]
    congr 1
    omega
  · obtain ⟨d, ds, hds⟩ := List.exists_cons_of_ne_nil hne
    have hd : d.isDigit = true := isDigit_of_mem_toDigits (hds ▸ List.mem_cons_self)
    have hfalse := hconvert false
    rw [if_neg hneg]
    rw [hds, List.cons_append] at hfalse ⊢
    split
    next heq => exact absurd (List.cons.inj heq).1 (digit_ne hd rfl)
    next heq => exact absurd (List.cons.inj heq).1 (digit_ne hd rfl)
    next =>
      rw [hfalse, if_neg Bool.false_ne_true]
      congr 1
      omega

theorem atoi_decimal {value : Int} (hshort : toShort value = value) {rest : CString}
    (h : ∀ c ∈ rest.head?, c.isDigit = false) : atoi (' ' :: (decimal value ++ rest)) = value := by
  have hbounds : -32768 ≤ value ∧ value < 32768 := by
    have hle := Int.le_bmod (x := value) (m := 2 ^ 16) (by decide)
    have hlt := Int.bmod_lt (x := value) (m := 2 ^ 16) (by decide)
    unfold toShort at hshort
    omega
  unfold atoi strtol
  rw [scanfInt_decimal value h, Option.getD_some, min_eq_right (by omega), max_eq_right (by omega)]
  exact Int.bmod_eq_of_le_mul_two (by omega) (by omega)

theorem word_ne_nil (key : Key) : key.word ≠ [] := by cases key <;> decide

theorem word_infix_word {key other : Key} : other.word <:+: key.word ↔ other = key := by
  cases key <;> cases other <;> decide

theorem isUpper_of_mem_word {key : Key} {c : Char} (h : c ∈ key.word) : c.isUpper = true := by
  have hall : key.word.all Char.isUpper = true := by cases key <;> rfl
  exact List.all_eq_true.mp hall c h

theorem not_mem_word {key : Key} {c : Char} (h : c.isUpper = false) : c ∉ key.word := by
  intro hc
  rw [isUpper_of_mem_word hc] at h
  cases h

theorem isUpper_of_isDigit {c : Char} (h : c.isDigit = true) : c.isUpper = false := by
  rw [Bool.eq_false_iff]
  intro hupper
  simp only [Char.isDigit, Char.isUpper, Bool.and_eq_true, decide_eq_true_eq] at h hupper
  have hle : c.toNat ≤ 57 := h.2
  have hge : 65 ≤ c.toNat := hupper.1
  omega

theorem mem_decimal {value : Int} {c : Char} (h : c ∈ decimal value) : c = '-' ∨ c.isDigit = true := by
  unfold decimal at h
  split at h
  · exact (List.mem_cons.mp h).imp id isDigit_of_mem_toDigits
  · exact .inr (isDigit_of_mem_toDigits h)

theorem not_mem_word_of_mem_decimal {key : Key} {value : Int} {c : Char} (h : c ∈ decimal value) :
    c ∉ key.word := by
  rcases mem_decimal h with rfl | hdigit
  · exact not_mem_word rfl
  · exact not_mem_word (isUpper_of_isDigit hdigit)

theorem not_word_infix_value (key : Key) (value : Int) {behind : CString} (hkeyless : Keyless behind) :
    ¬ key.word <:+: decimal value ++ behind := by
  intro h
  exact hkeyless.2.2 key
    (infix_of_infix_append (word_ne_nil key) (fun _ => not_mem_word_of_mem_decimal) h)

/-- A keyword stands only in the settings of its key. -/
theorem strstr_text {line : ConfigLine} (h : line.Valid) (key : Key) :
    strstr (line.text ++ ['\n']) key.word = true ↔ ∃ value behind, line = .setting key value behind := by
  unfold strstr
  rw [decide_eq_true_iff, isInfix_append_cons_iff (not_mem_word rfl), List.infix_nil]
  cases line with
  | remark text => simpa [word_ne_nil, ConfigLine.text] using h.2.2 key
  | setting other value behind =>
    obtain ⟨-, hkeyless, -⟩ := h
    rw [ConfigLine.text, isInfix_append_cons_iff (not_mem_word rfl), word_infix_word]
    have hvalue := not_word_infix_value key value hkeyless
    constructor
    · rintro ((rfl | hinfix) | hnil)
      · exact ⟨value, behind, rfl⟩
      · exact absurd hinfix hvalue
      · exact absurd hnil (word_ne_nil key)
    · rintro ⟨_, _, heq⟩
      exact .inl (.inl (ConfigLine.setting.inj heq).1.symm)

theorem hasKey_iff {line : ConfigLine} (h : line.Valid) :
    (∃ key : Key, strstr (line.text ++ ['\n']) key.word = true) ↔ line.isSetting = true := by
  rw [exists_congr (strstr_text h)]
  cases line with
  | remark text => simp [ConfigLine.isSetting]
  | setting key value behind => exact iff_of_true ⟨key, value, behind, rfl⟩ rfl

theorem takenOn_text {line : ConfigLine} (h : line.Valid) (key : Key) :
    key.takenOn (line.text ++ ['\n']) = true ↔ ∃ value behind, line = .setting key value behind := by
  unfold Key.takenOn
  rw [Bool.and_eq_true, strstr_text h key]
  refine and_iff_left_of_imp ?_
  rintro ⟨value, behind, rfl⟩
  rw [List.all_eq_true]
  intro other hother
  rw [Bool.not_eq_true', Bool.eq_false_iff, ne_eq, strstr_text h other]
  rintro ⟨_, _, heq⟩
  obtain rfl : key = other := (ConfigLine.setting.inj heq).1
  revert hother
  cases key <;> decide

theorem valueIn_setting {key : Key} {value : Int} {behind : CString}
    (h : (ConfigLine.setting key value behind).Valid) :
    key.valueIn ((ConfigLine.setting key value behind).text ++ ['\n']) = value := by
  obtain ⟨hshort, -, hhead⟩ := h
  have hdrop : ((ConfigLine.setting key value behind).text ++ ['\n']).drop key.offset =
      ' ' :: (decimal value ++ (behind ++ ['\n'])) := by
    have hoffset : key.offset = key.word.length := by cases key <;> rfl
    rw [hoffset, ConfigLine.text, List.append_assoc, List.drop_left]
    simp
  have hdigit : ∀ c ∈ (behind ++ ['\n']).head?, c.isDigit = false := by
    intro c hc
    cases behind with
    | nil =>
      obtain rfl : '\n' = c := by simpa using hc
      rfl
    | cons d behind =>
      obtain rfl : d = c := by simpa using hc
      exact hhead d (by simp)
  rw [Key.valueIn, hdrop, atoi_decimal hshort hdigit, hshort]

theorem not_mem_text {line : ConfigLine} (h : line.Valid) {c : Char} (hc : c = '\n' ∨ c = nul) :
    c ∉ line.text := by
  have hkeyless : ∀ {text}, Keyless text → c ∉ text := fun htext => by
    rcases hc with rfl | rfl
    · exact htext.1
    · exact htext.2.1
  have hplain : c.isUpper = false ∧ c.isDigit = false ∧ c ≠ '-' ∧ c ≠ ' ' := by
    rcases hc with rfl | rfl <;> decide
  cases line with
  | remark text => exact hkeyless h
  | setting key value behind =>
    obtain ⟨hupper, hdigit, hminus, hspace⟩ := hplain
    have hvalue : c ∉ decimal value := fun hmem => by
      rcases mem_decimal hmem with rfl | htrue
      · exact hminus rfl
      · rw [hdigit] at htrue
        cases htrue
    simp [ConfigLine.text, not_mem_word hupper, hspace, hvalue, hkeyless h.2.1]

theorem getlines_configText {configLines : List ConfigLine} (h : ∀ line ∈ configLines, line.Valid) :
    getlines (configText configLines) = configLines.map fun line => line.text ++ ['\n'] := by
  have hlines : lines (· = '\n') (configText configLines ++ []) =
      configLines.map (fun line => line.text ++ ['\n']) ++ lines (· = '\n') [] :=
    lines_flatMap ConfigLine.text (by decide) [] fun line hline c hc => decide_eq_false fun heq =>
      not_mem_text (h line hline) (.inl heq) hc
  have hstring : ∀ line ∈ configLines, cString (line.text ++ ['\n']) = line.text ++ ['\n'] := by
    intro line hline
    refine List.takeWhile_eq_self_iff.mpr fun c hc => decide_eq_true ?_
    rintro rfl
    rcases List.mem_append.mp hc with htext | hlast
    · exact not_mem_text (h line hline) (.inr rfl) htext
    · revert hlast
      decide
  rw [List.append_nil] at hlines
  rw [getlines, hlines, lines, List.append_nil, List.map_map]
  exact List.map_congr_left hstring

theorem get_parseLine_text {line : ConfigLine} (h : line.Valid) (key : Key) (state : SlogFlags × Bool) :
    (parseLine state (line.text ++ ['\n'])).1.get key = (line.valueOf key).getD (state.1.get key) := by
  rw [get_parseLine]
  by_cases htaken : key.takenOn (line.text ++ ['\n']) = true
  · obtain ⟨value, behind, rfl⟩ := (takenOn_text h key).mp htaken
    rw [if_pos htaken, valueIn_setting h, ConfigLine.valueOf, if_pos rfl, Option.getD_some]
  · rw [if_neg htaken]
    cases line with
    | remark text => rfl
    | setting other value behind =>
      have hne : other ≠ key := fun heq => htaken ((takenOn_text h key).mpr ⟨value, behind, by rw [heq]⟩)
      rw [ConfigLine.valueOf, if_neg hne, Option.getD_none]

/-- A configuration file is read as it was written: each flag is the value of the last
setting of its key, and lines without a key change nothing. -/
theorem parseConfig_configText (slg : SlogFlags) {configLines : List ConfigLine}
    (h : ∀ line ∈ configLines, line.Valid) :
    (∀ key : Key, (parseConfig slg (some (configText configLines))).1.get key =
      (configLines.filterMap (·.valueOf key)).getLast?.getD (slg.get key)) ∧
    (parseConfig slg (some (configText configLines))).2 = configLines.any (·.isSetting) := by
  have hfile : parseConfig slg (some (configText configLines)) =
      configLines.foldl (fun state line => parseLine state (line.text ++ ['\n'])) (slg, false) := by
    rw [parseConfig, getlines_configText h, List.foldl_map]
  rw [hfile]
  constructor
  · intro key
    exact get_foldl_assign (fun state : SlogFlags × Bool => state.1.get key) (·.valueOf key)
      (fun line hline state => get_parseLine_text (h line hline) key state) (slg, false)
  · have hret := foldl_raise_iff (P := fun state : SlogFlags × Bool => state.2 = true)
      (fun line hline state => (ret_parseLine state (ConfigLine.text line ++ ['\n'])).trans
        (or_congr_right (hasKey_iff (h line hline)))) (slg, false)
    rw [Bool.eq_iff_iff, hret, List.any_eq_true]
    exact or_iff_right Bool.false_ne_true

/-- The other fields of the flags are left alone, whatever the file holds. -/
theorem parseConfig_others (slg : SlogFlags) (file : Option Content) :
    (parseConfig slg file).1.fname = slg.fname ∧ (parseConfig slg file).1.tdSafe = slg.tdSafe := by
  cases file with
  | none => exact ⟨rfl, rfl⟩
  | some file =>
    have hname := get_foldl_assign (fun state : SlogFlags × Bool => state.1.fname) (fun _ => none)
      (l := getlines file) (fun line _ state => (others_parseLine state line).1) (slg, false)
    have hsafe := get_foldl_assign (fun state : SlogFlags × Bool => state.1.tdSafe) (fun _ => none)
      (l := getlines file) (fun line _ state => (others_parseLine state line).2) (slg, false)
    rw [List.filterMap_none] at hname hsafe
    exact ⟨hname, hsafe⟩

end DynamicPartitions.Slog.Config
