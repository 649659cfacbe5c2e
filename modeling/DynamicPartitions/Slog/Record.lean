import DynamicPartitions.Slog.Config

/-!
# What slog writes

A call of `slog` prints one line and appends one line to a file, each only when the level
of the call is within the level of the flags. The file is chosen by the date of the call.
A text that does not fit `MAXMSG` overruns its buffer in the source; no text here is that
long.
-/
namespace DynamicPartitions.Slog.Record

open DynamicPartitions.Parson.Value
open DynamicPartitions.Parson.Serializer
open DynamicPartitions.Program.MappedFile
open DynamicPartitions.Slog.Config

/-! ## Texts -/

structure SlogDate where
  year : Int
  mon : Int
  day : Int
  hour : Int
  min : Int
  sec : Int
  usec : Int
deriving DecidableEq, Repr

/-- `%02d`. -/
def twoDigits (n : Int) : CString := if (decimal n).length < 2 then '0' :: decimal n else decimal n

/-- The seven numbers in front of a line. -/
def stamp (date : SlogDate) : CString :=
  twoDigits date.year ++ '.' :: twoDigits date.mon ++ '.' :: twoDigits date.day ++
    '-' :: twoDigits date.hour ++ ':' :: twoDigits date.min ++ ':' :: twoDigits date.sec ++
    '.' :: twoDigits date.usec ++ [' ', '-', ' ']

/-- `slog_get`, for the text its format makes of its arguments. -/
def slogGet (date : SlogDate) (string : CString) : CString := stamp date ++ string

def escape : Char := Char.ofNat 27

def clrNormal : CString := [escape, '[', '0', 'm']
def clrRed : CString := [escape, '[', '3', '1', 'm']
def clrGreen : CString := [escape, '[', '3', '2', 'm']
def clrYellow : CString := [escape, '[', '3', '3', 'm']
def clrBlue : CString := [escape, '[', '3', '4', 'm']
def clrWhite : CString := [escape, '[', '3', '7', 'm']
def clrReset : CString := [escape, '[', '0', 'm']

/-- `strclr`. -/
def strclr (clr string : CString) : CString := clr ++ string ++ clrReset

def slogNone : Int := 0
def slogInfo : Int := 2

/-- The color and the word the `switch` of `slog` gives a flag; `SLOG_NONE` and numbers
that are no flag have none. -/
def alarmOf (flag : Int) : Option (CString × CString) :=
  if flag = 1 then some (clrNormal, "LIVE".toList)
  else if flag = slogInfo then some (clrGreen, "INFO".toList)
  else if flag = 3 then some (clrYellow, "WARN".toList)
  else if flag = 4 then some (clrBlue, "DEBUG".toList)
  else if flag = 5 then some (clrRed, "ERROR".toList)
  else if flag = 6 then some (clrRed, "FATAL".toList)
  else if flag = 7 then some (clrWhite, "PANIC".toList)
  else none

/-! ## Where the lines go -/

/-- What slog has printed, and the log files. -/
structure Output where
  screen : CString
  files : CString → Content

/-- `printf("%s", text)`. -/
def Output.print (out : Output) (text : CString) : Output := { out with screen := out.screen ++ text }

def pathMax : Nat := 4096

/-- The file a line goes to; a name that is NULL is printed as glibc prints it. -/
def logName (slg : SlogFlags) (date : SlogDate) : CString :=
  let fname := slg.fname.getD "(null)".toList
  let filename :=
    if slg.filestamp ≠ 0 then
      fname ++ '-' :: twoDigits date.year ++ '-' :: twoDigits date.mon ++ '-' :: twoDigits date.day ++
        ".log".toList
    else fname ++ ".log".toList
  filename.take (pathMax - 1)

/-- `slog_to_file`. A file that does not open is passed over. -/
def slogToFile (slg : SlogFlags) (opens : CString → Bool) (date : SlogDate) (line : CString)
    (out : Output) : Output :=
  let filename := logName slg date
  if opens filename then
    { out with files := Function.update out.files filename (out.files filename ++ line) }
  else out

/-- `slog`, for the text its format makes of its arguments. -/
def slog (slg : SlogFlags) (opens : CString → Bool) (date : SlogDate) (level flag : Int)
    (string : CString) (out : Output) : Output :=
  if level = 0 ∨ level ≤ slg.level ∨ level ≤ slg.fileLevel then
    let prints := if (alarmOf flag).isNone then string else []
    let (prints, out) :=
      if level ≤ slg.level ∨ slg.pretty ≠ 0 then
        let prints := match alarmOf flag with
          | some (color, alarm) => '[' :: strclr color alarm ++ [']', ' '] ++ string
          | none => prints
        (prints, if level ≤ slg.level then out.print (slogGet date (prints ++ ['\n'])) else out)
      else (prints, out)
    if slg.toFile ≠ 0 ∧ level ≤ slg.fileLevel then
      let prints :=
        if slg.pretty ≠ 0 then prints
        else match alarmOf flag with
          | some (_, alarm) => '[' :: alarm ++ [']', ' '] ++ string
          | none => prints
      slogToFile slg opens date (slogGet date (prints ++ ['\n'])) out
    else out
  else out

/-! ## Starting -/

/-- What `slog_init` is told of the configuration file: its name and its content, or
`none` when it does not open. -/
structure ConfigFile where
  name : CString
  content : Option Content

/-- The first message of a log. -/
def greeting (conf : Option ConfigFile) (status : Bool) : CString :=
  match conf, status with
  | some conf, true => "Loading logger config from: ".toList ++ conf.name
  | _, _ => "Initializing logger values without config".toList

/-- `slog_init`. The text is what it prints when the mutex cannot be made; `conf` is `none`
for NULL. -/
def slogInit (slg : SlogFlags) (opens : CString → Bool) (date : SlogDate) (fname : CString)
    (conf : Option ConfigFile) (lvl flvl tSafe : Int) (mutexError : Option CString) (out : Output) :
    SlogFlags × Output :=
  let slg := { slg with
    level := toShort lvl, fileLevel := toShort flvl, toFile := 0, pretty := 0, filestamp := 1
    tdSafe := toShort tSafe }
  let (slg, out) :=
    if tSafe ≠ 0 then
      match mutexError with
      | some message => ({ slg with tdSafe := 0 }, out.print message)
      | none => (slg, out)
    else (slg, out)
  let (slg, status) := match conf with
    | some conf => parseConfig { slg with fname := some fname } conf.content
    | none => (slg, false)
  (slg, slog slg opens date 0 slogInfo (greeting conf status) out)

/-! ## One line for each destination -/

/-- The text of a call, with its word in color or plain. -/
def record (inColor : Bool) (flag : Int) (string : CString) : CString :=
  match alarmOf flag with
  | some (color, alarm) =>
    '[' :: (if inColor then strclr color alarm else alarm) ++ [']', ' '] ++ string
  | none => string

/-- The line of a call on the screen. -/
def screenLine (date : SlogDate) (flag : Int) (string : CString) : CString :=
  slogGet date (record true flag string ++ ['\n'])

/-- The line of a call in its file. -/
def fileLine (slg : SlogFlags) (date : SlogDate) (flag : Int) (string : CString) : CString :=
  slogGet date (record (slg.pretty ≠ 0) flag string ++ ['\n'])

/-- What a call does, its two destinations apart. -/
theorem slog_eq (slg : SlogFlags) (opens : CString → Bool) (date : SlogDate) (level flag : Int)
    (string : CString) (out : Output) :
    slog slg opens date level flag string out =
      let out := if level ≤ slg.level then out.print (screenLine date flag string) else out
      if slg.toFile ≠ 0 ∧ level ≤ slg.fileLevel then
        slogToFile slg opens date (fileLine slg date flag string) out
      else out := by
  unfold slog screenLine fileLine record
  by_cases hscreen : level ≤ slg.level <;> by_cases hfile : level ≤ slg.fileLevel <;>
    by_cases hpretty : slg.pretty = 0 <;> cases alarmOf flag <;>
    simp [hscreen, hfile, hpretty]

/-! ## The flags after `slog_init` -/

/-- The flags before the configuration file is read. -/
def defaultOf (lvl flvl : Int) : Key → Int
  | .logLevel => toShort lvl
  | .logFileLevel => toShort flvl
  | .logToFile | .prettyLog => 0
  | .fileStamp => 1

section Init

variable (slg : SlogFlags) (opens : CString → Bool) (date : SlogDate) (fname : CString)
  (lvl flvl tSafe : Int) (mutexError : Option CString) (out : Output)

/-- A file is written only under the name `slog_init` was given. -/
theorem fname_of_toFile (conf : Option ConfigFile)
    (h : (slogInit slg opens date fname conf lvl flvl tSafe mutexError out).1.toFile ≠ 0) :
    (slogInit slg opens date fname conf lvl flvl tSafe mutexError out).1.fname = some fname := by
  cases conf with
  | none =>
    refine absurd ?_ h
    unfold slogInit
    split_ifs <;> cases mutexError <;> rfl
  | some conf =>
    unfold slogInit
    split_ifs <;> cases mutexError <;> exact (parseConfig_others _ _).1

/-- What `slog_init` prints before its first line. -/
def complaint : CString := if tSafe ≠ 0 then mutexError.getD [] else []

/-- `slog_init` with a configuration file leaves each flag at the last setting of its key
or at its default, and starts the log with a line that tells whether there was a setting. -/
theorem slogInit_configText (name : CString) {configLines : List ConfigLine}
    (h : ∀ line ∈ configLines, line.Valid) :
    let conf := some ⟨name, some (configText configLines)⟩
    ∃ flags : SlogFlags,
      (∀ key : Key, flags.get key =
        (configLines.filterMap (·.valueOf key)).getLast?.getD (defaultOf lvl flvl key)) ∧
      flags.fname = some fname ∧
      flags.tdSafe = (if mutexError.isSome then 0 else toShort tSafe) ∧
      slogInit slg opens date fname conf lvl flvl tSafe mutexError out =
        (flags, slog flags opens date 0 slogInfo (greeting conf (configLines.any (·.isSetting)))
          (out.print (complaint tSafe mutexError))) := by
  let start : SlogFlags :=
    { fname := some fname, level := toShort lvl, fileLevel := toShort flvl, toFile := 0, pretty := 0
      filestamp := 1, tdSafe := if mutexError.isSome then 0 else toShort tSafe }
  have hparse := parseConfig_configText start h
  have hothers := parseConfig_others start (some (configText configLines))
  have hprint : out.print [] = out := by simp [Output.print]
  refine ⟨(parseConfig start (some (configText configLines))).1, fun key => ?_, hothers.1, hothers.2, ?_⟩
  · rw [hparse.1 key]
    cases key <;> rfl
  · rw [← hparse.2]
    unfold slogInit complaint
    by_cases hsafe : tSafe = 0
    · subst hsafe
      have hflags : (if mutexError.isSome then 0 else toShort 0) = 0 := ite_self _
      simp only [start, hflags, ne_eq, not_true_eq_false, if_false, hprint]
      rfl
    · cases mutexError <;> simp only [start, ne_eq, hsafe, not_false_eq_true, if_true, Option.isSome_none,
        Option.isSome_some, Bool.false_eq_true, if_false, Option.getD_none, Option.getD_some, hprint]

end Init

/-- The lines of the `slog.cfg` the programs run with. Its last line names no key. -/
def slogCfg : List ConfigLine :=
  [.setting .logLevel 1 [], .setting .logFileLevel 3 [], .setting .logToFile 1 [],
    .setting .prettyLog 0 [], .remark ['L', 'O', 'G', 'S', 'T', 'A', 'M', 'P', ' ', '0', ' ']]

/-- The flags of a process that has not called `slog_init`. -/
def noFlags : SlogFlags := ⟨none, 0, 0, 0, 0, 0, 0⟩

/-- The flags Producer runs with. -/
def producerFlags : SlogFlags where
  fname := some "log".toList
  fileLevel := 3
  level := 1
  toFile := 1
  pretty := 0
  filestamp := 1
  tdSafe := 1

theorem valid_slogCfg : ∀ line ∈ slogCfg, line.Valid := by
  have hnil : Keyless [] := ⟨by decide, by decide, fun key => by cases key <;> decide⟩
  intro line hline
  simp only [slogCfg, List.mem_cons, List.not_mem_nil, or_false] at hline
  rcases hline with rfl | rfl | rfl | rfl | rfl
  · exact ⟨rfl, hnil, by simp⟩
  · exact ⟨rfl, hnil, by simp⟩
  · exact ⟨rfl, hnil, by simp⟩
  · exact ⟨rfl, hnil, by simp⟩
  · exact ⟨by decide, by decide, fun key => by cases key <;> decide⟩

theorem slogInit_slogCfg :
    (slogInit noFlags (fun _ => true) ⟨2019, 10, 7, 18, 30, 0, 0⟩ "log".toList
      (some ⟨"slog.cfg".toList, some (configText slogCfg)⟩) 2 3 1 none ⟨[], fun _ => []⟩).1 =
    producerFlags := by
  obtain ⟨⟨fname, fileLevel, level, toFile, pretty, filestamp, tdSafe⟩, hget, hname, hsafe, hinit⟩ :=
    slogInit_configText noFlags (fun _ => true) ⟨2019, 10, 7, 18, 30, 0, 0⟩ "log".toList 2 3 1 none
      ⟨[], fun _ => []⟩ "slog.cfg".toList valid_slogCfg
  obtain rfl : level = 1 := hget .logLevel
  obtain rfl : fileLevel = 3 := hget .logFileLevel
  obtain rfl : toFile = 1 := hget .logToFile
  obtain rfl : pretty = 0 := hget .prettyLog
  obtain rfl : filestamp = 1 := hget .fileStamp
  obtain rfl : tdSafe = 1 := hsafe
  subst hname
  rw [hinit]
  rfl

end DynamicPartitions.Slog.Record
