import DynamicPartitions.Parson.Parser

/-!
# The prompt of Killer

The loop of `kill_producer`: a line is read into a buffer that keeps what earlier lines
left behind, and the first letter found from its start on decides. The scan has no test
for the end of the line.
-/
namespace DynamicPartitions.Program.Prompt

open DynamicPartitions.Parson.Value
open DynamicPartitions.Parson.Parser

/-- The size of `line`. -/
def lineSize : Nat := 100

/-- `char line[100]`. -/
structure Buffer where
  bytes : List Char
  size : bytes.length = lineSize

/-- A line as it is typed, with room in the buffer for the terminating zero. -/
structure Line where
  chars : CString
  fits : chars.length < lineSize
deriving DecidableEq

/-- `gets`: the bytes behind the terminating zero stay as they are. -/
def gets (buffer : Buffer) (line : Line) : Buffer where
  bytes := line.chars ++ nul :: buffer.bytes.drop (line.chars.length + 1)
  size := by
    have hfits := line.fits
    have hsize := buffer.size
    rw [List.length_append, List.length_cons, List.length_drop]
    omega

/-- `isalpha`. -/
def isalpha (c : Char) : Bool := c.isAlpha

/-- The scan for a letter from index `i` on; `none` when it leaves the buffer. -/
def scanFrom : Nat → List Char → Option (Nat × Char)
  | _, [] => none
  | i, c :: rest => if isalpha c then some (i, c) else scanFrom (i + 1) rest

/-- SIGQUIT sent, both files removed and Killer gone; or a new prompt; or, past the end of
the buffer, anything. -/
inductive Reaction where
  | killed
  | again (c : Char)
  | overrun
deriving DecidableEq, Repr

def react : Option (Nat × Char) → Reaction
  | none => .overrun
  | some (_, c) => if c = 'k' ∨ c = 'K' then .killed else .again c

/-- The loop of `kill_producer`: each line read, with what the scan found. -/
def promptLoop : Buffer → List Line → List (Line × Option (Nat × Char))
  | _, [] => []
  | buffer, line :: lines =>
    let buffer := gets buffer line
    let found := scanFrom 0 buffer.bytes
    (line, found) :: match react found with
      | .again _ => promptLoop buffer lines
      | .killed | .overrun => []

/-! ## What the lines ask for -/

/-- The first letter of the line is k or K. -/
def wantsKill (line : Line) : Bool :=
  match line.chars.find? isalpha with
  | some c => c = 'k' ∨ c = 'K'
  | none => false

def hasLetter (line : Line) : Bool := line.chars.any isalpha

/-- The lines up to the first that wants the kill, that one included. -/
def upToKill : List Line → List Line
  | [] => []
  | line :: lines => if wantsKill line then [line] else line :: upToKill lines

/-- The prompt reads up to the first line that wants the kill, kills on that line and on
no other, and never looks past the terminating zero of the line just read. -/
structure Obeys (buffer : Buffer) (lines : List Line) : Prop where
  read : (promptLoop buffer lines).map Prod.fst = upToKill lines
  reacts : ∀ round ∈ promptLoop buffer lines,
    if wantsKill round.1 then react round.2 = .killed else ∃ c, react round.2 = .again c
  inside : ∀ round ∈ promptLoop buffer lines, ∃ i c, round.2 = some (i, c) ∧ i ≤ round.1.chars.length

/-! ## The scan -/

/-- With a letter in the line the scan finds the first one there. -/
theorem scanFrom_of_letter {l : List Char} (h : l.any isalpha = true) (behind : List Char) :
    ∀ i, ∃ j c, scanFrom i (l ++ behind) = some (j, c) ∧ l.find? isalpha = some c ∧ j < i + l.length := by
  induction l with
  | nil => cases h
  | cons first rest ih =>
    intro i
    cases hfirst : isalpha first with
    | true =>
      refine ⟨i, first, ?_, ?_, ?_⟩
      · rw [List.cons_append, scanFrom, if_pos hfirst]
      · exact List.find?_cons_of_pos hfirst
      · rw [List.length_cons]
        omega
    | false =>
      have hrest : rest.any isalpha = true := by simpa [hfirst] using h
      obtain ⟨j, c, hscan, hfind, hlt⟩ := ih hrest (i + 1)
      refine ⟨j, c, ?_, ?_, ?_⟩
      · rw [List.cons_append, scanFrom, hfirst]
        exact hscan
      · rw [List.find?_cons_of_neg (by rw [hfirst]; exact Bool.false_ne_true)]
        exact hfind
      · rw [List.length_cons]
        omega

/-- Without one it goes on behind the line. -/
theorem scanFrom_of_no_letter {l : List Char} (h : l.any isalpha = false) (behind : List Char) :
    ∀ i, scanFrom i (l ++ behind) = scanFrom (i + l.length) behind := by
  induction l with
  | nil => exact fun _ => rfl
  | cons first rest ih =>
    intro i
    simp only [List.any_cons, Bool.or_eq_false_iff] at h
    have hnext : i + (rest.length + 1) = i + 1 + rest.length := by omega
    rw [List.cons_append, scanFrom, h.1, List.length_cons, hnext]
    exact ih h.2 (i + 1)

theorem le_of_scanFrom {l : List Char} : ∀ {i j : Nat} {c : Char}, scanFrom i l = some (j, c) → i ≤ j := by
  induction l with
  | nil => intro i j c h; cases h
  | cons first rest ih =>
    intro i j c h
    rw [scanFrom] at h
    split at h
    · exact Nat.le_of_eq (congrArg Prod.fst (Option.some.inj h))
    · exact Nat.le_of_succ_le (ih h)

/-- What the scan finds in the buffer after a line with a letter. -/
theorem scan_inside (buffer : Buffer) {line : Line} (h : hasLetter line = true) :
    ∃ i c, scanFrom 0 (gets buffer line).bytes = some (i, c) ∧
      line.chars.find? isalpha = some c ∧ i ≤ line.chars.length := by
  obtain ⟨i, c, hscan, hfind, hlt⟩ :=
    scanFrom_of_letter h (nul :: buffer.bytes.drop (line.chars.length + 1)) 0
  exact ⟨i, c, hscan, hfind, by omega⟩

/-- Without a letter the scan looks past the terminating zero. -/
theorem scan_outside (buffer : Buffer) {line : Line} (h : hasLetter line = false) :
    ¬ ∃ i c, scanFrom 0 (gets buffer line).bytes = some (i, c) ∧ i ≤ line.chars.length := by
  rintro ⟨i, c, hscan, hle⟩
  have hbehind := scanFrom_of_no_letter h (nul :: buffer.bytes.drop (line.chars.length + 1)) 0
  have hzero : isalpha nul = false := by decide
  rw [gets, hbehind, scanFrom, hzero] at hscan
  have hpast := le_of_scanFrom hscan
  omega

/-- After a line with a letter, the reaction is the one its first letter asks for. -/
theorem react_of_letter {line : Line} {i : Nat} {c : Char} (h : line.chars.find? isalpha = some c) :
    react (some (i, c)) = if wantsKill line then .killed else .again c := by
  rw [react, wantsKill, h]
  simp only [decide_eq_true_eq]

/-! ## The loop -/

/-- Each round has scanned its line in some buffer. -/
theorem scanned_of_mem : ∀ {lines : List Line} {buffer : Buffer} {round : Line × Option (Nat × Char)},
    round ∈ promptLoop buffer lines →
    ∃ before, round.2 = scanFrom 0 (gets before round.1).bytes := by
  intro lines
  induction lines with
  | nil => intro buffer round h; cases h
  | cons line lines ih =>
    intro buffer round h
    rw [promptLoop] at h
    rcases List.mem_cons.mp h with rfl | h
    · exact ⟨buffer, rfl⟩
    · split at h
      · exact ih h
      · cases h
      · cases h

section Round

variable {buffer : Buffer} {line : Line} {lines : List Line} {i : Nat} {c : Char}
  (hscan : scanFrom 0 (gets buffer line).bytes = some (i, c)) (hle : i ≤ line.chars.length)
include hscan hle

/-- The round of a line that wants the kill is the last. -/
theorem obeys_of_killed (hkill : wantsKill line = true) (hreact : react (some (i, c)) = .killed) :
    Obeys buffer (line :: lines) := by
  have hloop : promptLoop buffer (line :: lines) = [(line, some (i, c))] := by
    simp only [promptLoop, hscan, hreact]
  constructor
  · rw [hloop, upToKill, if_pos hkill]
    rfl
  · intro round hround
    rw [hloop] at hround
    obtain rfl := List.mem_singleton.mp hround
    rw [if_pos hkill]
    exact hreact
  · intro round hround
    rw [hloop] at hround
    obtain rfl := List.mem_singleton.mp hround
    exact ⟨i, c, rfl, hle⟩

/-- After any other line the prompt goes on with what the line has left in the buffer. -/
theorem obeys_of_again (hkill : ¬ wantsKill line = true) (hreact : react (some (i, c)) = .again c)
    (hrest : Obeys (gets buffer line) lines) : Obeys buffer (line :: lines) := by
  have hloop : promptLoop buffer (line :: lines) =
      (line, some (i, c)) :: promptLoop (gets buffer line) lines := by
    simp only [promptLoop, hscan, hreact]
  constructor
  · rw [hloop, upToKill, if_neg hkill, List.map_cons, hrest.read]
  · intro round hround
    rw [hloop] at hround
    rcases List.mem_cons.mp hround with rfl | hround
    · rw [if_neg hkill]
      exact ⟨c, hreact⟩
    · exact hrest.reacts round hround
  · intro round hround
    rw [hloop] at hround
    rcases List.mem_cons.mp hround with rfl | hround
    · exact ⟨i, c, rfl, hle⟩
    · exact hrest.inside round hround

end Round

theorem obeys_of_letters : ∀ {lines : List Line} (buffer : Buffer),
    (∀ line ∈ upToKill lines, hasLetter line = true) → Obeys buffer lines := by
  intro lines
  induction lines with
  | nil =>
    intro buffer _
    constructor
    · rfl
    · exact fun _ h => nomatch h
    · exact fun _ h => nomatch h
  | cons line lines ih =>
    intro buffer hletters
    rw [upToKill] at hletters
    have hline : hasLetter line = true := by
      apply hletters
      split
      · exact List.mem_singleton.mpr rfl
      · exact List.mem_cons_self
    obtain ⟨i, c, hscan, hfind, hle⟩ := scan_inside buffer hline
    have hreact := react_of_letter (i := i) hfind
    by_cases hkill : wantsKill line = true
    · rw [if_pos hkill] at hreact
      exact obeys_of_killed hscan hle hkill hreact
    · rw [if_neg hkill] at hletters hreact
      apply obeys_of_again hscan hle hkill hreact
      exact ih (gets buffer line) fun other hother => hletters other (List.mem_cons_of_mem _ hother)

/-- The prompt obeys exactly when every line it should read contains a letter. -/
theorem prompt_obeys_iff (buffer : Buffer) (lines : List Line) :
    Obeys buffer lines ↔ ∀ line ∈ upToKill lines, hasLetter line = true := by
  constructor
  · intro h line hline
    rw [← h.read] at hline
    obtain ⟨round, hround, rfl⟩ := List.mem_map.mp hline
    obtain ⟨before, hscan⟩ := scanned_of_mem hround
    by_contra hno
    have hinside := h.inside round hround
    rw [hscan] at hinside
    exact scan_outside before (Bool.not_eq_true _ ▸ hno) hinside
  · exact obeys_of_letters buffer

/-- An empty line after "ak": the k left behind kills. -/
theorem prompt_disobeys : ¬ ∀ buffer lines, Obeys buffer lines := by
  intro hclaim
  have hobeys := hclaim ⟨List.replicate lineSize nul, List.length_replicate⟩
    [⟨['a', 'k'], by decide⟩, ⟨[], by decide⟩]
  obtain ⟨c, hagain⟩ := hobeys.reacts (⟨[], by decide⟩, some (1, 'k')) (by decide)
  cases hagain

end DynamicPartitions.Program.Prompt
