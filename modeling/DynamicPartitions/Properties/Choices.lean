import DynamicPartitions.Program.Menus

/-!
# Menus and the choices in their input

What the input of a menu asks for, word by word, and the inputs on which the loop does
just that.
-/
namespace DynamicPartitions.Properties.Choices

open DynamicPartitions.Lib.Words
open DynamicPartitions.Parson.Value
open DynamicPartitions.Parson.Parser
open DynamicPartitions.Parson.RoundTrip
open DynamicPartitions.Program.Menus

/-! ## What the input asks for -/

/-- The number a whole word is. -/
def wordValue (word : CString) : Option Int :=
  match scanfInt word with
  | (some n, []) => some n
  | _ => none

/-- The words to act on before the first that is a valid choice, and that choice. -/
def expected (menu : Menu) : List (CString × CString) → Option (List (Int × CString) × Int)
  | [] => none
  | (word, rest) :: more =>
    match wordValue word with
    | none => expected menu more
    | some n =>
      if menu.ends n then some ([], n)
      else (expected menu more).map (menu.note n rest)

/-- The input begins with whitespace or is at its end. -/
def atBoundary (input : CString) : Bool := input.takeWhile (! isspace ·) = []

/-- The words still to be read: if the last conversion has stopped inside a word, those
behind it. -/
def wordsAhead (fresh : Bool) (input : CString) : List (CString × CString) :=
  words isspace (if fresh then input else input.dropWhile (! isspace ·))

/-- An input that can be read number by number, from the last number converted on and
from the start of a word or from inside one. A number inside a longer word must be one
the loop does not act on, and with `whole` none that ends it, and a sign without digits
must not repeat an action. -/
inductive Readable (menu : Menu) (whole : Bool) : Option Int → Bool → CString → Prop
  | choice {previous : Option Int} {fresh : Bool} {input rest : CString} {n : Int} :
      scanfInt input = (some n, rest) → menu.ends n = true →
      (whole = true → fresh = true ∧ atBoundary rest = true) →
      Readable menu whole previous fresh input
  | action {previous : Option Int} {input rest : CString} {n : Int} :
      scanfInt input = (some n, rest) → atBoundary rest = true → menu.ends n = false →
      menu.acts n = true → Readable menu whole (some n) true rest →
      Readable menu whole previous true input
  | number {previous : Option Int} {fresh : Bool} {input rest : CString} {n : Int} :
      scanfInt input = (some n, rest) → menu.ends n = false → menu.acts n = false →
      Readable menu whole (some n) (atBoundary rest) rest → Readable menu whole previous fresh input
  | sign {fresh : Bool} {input rest : CString} {n : Int} :
      scanfInt input = (none, rest) → rest.length < (skipWhitespaces input).length →
      menu.acts n = false → Readable menu whole (some n) (atBoundary rest) rest →
      Readable menu whole (some n) fresh input

/-! ## Words and conversions -/

/-- Not at whitespace where it has stopped inside a word. -/
def Placed (fresh : Bool) (input : CString) : Prop := fresh = false → atBoundary input = false

theorem placed_start (input : CString) : Placed true input := fun h => nomatch h

theorem placed_rest (rest : CString) : Placed (atBoundary rest) rest := fun h => h

/-- Where a conversion has stopped, the words ahead are those behind the word. -/
theorem wordsAhead_rest (rest : CString) :
    wordsAhead (atBoundary rest) rest = words isspace (rest.dropWhile (! isspace ·)) := by
  unfold wordsAhead
  cases h : atBoundary rest with
  | false => rfl
  | true =>
    have hsplit := List.takeWhile_append_dropWhile (p := (! isspace ·)) (l := rest)
    rw [of_decide_eq_true h, List.nil_append] at hsplit
    exact congrArg (words isspace) hsplit.symm

section Conversion

variable {fresh : Bool} {input rest : CString} {value : Option Int}
  (hplaced : Placed fresh input) (hlt : rest.length < (skipWhitespaces input).length)
  (hscan : scanfInt input = (value, rest))
include hlt

theorem word_of_conversion : (skipWhitespaces input).takeWhile (! isspace ·) ≠ [] := by
  cases htext : skipWhitespaces input with
  | nil => simp [htext] at hlt
  | cons c body =>
    have hspace : isspace c = false := by
      have hhead := List.head?_dropWhile_not isspace input
      rw [← skipWhitespaces, htext] at hhead
      simpa using hhead
    rw [List.takeWhile_cons_of_pos (by rw [hspace]; rfl)]
    exact List.cons_ne_nil _ _

include hscan

theorem words_of_conversion :
    words isspace input =
      ((skipWhitespaces input).takeWhile (! isspace ·), rest.dropWhile (! isspace ·)) ::
        words isspace (rest.dropWhile (! isspace ·)) := by
  have hword := word_of_conversion hlt
  have hbehind := (scanfInt_word hword).2
  rw [scanfInt_skip, hscan] at hbehind
  rw [← words_dropWhile input, ← skipWhitespaces, words_of_word hword, hbehind]

theorem wordValue_of_conversion :
    wordValue ((skipWhitespaces input).takeWhile (! isspace ·)) =
      if atBoundary rest then value else none := by
  have hread := (scanfInt_word (word_of_conversion hlt)).1
  rw [scanfInt_skip, hscan] at hread
  rw [wordValue, hread]
  unfold atBoundary
  by_cases hstop : rest.takeWhile (! isspace ·) = []
  · cases value <;> simp [hstop]
  · cases value <;> simp [hstop]

/-- A number that is a whole word is what the input asks for next. -/
theorem expected_whole (menu : Menu) {n : Int} (hfresh : fresh = true) (hstop : atBoundary rest = true)
    (hvalue : value = some n) :
    expected menu (wordsAhead fresh input) =
      if menu.ends n then some ([], n)
      else (expected menu (wordsAhead (atBoundary rest) rest)).map (menu.note n rest) := by
  have hbehind : rest.dropWhile (! isspace ·) = rest := by
    have hsplit := List.takeWhile_append_dropWhile (p := (! isspace ·)) (l := rest)
    rwa [of_decide_eq_true hstop, List.nil_append] at hsplit
  have hwords : wordsAhead fresh input = words isspace input := by rw [wordsAhead, if_pos hfresh]
  have hread := wordValue_of_conversion hlt hscan
  rw [if_pos hstop, hvalue] at hread
  rw [hwords, words_of_conversion hlt hscan, wordsAhead_rest, expected, hread, hbehind]

include hplaced in
/-- Anything else the input does not ask for. -/
theorem expected_part (menu : Menu) (hpart : ¬ (fresh = true ∧ atBoundary rest = true) ∨ value = none) :
    expected menu (wordsAhead fresh input) = expected menu (wordsAhead (atBoundary rest) rest) := by
  rw [wordsAhead_rest]
  cases hfresh : fresh with
  | true =>
    have hread := wordValue_of_conversion hlt hscan
    have hnone : (if atBoundary rest = true then value else none) = none := by
      split
      · next hstop => exact hpart.resolve_left fun h => h ⟨hfresh, hstop⟩
      · rfl
    rw [hnone] at hread
    show expected menu (words isspace input) = _
    rw [words_of_conversion hlt hscan, expected, hread]
  | false =>
    have htext : skipWhitespaces input = input := by
      have hhere : input.takeWhile (! isspace ·) ≠ [] := of_decide_eq_false (hplaced hfresh)
      cases input with
      | nil => rfl
      | cons c body =>
        cases hspace : isspace c with
        | true => simp [hspace] at hhere
        | false => exact skipWhitespaces_cons body hspace
    have hbehind := (scanfInt_word (word_of_conversion hlt)).2
    rw [htext, hscan] at hbehind
    show expected menu (words isspace (input.dropWhile (! isspace ·))) = _
    rw [hbehind]

end Conversion

/-- Each action asked for is on a word of the list. -/
theorem mem_words_of_expected {menu : Menu} : ∀ {ws : List (CString × CString)}
    {actions : List (Int × CString)} {choice : Int}, expected menu ws = some (actions, choice) →
    ∀ action ∈ actions, ∃ word ∈ ws, word.2 = action.2 := by
  intro ws
  induction ws with
  | nil => intro actions choice h; cases h
  | cons word ws ih =>
    intro actions choice h action haction
    rw [expected] at h
    split at h
    · obtain ⟨other, hother, hrest⟩ := ih h action haction
      exact ⟨other, List.mem_cons_of_mem _ hother, hrest⟩
    · split at h
      · cases h
        cases haction
      · obtain ⟨⟨actions', choice'⟩, hmore, heq⟩ := Option.map_eq_some_iff.mp h
        obtain ⟨rfl, rfl⟩ := Prod.mk.inj heq
        split at haction
        · rcases List.mem_cons.mp haction with rfl | haction
          · exact ⟨word, List.mem_cons_self, rfl⟩
          · obtain ⟨other, hother, hrest⟩ := ih hmore action haction
            exact ⟨other, List.mem_cons_of_mem _ hother, hrest⟩
        · obtain ⟨other, hother, hrest⟩ := ih hmore action haction
          exact ⟨other, List.mem_cons_of_mem _ hother, hrest⟩

/-- Where a conversion has stopped, no action is asked for at that very place. -/
theorem not_mem_expected {menu : Menu} {rest : CString} {actions : List (Int × CString)} {choice : Int}
    (h : expected menu (wordsAhead (atBoundary rest) rest) = some (actions, choice)) (n : Int) :
    (n, rest) ∉ actions := by
  intro hmem
  obtain ⟨word, hword, hrest⟩ := mem_words_of_expected h _ hmem
  rw [wordsAhead_rest] at hword
  have hlt : word.2.length < (rest.dropWhile (! isspace ·)).length := length_lt_of_mem_words hword
  have hle := length_dropWhile_le (! isspace ·) rest
  rw [hrest] at hlt
  exact absurd (Nat.lt_of_lt_of_le hlt hle) (Nat.lt_irrefl _)

/-! ## Readable inputs -/

theorem scanned {input rest rest' : CString} {n n' : Int} (h : scanfInt input = (some n, rest))
    (h' : scanfInt input = (some n', rest')) : n' = n ∧ rest' = rest := by
  rw [h] at h'
  obtain ⟨hn, hrest⟩ := Prod.mk.inj h'
  exact ⟨(Option.some.inj hn).symm, hrest.symm⟩

section Inversion

variable {menu : Menu} {whole fresh : Bool} {previous : Option Int} {input rest : CString} {n : Int}

/-- The number read before does not matter to a number. -/
theorem readable_previous (hscan : scanfInt input = (some n, rest))
    (h : Readable menu whole previous fresh input) (previous' : Option Int) :
    Readable menu whole previous' fresh input := by
  cases h with
  | choice hscan' hends hwhole => exact .choice hscan' hends hwhole
  | action hscan' hstop hends hacts hrest => exact .action hscan' hstop hends hacts hrest
  | number hscan' hends hacts hrest => exact .number hscan' hends hacts hrest
  | sign hscan' => rw [hscan] at hscan'; cases hscan'

/-- A conversion that assigns nothing is a sign, behind a number not acted on. -/
theorem readable_none (hscan : scanfInt input = (none, rest))
    (h : Readable menu whole previous fresh input) :
    ∃ n, previous = some n ∧ menu.acts n = false ∧ rest.length < (skipWhitespaces input).length ∧
      Readable menu whole (some n) (atBoundary rest) rest := by
  cases h with
  | choice hscan' => rw [hscan] at hscan'; cases hscan'
  | action hscan' => rw [hscan] at hscan'; cases hscan'
  | number hscan' => rw [hscan] at hscan'; cases hscan'
  | sign hscan' hlt hacts hrest =>
    obtain rfl := congrArg Prod.snd (hscan.symm.trans hscan')
    exact ⟨_, rfl, hacts, hlt, hrest⟩

/-- A number that ends the loop is a whole word, where that is asked. -/
theorem readable_whole (hscan : scanfInt input = (some n, rest)) (hends : menu.ends n = true)
    (h : Readable menu true previous fresh input) : fresh = true ∧ atBoundary rest = true := by
  cases h with
  | choice hscan' _ hwhole =>
    obtain ⟨rfl, rfl⟩ := scanned hscan hscan'
    exact hwhole rfl
  | action hscan' _ hends' =>
    obtain ⟨rfl, rfl⟩ := scanned hscan hscan'
    rw [hends] at hends'
    cases hends'
  | number hscan' hends' =>
    obtain ⟨rfl, rfl⟩ := scanned hscan hscan'
    rw [hends] at hends'
    cases hends'
  | sign hscan' => rw [hscan] at hscan'; cases hscan'

/-- What follows a number that does not end the loop is readable; one that is acted on is
a whole word. -/
theorem readable_rest (hscan : scanfInt input = (some n, rest)) (hends : menu.ends n = false)
    (h : Readable menu whole previous fresh input) :
    Readable menu whole (some n) (atBoundary rest) rest ∧
      (menu.acts n = true → fresh = true ∧ atBoundary rest = true) := by
  cases h with
  | choice hscan' hends' =>
    obtain ⟨rfl, rfl⟩ := scanned hscan hscan'
    rw [hends] at hends'
    cases hends'
  | action hscan' hstop hends' hacts hrest =>
    obtain ⟨rfl, rfl⟩ := scanned hscan hscan'
    rw [hstop]
    exact ⟨hrest, fun _ => ⟨rfl, rfl⟩⟩
  | number hscan' hends' hacts hrest =>
    obtain ⟨rfl, rfl⟩ := scanned hscan hscan'
    refine ⟨hrest, fun hacts' => ?_⟩
    rw [hacts] at hacts'
    cases hacts'
  | sign hscan' => rw [hscan] at hscan'; cases hscan'

end Inversion

/-- Whether the loop ends with the result depends on the input so. -/
structure Decides (menu : Menu) (m : Int) (fresh : Bool) (input : CString)
    (result : List (Int × CString) × Int) : Prop where
  enough : Readable menu true (some m) fresh input → EndsWith menu m input result
  needed : EndsWith menu m input result → Readable menu false (some m) fresh input

section Readable

variable {menu : Menu} {fresh : Bool} {input rest : CString} {m n : Int}
  {result : List (Int × CString) × Int} (hplaced : Placed fresh input)
  (hexpected : expected menu (wordsAhead fresh input) = some result)
  (hlt : rest.length < (skipWhitespaces input).length)
include hplaced hexpected hlt

/-- The first action of a result is no place where a conversion stops inside a word or
behind a sign. -/
theorem not_noted {value : Option Int} (hscan : scanfInt input = (value, rest))
    (hpart : ¬ (fresh = true ∧ atBoundary rest = true) ∨ value = none) {code : Int}
    (hacts : menu.acts code = true) (later : List (Int × CString) × Int) :
    result ≠ menu.note code rest later := by
  rintro rfl
  rw [expected_part hplaced hlt hscan menu hpart] at hexpected
  refine not_mem_expected hexpected code ?_
  rw [if_pos hacts]
  exact List.mem_cons_self

/-- A sign without digits. -/
theorem decides_sign (hscan : scanfInt input = (none, rest)) (hends : menu.ends m = false)
    (ih : expected menu (wordsAhead (atBoundary rest) rest) = some result →
      Decides menu m (atBoundary rest) rest result) : Decides menu m fresh input result := by
  have hturn : turn m input = (m, rest) := by rw [turn, hscan]; rfl
  have hsame := expected_part hplaced hlt hscan menu (.inr rfl)
  rw [hexpected] at hsame
  have hloop : EndsWith menu m input result ↔ _ :=
    endsWith_of_repeats (by rw [hturn]; exact hends)
  rw [hturn] at hloop
  constructor
  · intro h
    obtain ⟨n, hm, hacts, -, hrest⟩ := readable_none hscan h
    obtain rfl := Option.some.inj hm
    refine hloop.mpr ⟨result, (ih hsame.symm).enough hrest, ?_⟩
    rw [Menu.note, hacts]
    rfl
  · intro h
    obtain ⟨later, hlater, hnote⟩ := hloop.mp h
    cases hacts : menu.acts m with
    | true => exact absurd hnote (not_noted hplaced hexpected hlt hscan (.inr rfl) hacts later)
    | false =>
      obtain rfl : result = later := by rw [hnote, Menu.note, hacts]; rfl
      exact .sign hscan hlt hacts ((ih hsame.symm).needed hlater)

omit hplaced in
/-- A number that ends the loop. -/
theorem decides_choice (hscan : scanfInt input = (some n, rest)) (hends : menu.ends n = true) :
    Decides menu m fresh input result := by
  have hturn : turn m input = (n, rest) := by rw [turn, hscan]; rfl
  constructor
  · intro h
    obtain ⟨hfresh, hstop⟩ := readable_whole hscan hends h
    rw [expected_whole hlt hscan menu hfresh hstop rfl, if_pos hends] at hexpected
    rw [endsWith_of_ends (by rw [hturn]; exact hends), hturn]
    exact (Option.some.inj hexpected).symm
  · exact fun _ => .choice hscan hends fun h => absurd h Bool.false_ne_true

section Repeats

variable (hscan : scanfInt input = (some n, rest)) (hends : menu.ends n = false)
  (ih : ∀ {later}, expected menu (wordsAhead (atBoundary rest) rest) = some later →
    Decides menu n (atBoundary rest) rest later)
include hscan hends ih

omit hplaced in
/-- A number that is a whole word and does not end the loop. -/
theorem decides_whole (hfresh : fresh = true) (hstop : atBoundary rest = true) :
    Decides menu m fresh input result := by
  have hturn : turn m input = (n, rest) := by rw [turn, hscan]; rfl
  have hnext := expected_whole hlt hscan menu hfresh hstop rfl
  rw [hexpected, hends] at hnext
  obtain ⟨later, hlater, hnote⟩ := Option.map_eq_some_iff.mp hnext.symm
  have hloop : EndsWith menu m input result ↔ _ :=
    endsWith_of_repeats (by rw [hturn]; exact hends)
  rw [hturn] at hloop
  constructor
  · intro h
    exact hloop.mpr ⟨later, (ih hlater).enough (readable_rest hscan hends h).1, hnote.symm⟩
  · intro h
    obtain ⟨later', hends', hnote'⟩ := hloop.mp h
    obtain rfl := menu.note_injective (hnote.trans hnote')
    have hrest := (ih hlater).needed hends'
    cases hacts : menu.acts n with
    | true =>
      rw [hstop] at hrest
      subst hfresh
      exact .action hscan hstop hends hacts hrest
    | false => exact .number hscan hends hacts hrest

/-- A number inside a longer word that does not end the loop. -/
theorem decides_part (hpart : ¬ (fresh = true ∧ atBoundary rest = true)) :
    Decides menu m fresh input result := by
  have hturn : turn m input = (n, rest) := by rw [turn, hscan]; rfl
  have hsame := expected_part hplaced hlt hscan menu (.inl hpart)
  rw [hexpected] at hsame
  have hloop : EndsWith menu m input result ↔ _ :=
    endsWith_of_repeats (by rw [hturn]; exact hends)
  rw [hturn] at hloop
  constructor
  · intro h
    obtain ⟨hrest, hacted⟩ := readable_rest hscan hends h
    have hacts : menu.acts n = false := by
      rw [← Bool.not_eq_true]
      exact fun hacts => hpart (hacted hacts)
    refine hloop.mpr ⟨result, (ih hsame.symm).enough hrest, ?_⟩
    rw [Menu.note, hacts]
    rfl
  · intro h
    obtain ⟨later, hends', hnote⟩ := hloop.mp h
    cases hacts : menu.acts n with
    | true => exact absurd hnote (not_noted hplaced hexpected hlt hscan (.inl hpart) hacts later)
    | false =>
      obtain rfl : result = later := by rw [hnote, Menu.note, hacts]; rfl
      exact .number hscan hends hacts ((ih hsame.symm).needed hends')

end Repeats

/-- A number. -/
theorem decides_number (hscan : scanfInt input = (some n, rest))
    (ih : ∀ {later}, menu.ends n = false →
      expected menu (wordsAhead (atBoundary rest) rest) = some later →
      Decides menu n (atBoundary rest) rest later) : Decides menu m fresh input result := by
  cases hends : menu.ends n with
  | true => exact decides_choice hexpected hlt hscan hends
  | false =>
    by_cases hwhole : fresh = true ∧ atBoundary rest = true
    · exact decides_whole hexpected hlt hscan hends (ih hends) hwhole.1 hwhole.2
    · exact decides_part hplaced hexpected hlt hscan hends (ih hends) hwhole

end Readable

/-- From a number that has not ended the loop, it does what the input asks for on every
readable input, and on no input that is not readable with its choice inside a word. -/
theorem decides (menu : Menu) (bound : Nat) : ∀ {input : CString} {fresh : Bool}
    {m : Int} {result : List (Int × CString) × Int}, input.length ≤ bound → menu.ends m = false →
    Placed fresh input → expected menu (wordsAhead fresh input) = some result →
    Decides menu m fresh input result := by
  induction bound with
  | zero =>
    intro input fresh m result hbound hends hplaced hexpected
    obtain rfl := List.length_eq_zero_iff.mp (Nat.le_zero.mp hbound)
    cases fresh <;> simp [wordsAhead, words_nil, expected] at hexpected
  | succ bound ih =>
    intro input fresh m result hbound hends hplaced hexpected
    have hskip : (skipWhitespaces input).length ≤ input.length := length_dropWhile_le _ _
    rcases scanfInt_cases input with hstuck | ⟨rest, hscan, hlt⟩ | ⟨n, rest, hscan, hlt⟩
    · refine ⟨fun h => ?_, fun h => absurd h (not_endsWith_of_stuck hstuck hends)⟩
      obtain ⟨n, -, -, hlt, -⟩ := readable_none hstuck h
      exact absurd hlt (Nat.lt_irrefl _)
    · exact decides_sign hplaced hexpected hlt hscan hends fun hrest =>
        ih (by omega) hends (placed_rest rest) hrest
    · exact decides_number hplaced hexpected hlt hscan fun hends' hrest =>
        ih (by omega) hends' (placed_rest rest) hrest

section Start

variable {menu : Menu} {input : CString} {result : List (Int × CString) × Int}
  (hexpected : expected menu (words isspace input) = some result)
include hexpected

/-- What the variable holds at first is overwritten by a number. -/
theorem endsWith_of_readable (h : Readable menu true none true input) (code : Int) (idle : Int)
    (hidle : menu.ends idle = false) : EndsWith menu code input result := by
  rcases scanfInt_cases input with hstuck | ⟨rest, hscan, -⟩ | ⟨n, rest, hscan, -⟩
  · obtain ⟨n, hnone, -⟩ := readable_none hstuck h
    cases hnone
  · obtain ⟨n, hnone, -⟩ := readable_none hscan h
    cases hnone
  · have hturn : turn code input = turn idle input := by rw [turn, turn, hscan]; rfl
    obtain ⟨k, hk⟩ := (decides menu input.length (Nat.le_refl _) hidle (placed_start input)
      hexpected).enough (readable_previous hscan h (some idle))
    cases k with
    | zero => cases hk
    | succ k => exact ⟨k + 1, by rw [loop_succ, hturn]; exact hk⟩

/-- It may hold anything, so that nothing else can come first. -/
theorem readable_of_endsWith (h : ∀ code, EndsWith menu code input result) (idle bad : Int)
    (hidle : menu.ends idle = false)
    (hbad : ∀ rest, scanfInt input = (none, rest) → rest.length < (skipWhitespaces input).length →
      ¬ EndsWith menu bad input result) : Readable menu false none true input := by
  rcases scanfInt_cases input with hstuck | ⟨rest, hscan, hlt⟩ | ⟨n, rest, hscan, -⟩
  · exact absurd (h idle) (not_endsWith_of_stuck hstuck hidle)
  · exact absurd (h bad) (hbad rest hscan hlt)
  · exact readable_previous hscan ((decides menu input.length (Nat.le_refl _) hidle
      (placed_start input) hexpected).needed (h idle)) none

end Start

/-! ## The two menus -/

/-- Some word of the input is a valid choice, and these are the words to act on before the
first such, and that choice. -/
def Asks (menu : Menu) (input : CString) (actions : List (Int × CString)) (choice : Int) : Prop :=
  expected menu (words isspace input) = some (actions, choice)

/-- Whatever its variable holds at first, `select_algorithm` returns the algorithm chosen,
and repeats no iteration without reading. -/
def SelectObeys (input : CString) (choice : Int) : Prop :=
  ∀ code, (∃ n algorithm, selectAlgorithm n code input = some algorithm ∧
    algorithmOf choice = some algorithm) ∧ AlwaysReads selectMenu code input

/-- Whatever its variable holds at first, the loop of Spy ends, having acted on these words
alone, and repeats no iteration without reading. -/
def SpyObeys (input : CString) (actions : List (Int × CString)) : Prop :=
  ∀ code, (∃ n, spyMain n code input = some actions) ∧ AlwaysReads spyMenu code input

theorem select_ends {code : Int} : selectMenu.ends code = true ↔ code = 1 ∨ code = 2 ∨ code = 3 :=
  decide_eq_true_iff

theorem spy_ends {code : Int} : spyMenu.ends code = true ↔ code = 0 := decide_eq_true_iff

/-- The choice asked for is a valid one. -/
theorem ends_of_expected {menu : Menu} : ∀ {ws : List (CString × CString)}
    {actions : List (Int × CString)} {choice : Int}, expected menu ws = some (actions, choice) →
    menu.ends choice = true := by
  intro ws
  induction ws with
  | nil => intro actions choice h; cases h
  | cons word ws ih =>
    intro actions choice h
    rw [expected] at h
    split at h
    · exact ih h
    · split at h
      · next hends =>
        obtain ⟨-, rfl⟩ := Prod.mk.inj (Option.some.inj h)
        exact hends
      · obtain ⟨⟨actions', choice'⟩, hmore, heq⟩ := Option.map_eq_some_iff.mp h
        obtain ⟨-, rfl⟩ := Prod.mk.inj heq
        exact ih hmore

/-- Every valid choice of `select_algorithm` has its own algorithm. -/
theorem algorithmOf_injective {code choice : Int} (hcode : selectMenu.ends code = true)
    (hchoice : selectMenu.ends choice = true) (h : algorithmOf code = algorithmOf choice) :
    code = choice := by
  rcases select_ends.mp hcode with rfl | rfl | rfl <;>
    rcases select_ends.mp hchoice with rfl | rfl | rfl <;> first | rfl | exact absurd h (by decide)

theorem isSome_algorithmOf {choice : Int} (h : selectMenu.ends choice = true) :
    ∃ algorithm, algorithmOf choice = some algorithm := by
  rcases select_ends.mp h with rfl | rfl | rfl
  · exact ⟨.bestFit, rfl⟩
  · exact ⟨.firstFit, rfl⟩
  · exact ⟨.worstFit, rfl⟩

theorem select_expected {ws : List (CString × CString)} {result : List (Int × CString) × Int}
    (h : expected selectMenu ws = some result) : result.1 = [] := by
  induction ws generalizing result with
  | nil => cases h
  | cons word ws ih =>
    rw [expected] at h
    split at h
    · exact ih h
    · split at h
      · exact (congrArg Prod.fst (Option.some.inj h)).symm
      · obtain ⟨later, hlater, rfl⟩ := Option.map_eq_some_iff.mp h
        exact ih hlater

theorem selectReturns_iff {input : CString} {choice : Int} (hchoice : selectMenu.ends choice = true)
    (code : Int) : (∃ n algorithm, selectAlgorithm n code input = some algorithm ∧
      algorithmOf choice = some algorithm) ↔ EndsWith selectMenu code input ([], choice) := by
  constructor
  · rintro ⟨n, algorithm, hreturn, hasked⟩
    obtain ⟨⟨acted, last⟩, hloop, hlast⟩ := Option.bind_eq_some_iff.mp hreturn
    obtain rfl : acted = [] := select_actions hloop
    obtain rfl := algorithmOf_injective (ends_of_endsWith ⟨n, hloop⟩) hchoice (hlast.trans hasked.symm)
    exact ⟨n, hloop⟩
  · rintro ⟨n, hloop⟩
    obtain ⟨algorithm, halgorithm⟩ := isSome_algorithmOf hchoice
    exact ⟨n, algorithm, by rw [selectAlgorithm, hloop]; exact halgorithm, halgorithm⟩

theorem spyReturns_iff {input : CString} {actions : List (Int × CString)} (code : Int) :
    (∃ n, spyMain n code input = some actions) ↔ EndsWith spyMenu code input (actions, 0) := by
  constructor
  · rintro ⟨n, hn⟩
    obtain ⟨⟨acted, last⟩, hloop, rfl⟩ := Option.map_eq_some_iff.mp hn
    have hlast := spy_ends.mp (ends_of_endsWith ⟨n, hloop⟩)
    exact ⟨n, by rw [hloop, hlast]⟩
  · rintro ⟨n, hloop⟩
    exact ⟨n, by rw [spyMain, hloop]; rfl⟩

theorem selectObeys_bounds {input : CString} {actions : List (Int × CString)} {choice : Int}
    (h : Asks selectMenu input actions choice) :
    (Readable selectMenu true none true input → SelectObeys input choice) ∧
      (SelectObeys input choice → Readable selectMenu false none true input) := by
  obtain rfl : actions = [] := select_expected h
  have hchoice := ends_of_expected h
  constructor
  · intro hreadable code
    have hends := endsWith_of_readable h hreadable code 0 (by decide)
    exact ⟨(selectReturns_iff hchoice code).mpr hends, alwaysReads_of_endsWith hends⟩
  · intro hobeys
    -- a choice other than the one asked for, which the variable may hold by chance
    obtain ⟨bad, hbad, hne⟩ : ∃ bad, selectMenu.ends bad = true ∧ bad ≠ choice := by
      by_cases hone : choice = 1
      · exact ⟨2, by decide, by omega⟩
      · exact ⟨1, by decide, Ne.symm hone⟩
    refine readable_of_endsWith h (fun code => (selectReturns_iff hchoice code).mp (hobeys code).1)
      0 bad (by decide) fun rest hscan _ => ?_
    have hturn : turn bad input = (bad, rest) := by rw [turn, hscan]; rfl
    rw [endsWith_of_ends (by rw [hturn]; exact hbad), hturn]
    exact fun hresult => hne (congrArg Prod.snd hresult).symm

theorem spyObeys_bounds {input : CString} {actions : List (Int × CString)} {choice : Int}
    (h : Asks spyMenu input actions choice) :
    (Readable spyMenu true none true input → SpyObeys input actions) ∧
      (SpyObeys input actions → Readable spyMenu false none true input) := by
  obtain rfl := spy_ends.mp (ends_of_expected h)
  constructor
  · intro hreadable code
    have hends := endsWith_of_readable h hreadable code 3 (by decide)
    exact ⟨(spyReturns_iff code).mpr hends, alwaysReads_of_endsWith hends⟩
  · intro hobeys
    -- 1 is an option that the variable may hold by chance
    refine readable_of_endsWith h (fun code => (spyReturns_iff code).mp (hobeys code).1)
      3 1 (by decide) fun rest hscan hlt => ?_
    have hturn : turn 1 input = (1, rest) := by rw [turn, hscan]; rfl
    rw [endsWith_of_repeats (by rw [hturn]; rfl), hturn]
    rintro ⟨later, -, hnote⟩
    exact not_noted (placed_start input) h hlt hscan (.inr rfl) rfl later hnote

/-- On an input with a valid choice, each menu does what is asked if the input is readable
for it; and only if it is readable up to a choice that stands inside a longer word. -/
theorem menus_obey_readable (input : CString) (actions : List (Int × CString)) (choice : Int) :
    (Asks selectMenu input actions choice →
      (Readable selectMenu true none true input → SelectObeys input choice) ∧
      (SelectObeys input choice → Readable selectMenu false none true input)) ∧
    (Asks spyMenu input actions choice →
      (Readable spyMenu true none true input → SpyObeys input actions) ∧
      (SpyObeys input actions → Readable spyMenu false none true input)) := by
  constructor
  · exact selectObeys_bounds
  · exact spyObeys_bounds

/-- An algorithm chosen at the second attempt, and an option of Spy before the exit. -/
theorem menus_obey_lines :
    SelectObeys ['7', '\n', '2', '\n'] 2 ∧
      SpyObeys ['2', '\n', '0', '\n'] [(2, ['\n', '0', '\n'])] := by
  have hselect : Asks selectMenu ['7', '\n', '2', '\n'] [] 2 := by
    have hwords : words isspace ['7', '\n', '2', '\n'] =
        [(['7'], ['\n', '2', '\n']), (['2'], ['\n'])] := by simp [words, isspace]
    rw [Asks, hwords]
    rfl
  have hspy : Asks spyMenu ['2', '\n', '0', '\n'] [(2, ['\n', '0', '\n'])] 0 := by
    have hwords : words isspace ['2', '\n', '0', '\n'] =
        [(['2'], ['\n', '0', '\n']), (['0'], ['\n'])] := by simp [words, isspace]
    rw [Asks, hwords]
    rfl
  constructor
  · exact ((menus_obey_readable _ _ _).1 hselect).1
      (.number rfl rfl rfl (.choice rfl rfl fun _ => ⟨rfl, rfl⟩))
  · exact ((menus_obey_readable _ _ _).2 hspy).1
      (.action rfl rfl rfl rfl (.choice rfl rfl fun _ => ⟨rfl, rfl⟩))

/-- A letter before the choice: nothing is read any more. -/
theorem select_stuck : ¬ ∀ input actions choice, Asks selectMenu input actions choice →
    SelectObeys input choice := by
  intro hclaim
  have hasks : Asks selectMenu ['x', ' ', '1'] [] 1 := by
    have hwords : words isspace ['x', ' ', '1'] = [(['x'], [' ', '1']), (['1'], [])] := by
      simp [words, isspace]
    rw [Asks, hwords]
    rfl
  obtain ⟨⟨n, algorithm, hreturn, -⟩, -⟩ := hclaim _ _ _ hasks 0
  obtain ⟨result, hloop, -⟩ := Option.bind_eq_some_iff.mp hreturn
  exact not_endsWith_of_stuck rfl (by decide) ⟨n, hloop⟩

end DynamicPartitions.Properties.Choices
