import DynamicPartitions.Lib.Words
import DynamicPartitions.Program.Algorithms
import DynamicPartitions.Parson.RoundTrip

/-!
# The menus

`select_algorithm` and the `main` of `spy.c` read a choice with `scanf` until they get
one that ends them. The result of `scanf` is not looked at: after a conversion that
fails the variable still holds what it held before, at first whatever was in its place.
-/
namespace DynamicPartitions.Program.Menus

open Relation
open DynamicPartitions.Lib.Words
open DynamicPartitions.Parson.Value
open DynamicPartitions.Parson.Parser
open DynamicPartitions.Parson.RoundTrip
open DynamicPartitions.Program.Algorithms

/-- The digits of a conversion, behind the sign. -/
def convert (negative : Bool) (body : CString) : Option Int × CString :=
  let digits := body.takeWhile Char.isDigit
  if digits = [] then (none, body)
  else
    let magnitude : Int := Nat.ofDigitChars 10 digits 0
    (some (if negative then -magnitude else magnitude), body.dropWhile Char.isDigit)

/-- `scanf("%d")`: what is assigned, if anything, and what stays unread. A sign is gone
even when no digit follows it. -/
def scanfInt (input : CString) : Option Int × CString :=
  match skipWhitespaces input with
  | '-' :: body => convert true body
  | '+' :: body => convert false body
  | text => convert false text

/-- What the `switch` of a loop does with a code. -/
structure Menu where
  ends : Int → Bool
  acts : Int → Bool

/-- One iteration up to the `switch`: the code and the unread input. -/
def turn (code : Int) (input : CString) : Int × CString :=
  ((scanfInt input).1.getD code, (scanfInt input).2)

/-- The actions of a loop with the one of this iteration, if there is one, put first. -/
def Menu.note (menu : Menu) (code : Int) (input : CString) (later : List (Int × CString) × Int) :
    List (Int × CString) × Int :=
  (if menu.acts code then (code, input) :: later.1 else later.1, later.2)

theorem Menu.note_injective (menu : Menu) {code : Int} {input : CString}
    {later later' : List (Int × CString) × Int}
    (h : menu.note code input later = menu.note code input later') : later = later' := by
  obtain ⟨hactions, hlast⟩ := Prod.mk.inj h
  refine Prod.ext ?_ hlast
  split at hactions
  · exact (List.cons.inj hactions).2
  · exact hactions

/-- The loop, for at most `n` iterations: the codes acted on, each with the input then
unread, and the code that ended it. -/
def loop (menu : Menu) : Nat → Int → CString → Option (List (Int × CString) × Int)
  | 0, _, _ => none
  | n + 1, code, input =>
    let (code, input) := turn code input
    if menu.ends code then some ([], code)
    else (loop menu n code input).map (menu.note code input)

theorem loop_succ (menu : Menu) (n : Nat) (code : Int) (input : CString) :
    loop menu (n + 1) code input =
      if menu.ends (turn code input).1 then some ([], (turn code input).1)
      else (loop menu n (turn code input).1 (turn code input).2).map
        (menu.note (turn code input).1 (turn code input).2) := rfl

/-- The menu of `select_algorithm`. -/
def selectMenu : Menu := ⟨fun code => code = 1 ∨ code = 2 ∨ code = 3, fun _ => false⟩

def algorithmOf (code : Int) : Option Algorithm :=
  if code = 1 then some .bestFit
  else if code = 2 then some .firstFit
  else if code = 3 then some .worstFit
  else none

/-- `select_algorithm`, for at most `n` iterations and what its variable holds at first. -/
def selectAlgorithm (n : Nat) (code : Int) (input : CString) : Option Algorithm :=
  (loop selectMenu n code input).bind fun (_, last) => algorithmOf last

/-- The menu of Spy: 0 ends it, 1 shows the memory, 2 the processes. -/
def spyMenu : Menu := ⟨fun code => code = 0, fun code => code = 1 ∨ code = 2⟩

/-- `main` of `spy.c`: the options shown, in order. -/
def spyMain (n : Nat) (code : Int) (input : CString) : Option (List (Int × CString)) :=
  (loop spyMenu n code input).map Prod.fst

/-! ## What a conversion reads -/

theorem not_isspace_of_isDigit : ∀ c : Char, c.isDigit = true → (! isspace c) = true := by
  intro c h
  rw [isspace_of_isDigit h]
  rfl

theorem convert_cases (negative : Bool) (body : CString) :
    convert negative body = (none, body) ∨
      ∃ n rest, convert negative body = (some n, rest) ∧ rest.length < body.length := by
  unfold convert
  by_cases h : body.takeWhile Char.isDigit = []
  · exact .inl (if_pos h)
  · exact .inr ⟨_, _, if_neg h, length_dropWhile_lt h⟩

theorem skipWhitespaces_skip (input : CString) :
    skipWhitespaces (skipWhitespaces input) = skipWhitespaces input := by
  unfold skipWhitespaces
  exact dropWhile_dropWhile_of_imp (fun _ h => h) input

theorem scanfInt_skip (input : CString) : scanfInt (skipWhitespaces input) = scanfInt input := by
  unfold scanfInt
  rw [skipWhitespaces_skip]

/-- A conversion reads nothing but whitespace, or a sign, or a number. -/
theorem scanfInt_cases (input : CString) :
    scanfInt input = (none, skipWhitespaces input) ∨
    (∃ rest, scanfInt input = (none, rest) ∧ rest.length < (skipWhitespaces input).length) ∨
    ∃ n rest, scanfInt input = (some n, rest) ∧ rest.length < (skipWhitespaces input).length := by
  have hsigned : ∀ negative (c : Char) body, skipWhitespaces input = c :: body →
      scanfInt input = convert negative body →
      (∃ rest, scanfInt input = (none, rest) ∧ rest.length < (skipWhitespaces input).length) ∨
      ∃ n rest, scanfInt input = (some n, rest) ∧ rest.length < (skipWhitespaces input).length := by
    intro negative c body htext hscan
    rw [hscan, htext, List.length_cons]
    rcases convert_cases negative body with hnone | ⟨n, rest, hsome, hlt⟩
    · exact .inl ⟨body, hnone, Nat.lt_succ_self _⟩
    · exact .inr ⟨n, rest, hsome, Nat.lt_succ_of_lt hlt⟩
  cases htext : skipWhitespaces input with
  | nil => exact .inl (by rw [scanfInt, htext]; rfl)
  | cons c body =>
    rw [← htext]
    by_cases hminus : c = '-'
    · subst hminus
      exact .inr (hsigned true '-' body htext (by simp only [scanfInt, htext]))
    · by_cases hplus : c = '+'
      · subst hplus
        exact .inr (hsigned false '+' body htext (by simp only [scanfInt, htext]))
      · have hscan : scanfInt input = convert false (skipWhitespaces input) := by
          rw [scanfInt, htext]
          split <;> simp_all
        rw [hscan]
        exact (convert_cases false _).imp id Or.inr

theorem convert_word (negative : Bool) (body : CString) :
    convert negative (body.takeWhile (! isspace ·)) =
      ((convert negative body).1, (convert negative body).2.takeWhile (! isspace ·)) ∧
    (convert negative body).2.dropWhile (! isspace ·) = body.dropWhile (! isspace ·) := by
  have hdigits := takeWhile_takeWhile_of_imp not_isspace_of_isDigit body
  have hrest := dropWhile_takeWhile_of_imp not_isspace_of_isDigit body
  have hbehind := dropWhile_dropWhile_of_imp not_isspace_of_isDigit body
  unfold convert
  rw [hdigits, hrest]
  by_cases h : body.takeWhile Char.isDigit = []
  · simp only [h, if_true, true_and]
  · simp only [h, if_false, true_and]
    exact hbehind

/-- A conversion at the start of a word reads no further than the word. -/
theorem scanfInt_word {text : CString} (h : text.takeWhile (! isspace ·) ≠ []) :
    scanfInt (text.takeWhile (! isspace ·)) =
      ((scanfInt text).1, (scanfInt text).2.takeWhile (! isspace ·)) ∧
    (scanfInt text).2.dropWhile (! isspace ·) = text.dropWhile (! isspace ·) := by
  cases text with
  | nil => exact absurd rfl h
  | cons c body =>
    cases hspace : isspace c with
    | true => simp [hspace] at h
    | false =>
      have hword : (c :: body).takeWhile (! isspace ·) = c :: body.takeWhile (! isspace ·) :=
        List.takeWhile_cons_of_pos (by rw [hspace]; rfl)
      have hbehind : (c :: body).dropWhile (! isspace ·) = body.dropWhile (! isspace ·) :=
        List.dropWhile_cons_of_pos (by rw [hspace]; rfl)
      have hskip : ∀ rest, skipWhitespaces (c :: rest) = c :: rest := fun rest =>
        skipWhitespaces_cons rest hspace
      by_cases hminus : c = '-'
      · subst hminus
        simp only [hword, hbehind, scanfInt, hskip]
        exact convert_word true body
      · by_cases hplus : c = '+'
        · subst hplus
          simp only [hword, hbehind, scanfInt, hskip]
          exact convert_word false body
        · have hscan : ∀ rest, scanfInt (c :: rest) = convert false (c :: rest) := by
            intro rest
            rw [scanfInt, hskip]
            split <;> simp_all
          have hconvert := convert_word false (c :: body)
          rw [hword] at hconvert
          rw [hword, hscan, hscan]
          exact hconvert

/-! ## The loop -/

/-- The loop ends with a result. -/
def EndsWith (menu : Menu) (code : Int) (input : CString) (result : List (Int × CString) × Int) :
    Prop :=
  ∃ n, loop menu n code input = some result

section Loop

variable {menu : Menu} {code : Int} {input : CString} {result : List (Int × CString) × Int}

theorem endsWith_of_ends (h : menu.ends (turn code input).1 = true) :
    EndsWith menu code input result ↔ result = ([], (turn code input).1) := by
  constructor
  · rintro ⟨n, hn⟩
    cases n with
    | zero => cases hn
    | succ n =>
      rw [loop_succ, if_pos h] at hn
      exact (Option.some.inj hn).symm
  · rintro rfl
    exact ⟨1, by rw [loop_succ, if_pos h]⟩

theorem endsWith_of_repeats (h : menu.ends (turn code input).1 = false) :
    EndsWith menu code input result ↔ ∃ later,
      EndsWith menu (turn code input).1 (turn code input).2 later ∧
      result = menu.note (turn code input).1 (turn code input).2 later := by
  have hneg : ¬ menu.ends (turn code input).1 = true := by rw [h]; exact Bool.false_ne_true
  constructor
  · rintro ⟨n, hn⟩
    cases n with
    | zero => cases hn
    | succ n =>
      rw [loop_succ, if_neg hneg] at hn
      obtain ⟨later, hlater, rfl⟩ := Option.map_eq_some_iff.mp hn
      exact ⟨later, ⟨n, hlater⟩, rfl⟩
  · rintro ⟨later, ⟨n, hn⟩, rfl⟩
    refine ⟨n + 1, ?_⟩
    rw [loop_succ, if_neg hneg, hn]
    rfl

/-- An iteration that changes nothing is repeated for ever. -/
theorem not_endsWith_of_idle (hturn : turn code input = (code, input))
    (h : menu.ends code = false) : ¬ EndsWith menu code input result := by
  rintro ⟨n, hn⟩
  induction n generalizing result with
  | zero => cases hn
  | succ n ih =>
    rw [loop_succ, hturn] at hn
    simp only [h, Bool.false_eq_true, if_false] at hn
    obtain ⟨later, hlater, -⟩ := Option.map_eq_some_iff.mp hn
    exact ih hlater

/-- So is one that reads nothing but whitespace. -/
theorem not_endsWith_of_stuck (hscan : scanfInt input = (none, skipWhitespaces input))
    (h : menu.ends code = false) : ¬ EndsWith menu code input result := by
  have hturn : turn code input = (code, skipWhitespaces input) := by rw [turn, hscan]; rfl
  have hidle : turn code (skipWhitespaces input) = (code, skipWhitespaces input) := by
    rw [turn, scanfInt_skip, hscan]
    rfl
  rw [endsWith_of_repeats (by rw [hturn]; exact h), hturn]
  rintro ⟨later, hlater, -⟩
  exact not_endsWith_of_idle hidle h hlater

end Loop

/-! ## No iteration without input -/

/-- An iteration that repeats, on code and unread input. -/
def Repeats (menu : Menu) (s t : Int × CString) : Prop :=
  t = turn s.1 s.2 ∧ menu.ends t.1 = false

/-- Every iteration that repeats has read something. -/
def AlwaysReads (menu : Menu) (code : Int) (input : CString) : Prop :=
  ∀ s t, ReflTransGen (Repeats menu) (code, input) s → Repeats menu s t → t.2.length < s.2.length

theorem scanfInt_eq_of_length {input : CString} (h : input.length ≤ (scanfInt input).2.length) :
    scanfInt input = (none, input) := by
  have hskip : (skipWhitespaces input).length ≤ input.length := length_dropWhile_le _ _
  rcases scanfInt_cases input with hstuck | ⟨rest, hscan, hlt⟩ | ⟨n, rest, hscan, hlt⟩
  · have hsame : skipWhitespaces input = input := by
      refine (List.dropWhile_suffix isspace).eq_of_length ?_
      rw [hstuck] at h
      exact Nat.le_antisymm hskip h
    rw [hstuck, hsame]
  · rw [hscan] at h
    exact absurd (Nat.lt_of_lt_of_le hlt hskip) (Nat.not_lt.mpr h)
  · rw [hscan] at h
    exact absurd (Nat.lt_of_lt_of_le hlt hskip) (Nat.not_lt.mpr h)

/-- A loop that ends has read something in every iteration before. -/
theorem alwaysReads_of_endsWith {menu : Menu} {code : Int} {input : CString}
    {result : List (Int × CString) × Int} (h : EndsWith menu code input result) :
    AlwaysReads menu code input := by
  intro s t hreach hrepeats
  have hends : ∃ result, EndsWith menu s.1 s.2 result := by
    clear hrepeats
    induction hreach with
    | refl => exact ⟨result, h⟩
    | @tail s t _ hlast ih =>
      obtain ⟨result, hresult⟩ := ih
      obtain ⟨rfl, hends⟩ := hlast
      obtain ⟨later, hlater, -⟩ := (endsWith_of_repeats hends).mp hresult
      exact ⟨later, hlater⟩
  obtain ⟨rfl, hrepeats⟩ := hrepeats
  obtain ⟨result, hresult⟩ := hends
  by_contra hle
  have hscan := scanfInt_eq_of_length (Nat.not_lt.mp hle)
  have hturn : turn s.1 s.2 = (s.1, s.2) := by rw [turn, hscan]; rfl
  rw [hturn] at hrepeats
  exact not_endsWith_of_idle hturn hrepeats hresult

/-! ## How a loop ends -/

/-- A loop ends with a code that ends it. -/
theorem ends_of_endsWith {menu : Menu} {code : Int} {input : CString}
    {actions : List (Int × CString)} {last : Int} (h : EndsWith menu code input (actions, last)) :
    menu.ends last = true := by
  obtain ⟨n, hn⟩ := h
  induction n generalizing code input actions with
  | zero => cases hn
  | succ n ih =>
    rw [loop_succ] at hn
    split at hn
    · next hends =>
      obtain ⟨-, rfl⟩ := Prod.mk.inj (Option.some.inj hn)
      exact hends
    · obtain ⟨⟨actions', last'⟩, hlater, heq⟩ := Option.map_eq_some_iff.mp hn
      obtain ⟨-, rfl⟩ := Prod.mk.inj heq
      exact ih hlater

/-- `select_algorithm` acts on nothing. -/
theorem select_actions {n : Nat} {code : Int} {input : CString}
    {result : List (Int × CString) × Int} (h : loop selectMenu n code input = some result) :
    result.1 = [] := by
  induction n generalizing code input result with
  | zero => cases h
  | succ n ih =>
    rw [loop_succ] at h
    split at h
    · exact (congrArg Prod.fst (Option.some.inj h)).symm
    · obtain ⟨later, hlater, rfl⟩ := Option.map_eq_some_iff.mp h
      exact ih hlater

end DynamicPartitions.Program.Menus
