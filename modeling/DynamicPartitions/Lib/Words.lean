import Mathlib

/-!
# The words and the lines of a text

The maximal stretches of a list between separators, each with what follows it, and what
the first word says about a prefix that is read off the list. The lines keep the
separator that ends them.
-/
namespace DynamicPartitions.Lib.Words

variable {α : Type*}

/-! ## Reading less than a word -/

section Prefix

variable {p q : α → Bool} (h : ∀ a, p a = true → q a = true)
include h

theorem takeWhile_takeWhile_of_imp (l : List α) : (l.takeWhile q).takeWhile p = l.takeWhile p := by
  induction l with
  | nil => rfl
  | cons a l ih =>
    cases hp : p a with
    | true => simp [hp, h a hp, ih]
    | false => cases hq : q a <;> simp [hp, hq]

theorem dropWhile_takeWhile_of_imp (l : List α) :
    (l.takeWhile q).dropWhile p = (l.dropWhile p).takeWhile q := by
  induction l with
  | nil => rfl
  | cons a l ih =>
    cases hp : p a with
    | true => simp [hp, h a hp, ih]
    | false => cases hq : q a <;> simp [hp, hq]

theorem dropWhile_dropWhile_of_imp (l : List α) : (l.dropWhile p).dropWhile q = l.dropWhile q := by
  induction l with
  | nil => rfl
  | cons a l ih =>
    cases hp : p a with
    | true => simp [hp, h a hp, ih]
    | false => simp [hp]

end Prefix

theorem length_dropWhile_le (p : α → Bool) (l : List α) : (l.dropWhile p).length ≤ l.length :=
  (List.dropWhile_suffix p).length_le

theorem length_dropWhile_lt {p : α → Bool} {l : List α} (h : l.takeWhile p ≠ []) :
    (l.dropWhile p).length < l.length := by
  have hsplit := congrArg List.length (List.takeWhile_append_dropWhile (p := p) (l := l))
  rw [List.length_append] at hsplit
  have hpos := List.length_pos_iff.mpr h
  omega

/-! ## Words -/

/-- The words of a list, each with the part of the list behind it. -/
def words (separator : α → Bool) : List α → List (List α × List α)
  | [] => []
  | a :: l =>
    if separator a then words separator l
    else
      (a :: l.takeWhile (! separator ·), l.dropWhile (! separator ·)) ::
        words separator (l.dropWhile (! separator ·))
termination_by l => l.length
decreasing_by
  · exact Nat.lt_succ_self _
  · exact Nat.lt_succ_of_le (length_dropWhile_le _ _)

variable {separator : α → Bool}

theorem words_nil : words separator [] = [] := by rw [words]

theorem words_cons_separator {a : α} (h : separator a = true) (l : List α) :
    words separator (a :: l) = words separator l := by
  rw [words, if_pos h]

/-- A list that starts with a word. -/
theorem words_of_word {l : List α} (h : l.takeWhile (! separator ·) ≠ []) :
    words separator l = (l.takeWhile (! separator ·), l.dropWhile (! separator ·)) ::
      words separator (l.dropWhile (! separator ·)) := by
  cases l with
  | nil => exact absurd rfl h
  | cons a l =>
    cases ha : separator a with
    | true => simp [ha] at h
    | false =>
      rw [words, ha]
      simp [ha]

theorem words_dropWhile (l : List α) : words separator (l.dropWhile separator) = words separator l := by
  induction l with
  | nil => rfl
  | cons a l ih =>
    cases ha : separator a with
    | true => rw [List.dropWhile_cons_of_pos ha, words_cons_separator ha, ih]
    | false => rw [List.dropWhile_cons_of_neg (by simp [ha])]

theorem length_lt_of_mem_words : ∀ {l : List α} {word : List α × List α}, word ∈ words separator l →
    word.2.length < l.length := by
  intro l
  induction l using words.induct separator with
  | case1 => intro word hword; rw [words_nil] at hword; cases hword
  | case2 a l ha ih =>
    intro word hword
    rw [words_cons_separator ha] at hword
    exact Nat.lt_succ_of_lt (ih hword)
  | case3 a l ha ih =>
    intro word hword
    have hdrop := length_dropWhile_le (! separator ·) l
    rw [words, if_neg ha] at hword
    rw [List.length_cons]
    rcases List.mem_cons.mp hword with rfl | hrest
    · exact Nat.lt_succ_of_le hdrop
    · have hlt := ih hrest
      omega

/-! ## Lines -/

/-- The lines of a list, each with the separator behind it; the last may have none. -/
def lines (separator : α → Bool) : List α → List (List α)
  | [] => []
  | a :: l =>
    if separator a then [a] :: lines separator l
    else match lines separator l with
      | [] => [[a]]
      | line :: others => (a :: line) :: others

/-- A line grows by what is put in front of it. -/
theorem lines_cons {l line : List α} {others : List (List α)} (h : lines separator l = line :: others)
    {a : α} (ha : separator a = false) : lines separator (a :: l) = (a :: line) :: others := by
  rw [lines, ha, h]
  rfl

theorem lines_append {line : List α} (h : ∀ a ∈ line, separator a = false) {last : α}
    (hlast : separator last = true) (l : List α) :
    lines separator (line ++ last :: l) = (line ++ [last]) :: lines separator l := by
  induction line with
  | nil => simp [lines, hlast]
  | cons a line ih =>
    have ha := h a List.mem_cons_self
    have hline := ih fun b hb => h b (List.mem_cons_of_mem a hb)
    rw [List.cons_append]
    exact lines_cons hline ha

/-- Lines written one after another are read one after another. -/
theorem lines_flatMap {β : Type*} (render : β → List α) {last : α} (hlast : separator last = true)
    (l : List α) : ∀ {items : List β}, (∀ item ∈ items, ∀ a ∈ render item, separator a = false) →
      lines separator (items.flatMap (fun item => render item ++ [last]) ++ l) =
        items.map (fun item => render item ++ [last]) ++ lines separator l := by
  intro items
  induction items with
  | nil => intro _; rfl
  | cons item items ih =>
    intro h
    have hitems := ih fun other hother => h other (List.mem_cons_of_mem item hother)
    have hfirst := lines_append (h item List.mem_cons_self) hlast
      (items.flatMap (fun item => render item ++ [last]) ++ l)
    rw [List.flatMap_cons, List.map_cons, List.cons_append, ← hitems, ← hfirst]
    simp

/-- A text that ends with a separator keeps its lines whatever follows it. -/
theorem lines_complete_append {l : List α} (h : ∀ a ∈ l.getLast?, separator a = true) (m : List α) :
    lines separator (l ++ m) = lines separator l ++ lines separator m := by
  induction l with
  | nil => rfl
  | cons a l ih =>
    cases ha : separator a with
    | true =>
      have hrest : ∀ b ∈ l.getLast?, separator b = true := by
        intro b hb
        refine h b ?_
        rw [List.getLast?_cons, Option.mem_def.mp hb]
        rfl
      simp only [List.cons_append, lines, ha, if_true, ih hrest]
    | false =>
      cases l with
      | nil =>
        rw [h a rfl] at ha
        cases ha
      | cons b l =>
        have hrest := ih (by simpa using h)
        obtain ⟨line, others, hlines⟩ : ∃ line others, lines separator (b :: l) = line :: others := by
          rw [lines]
          split
          · exact ⟨_, _, rfl⟩
          · split <;> exact ⟨_, _, rfl⟩
        rw [hlines, List.cons_append] at hrest
        rw [lines_cons hlines ha, List.cons_append]
        exact lines_cons hrest ha

/-! ## Looking for a word without separators -/

/-- What does not hold a separator lies on one side of it. -/
theorem isInfix_append_cons_iff {needle left right : List α} {a : α} (h : a ∉ needle) :
    needle <:+: left ++ a :: right ↔ needle <:+: left ∨ needle <:+: right := by
  constructor
  · rintro ⟨before, behind, heq⟩
    rw [List.append_assoc] at heq
    rcases List.append_eq_append_iff.mp heq with ⟨tail, rfl, htail⟩ | ⟨tail, rfl, htail⟩
    · rcases List.append_eq_append_iff.mp htail with ⟨more, rfl, hmore⟩ | ⟨more, rfl, hmore⟩
      · exact .inl ⟨before, more, by rw [List.append_assoc]⟩
      · cases more with
        | nil => exact .inl ⟨before, [], by simp⟩
        | cons b more =>
          obtain ⟨rfl, -⟩ := List.cons.inj hmore
          exact absurd (List.mem_append_right tail List.mem_cons_self) h
    · cases tail with
      | nil =>
        cases needle with
        | nil => exact .inl (List.nil_infix)
        | cons b needle =>
          obtain ⟨rfl, -⟩ := List.cons.inj htail
          exact absurd List.mem_cons_self h
      | cons b tail =>
        obtain ⟨-, rfl⟩ := List.cons.inj htail
        exact .inr ⟨tail, behind, List.append_assoc tail needle behind⟩
  · rintro (hleft | hright)
    · exact hleft.trans ⟨[], a :: right, by simp⟩
    · exact hright.trans ⟨left ++ [a], [], by simp⟩

/-- What has no symbol in common with the left part lies in the right one. -/
theorem infix_of_infix_append {needle right : List α} (hne : needle ≠ []) {left : List α}
    (hleft : ∀ a ∈ left, a ∉ needle) (h : needle <:+: left ++ right) : needle <:+: right := by
  induction left with
  | nil => exact h
  | cons a left ih =>
    have hrest : ∀ b ∈ left, b ∉ needle := fun b hb => hleft b (List.mem_cons_of_mem a hb)
    rw [List.cons_append, List.infix_cons_iff] at h
    rcases h with hprefix | hinfix
    · cases needle with
      | nil => exact absurd rfl hne
      | cons b needle =>
        obtain ⟨rfl, -⟩ := List.cons_prefix_cons.mp hprefix
        exact absurd List.mem_cons_self (hleft b List.mem_cons_self)
    · exact ih hrest hinfix

end DynamicPartitions.Lib.Words
