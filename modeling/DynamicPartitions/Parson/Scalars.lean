import DynamicPartitions.Parson.Serializer

/-!
# Numbers and strings survive printing and parsing

The text of a number is read back as that number whatever delimiter follows it, and
the text of a string as that string. The keys of a process table are decimal thread
ids, so distinct ids have distinct keys.
-/
namespace DynamicPartitions.Parson.Scalars

open DynamicPartitions.Parson.Value
open DynamicPartitions.Parson.Parser
open DynamicPartitions.Parson.Serializer

/-- What may stand behind a value: the end, a comma, a line break or a closing bracket. -/
def Delimited (rest : CString) : Prop := ∀ c ∈ rest.head?, c ∈ [',', '\n', ']', '}']

theorem delimited_nil : Delimited [] := by simp [Delimited]

theorem delimited_cons {c : Char} (rest : CString) (h : c ∈ [',', '\n', ']', '}']) :
    Delimited (c :: rest) := by
  simpa [Delimited] using h

/-! ## Numbers -/

theorem isDigit_of_mem_toDigits {n : Nat} {c : Char} (h : c ∈ Nat.toDigits 10 n) : c.isDigit :=
  Nat.isDigit_of_mem_toDigits (by decide) (by decide) h

theorem digit_ne {c : Char} (h : c.isDigit = true) {x : Char} (hx : x.isDigit = false) : c ≠ x := by
  rintro rfl
  simp [h] at hx

/-- The digits of a number, cut off where the digits end. -/
theorem takeWhile_toDigits (n : Nat) {rest : CString} (h : ∀ c ∈ rest.head?, c.isDigit = false) :
    (Nat.toDigits 10 n ++ rest).takeWhile Char.isDigit = Nat.toDigits 10 n ∧
    (Nat.toDigits 10 n ++ rest).dropWhile Char.isDigit = rest := by
  have hall : ∀ c ∈ Nat.toDigits 10 n, c.isDigit = true := fun c hc => isDigit_of_mem_toDigits hc
  rw [List.takeWhile_append_of_pos hall, List.dropWhile_append_of_pos hall]
  cases rest with
  | nil => simp
  | cons c rest =>
    have hc := h c (by simp)
    simp [hc]

theorem strtodTail_delimited (value : Int) {rest : CString} (h : Delimited rest) :
    strtodTail value rest = some (value, rest) := by
  cases rest with
  | nil => rfl
  | cons c rest =>
    have hc := h c (by simp)
    simp only [List.mem_cons, List.not_mem_nil, or_false] at hc
    rcases hc with rfl | rfl | rfl | rfl <;> rfl

theorem strtodTail_zeros (value : Int) {rest : CString} (h : Delimited rest) :
    strtodTail value (['.', '0', '0', '0', '0', '0', '0'] ++ rest) = some (value, rest) := by
  cases rest with
  | nil => rfl
  | cons c rest =>
    have hc := h c (by simp)
    simp only [List.mem_cons, List.not_mem_nil, or_false] at hc
    rcases hc with rfl | rfl | rfl | rfl <;> rfl

theorem strtod_unsigned {text : CString} (hsign : text.head? ≠ some '-')
    (hdigits : text.takeWhile Char.isDigit ≠ []) :
    strtod text = strtodTail (Nat.ofDigitChars 10 (text.takeWhile Char.isDigit) 0)
      (text.dropWhile Char.isDigit) := by
  unfold strtod
  split
  next negative body heq =>
    split at heq
    · simp at hsign
    · obtain ⟨rfl, rfl⟩ := Prod.mk.inj heq
      simp only [if_neg hdigits, Bool.false_eq_true, if_false]

/-- `strtod` takes exactly the decimal spelling of an integer. -/
theorem strtod_decimal (n : Int) (rest : CString) (h : ∀ c ∈ rest.head?, c.isDigit = false) :
    strtod (decimal n ++ rest) = strtodTail n rest := by
  obtain ⟨htake, hdrop⟩ := takeWhile_toDigits n.natAbs h
  have hne : Nat.toDigits 10 n.natAbs ≠ [] := Nat.toDigits_ne_nil
  unfold decimal
  by_cases hn : n < 0
  · simp only [if_pos hn, List.cons_append, strtod, htake, hdrop, if_neg hne, if_true,
      Nat.ofDigitChars_ten_toDigits]
    congr 1
    omega
  · obtain ⟨d, ds, hds⟩ := List.exists_cons_of_ne_nil hne
    have hd : d ≠ '-' := digit_ne (isDigit_of_mem_toDigits (hds ▸ List.mem_cons_self)) rfl
    have hbody : strtod (Nat.toDigits 10 n.natAbs ++ rest) =
        strtodTail (Nat.ofDigitChars 10 (Nat.toDigits 10 n.natAbs) 0) rest := by
      rw [strtod_unsigned (by rw [hds]; simpa using hd) (by rwa [htake]), htake, hdrop]
    rw [if_neg hn, hbody, Nat.ofDigitChars_ten_toDigits]
    congr 1
    omega

theorem toDigits_head_pos {n : Nat} (hn : 0 < n) {ds : CString} {d : Char}
    (h : Nat.toDigits 10 n = d :: ds) : d ≠ '0' := by
  induction n using Nat.strong_induction_on generalizing ds with
  | h n ih =>
    by_cases hlt : n < 10
    · rw [Nat.toDigits_of_lt_base hlt] at h
      obtain ⟨rfl, -⟩ := List.cons.inj h
      interval_cases n <;> decide
    · rw [Nat.toDigits_of_base_le (by decide) (by omega)] at h
      obtain ⟨e, es, hes⟩ := List.exists_cons_of_ne_nil (Nat.toDigits_ne_nil (n := n / 10) (b := 10))
      rw [hes, List.cons_append] at h
      obtain ⟨rfl, -⟩ := List.cons.inj h
      exact ih (n / 10) (by omega) (by omega) hes

theorem not_x_of_mem_decimal {n : Int} {c : Char} (h : c ∈ decimal n) : c ≠ 'x' ∧ c ≠ 'X' := by
  have hdigits : ∀ c ∈ Nat.toDigits 10 n.natAbs, c ≠ 'x' ∧ c ≠ 'X' := fun c hc =>
    ⟨digit_ne (isDigit_of_mem_toDigits hc) rfl, digit_ne (isDigit_of_mem_toDigits hc) rfl⟩
  unfold decimal at h
  split at h
  · rcases List.mem_cons.mp h with rfl | hc
    · decide
    · exact hdigits c hc
  · exact hdigits c h

/-- The digits of a number start with a zero only if they are that one zero. -/
theorem toDigits_cases (n : Nat) :
    (Nat.toDigits 10 n = ['0'] ∧ n = 0) ∨ ∃ d ds, Nat.toDigits 10 n = d :: ds ∧ d ≠ '0' ∧ d.isDigit := by
  rcases Nat.eq_zero_or_pos n with rfl | hn
  · exact .inl ⟨Nat.toDigits_zero 10, rfl⟩
  · obtain ⟨d, ds, hds⟩ := List.exists_cons_of_ne_nil (Nat.toDigits_ne_nil (n := n) (b := 10))
    exact .inr ⟨d, ds, hds, toDigits_head_pos hn hds,
      isDigit_of_mem_toDigits (hds ▸ List.mem_cons_self)⟩

theorem isDecimal_decimal (n : Int) (tail : CString) (htail : tail.head? = some '.' ∨ tail = [])
    (hx : ∀ c ∈ tail, c ≠ 'x' ∧ c ≠ 'X') : isDecimal (decimal n ++ tail) = true := by
  have hall : ((decimal n ++ tail).all fun c => c != 'x' && c != 'X') = true := by
    rw [List.all_eq_true]
    intro c hc
    have hne : c ≠ 'x' ∧ c ≠ 'X' := by
      rcases List.mem_append.mp hc with hd | ht
      · exact not_x_of_mem_decimal hd
      · exact hx c ht
    simpa using hne
  unfold isDecimal
  rw [hall, Bool.and_true]
  split
  · next c rest heq =>
    -- a leading zero is the whole integer part
    unfold decimal at heq
    split at heq
    · simp at heq
    · rcases toDigits_cases n.natAbs with ⟨hz, -⟩ | ⟨d, ds, hds, hd, -⟩
      · rw [hz] at heq
        rcases htail with hdot | rfl
        · cases tail <;> simp_all
        · simp at heq
      · rw [hds] at heq
        exact absurd (List.cons.inj heq).1 hd
  · next c rest heq =>
    unfold decimal at heq
    split at heq
    · next hneg =>
      rcases toDigits_cases n.natAbs with ⟨-, hz⟩ | ⟨d, ds, hds, hd, -⟩
      · omega
      · rw [hds] at heq
        simp only [List.cons_append, List.cons.injEq, true_and] at heq
        exact absurd heq.1 hd
    · rcases toDigits_cases n.natAbs with ⟨hz, -⟩ | ⟨d, ds, hds, -, hdig⟩
      · rw [hz] at heq
        simp at heq
      · rw [hds] at heq
        exact absurd (List.cons.inj heq).1 (digit_ne hdig rfl)
  · rfl

/-- A printed number is read back, and nothing behind it. -/
theorem parseNumberValue_serialize (n : Int) {rest : CString} (h : Delimited rest) :
    parseNumberValue (serializeNumber n ++ rest) = some (.number n, rest) := by
  have hdigit : ∀ c ∈ rest.head?, c.isDigit = false := by
    intro c hc
    have hmem := h c hc
    simp only [List.mem_cons, List.not_mem_nil, or_false] at hmem
    rcases hmem with rfl | rfl | rfl | rfl <;> rfl
  have hplain : parseNumberValue (decimal n ++ rest) = some (.number n, rest) := by
    have hdec := isDecimal_decimal n [] (.inr rfl) (by simp)
    rw [List.append_nil] at hdec
    simp [parseNumberValue, strtod_decimal n rest hdigit, strtodTail_delimited n h, hdec]
  unfold serializeNumber
  split
  · exact hplain
  · split
    · exact hplain
    · have hdec := isDecimal_decimal n ['.', '0', '0', '0', '0', '0', '0'] (.inl rfl)
        (by simp)
      have hstrtod : strtod (decimal n ++ (['.', '0', '0', '0', '0', '0', '0'] ++ rest)) =
          some (n, rest) := by
        rw [strtod_decimal n _ (by simp), strtodTail_zeros n h]
      rw [List.append_assoc]
      unfold parseNumberValue
      rw [hstrtod]
      simp only [Option.bind_eq_bind, Option.bind_some]
      rw [← List.append_assoc, List.length_append, Nat.add_sub_cancel, List.take_left, if_pos hdec]

theorem decimal_natCast (n : Nat) : decimal n = Nat.toDigits 10 n := by
  unfold decimal
  rw [if_neg (by omega), Int.natAbs_natCast]

/-- Decimal spellings are keys: distinct numbers are spelled differently. -/
theorem decimal_injective : Function.Injective decimal := by
  intro m n h
  have hm := strtod_decimal m [] (by simp)
  have hn := strtod_decimal n [] (by simp)
  rw [h, hn] at hm
  simpa [strtodTail, eq_comm] using hm

/-! ## Strings -/

theorem hexCharToInt_hexDigit : ∀ n < 16, hexCharToInt (hexDigit n) = some n := by decide

/-- Reading one printed character back. -/
theorem processStringLoop_escape (c : Char) (rest output : CString) (fuel : Nat)
    (h : processStringLoop fuel rest = some output) :
    processStringLoop (fuel + 1) (escapeChar c ++ rest) = some (c :: output) := by
  unfold escapeChar
  split_ifs with h1 h2 h3 h4 h5 h6 h7 h8 h9
  case pos =>
    subst h1
    simp [processStringLoop, simpleEscape, h]
  case pos =>
    subst h2
    simp [processStringLoop, simpleEscape, h]
  case pos =>
    subst h3
    simp [processStringLoop, simpleEscape, h]
  case pos =>
    subst h4
    simp [processStringLoop, simpleEscape, h]
  case pos =>
    subst h5
    simp [processStringLoop, simpleEscape, h]
  case pos =>
    subst h6
    simp [processStringLoop, simpleEscape, h]
  case pos =>
    subst h7
    simp [processStringLoop, simpleEscape, h]
  case pos =>
    subst h8
    simp [processStringLoop, simpleEscape, h]
  case pos =>
    have hzero : hexCharToInt '0' = some 0 := by decide
    have hhigh := hexCharToInt_hexDigit (c.toNat / 16) (by omega)
    have hlow := hexCharToInt_hexDigit (c.toNat % 16) (by omega)
    have hcode : c.toNat / 16 * 16 + c.toNat % 16 = c.toNat := by omega
    have hlt : c.toNat < 0x80 := by omega
    have hutf : parseUtf16 ('0' :: '0' :: hexDigit (c.toNat / 16) :: hexDigit (c.toNat % 16) :: rest) =
        some ([c], rest) := by
      simp [parseUtf16, parseUtf16Hex, hzero, hhigh, hlow, hcode, hlt, Char.ofNat_toNat]
    simp [processStringLoop, hutf, h]
  case neg =>
    simp [processStringLoop, h2, h9, h]

theorem processStringLoop_flatMap (s : CString) :
    ∀ fuel, s.length ≤ fuel → processStringLoop fuel (s.flatMap escapeChar) = some s := by
  induction s with
  | nil => intro fuel _; cases fuel <;> rfl
  | cons c s ih =>
    intro fuel hfuel
    obtain ⟨fuel, rfl⟩ : ∃ k, fuel = k + 1 := ⟨fuel - 1, by simp at hfuel; omega⟩
    rw [List.flatMap_cons]
    exact processStringLoop_escape c _ _ fuel (ih fuel (by simpa using hfuel))

theorem escapeChar_ne_nil (c : Char) : escapeChar c ≠ [] := by
  unfold escapeChar
  split_ifs <;> simp

theorem length_le_flatMap_escape (s : CString) : s.length ≤ (s.flatMap escapeChar).length := by
  induction s with
  | nil => simp
  | cons c s ih =>
    have hpos := List.length_pos_of_ne_nil (escapeChar_ne_nil c)
    rw [List.flatMap_cons, List.length_append, List.length_cons]
    omega

theorem skipQuotesLoop_quote (rest : CString) : skipQuotesLoop ('"' :: rest) = some ([], rest) := by
  rw [skipQuotesLoop.eq_def]
  simp

theorem skipQuotesLoop_backslash {escape : Char} {text inner rest : CString}
    (h : skipQuotesLoop text = some (inner, rest)) :
    skipQuotesLoop ('\\' :: escape :: text) = some ('\\' :: escape :: inner, rest) := by
  rw [skipQuotesLoop.eq_def]
  simp [h]

theorem skipQuotesLoop_plain {c : Char} {text inner rest : CString} (hq : c ≠ '"') (hb : c ≠ '\\')
    (h : skipQuotesLoop text = some (inner, rest)) :
    skipQuotesLoop (c :: text) = some (c :: inner, rest) := by
  rw [skipQuotesLoop.eq_def]
  simp [hq, hb, h]

theorem skipQuotesLoop_escape (c : Char) (text inner rest : CString)
    (h : skipQuotesLoop text = some (inner, rest)) :
    skipQuotesLoop (escapeChar c ++ text) = some (escapeChar c ++ inner, rest) := by
  unfold escapeChar
  split_ifs with h1 h2 h3 h4 h5 h6 h7 h8 h9
  iterate 8 · exact skipQuotesLoop_backslash h
  · -- the hexadecimal digits are neither quotes nor backslashes
    have hplain : ∀ n < 16, hexDigit n ≠ '"' ∧ hexDigit n ≠ '\\' := by decide
    obtain ⟨hhigh, hhigh'⟩ := hplain (c.toNat / 16) (by omega)
    obtain ⟨hlow, hlow'⟩ := hplain (c.toNat % 16) (by omega)
    refine skipQuotesLoop_backslash (skipQuotesLoop_plain (by decide) (by decide) ?_)
    refine skipQuotesLoop_plain (by decide) (by decide) (skipQuotesLoop_plain hhigh hhigh' ?_)
    exact skipQuotesLoop_plain hlow hlow' h
  · exact skipQuotesLoop_plain h1 h2 h

theorem skipQuotesLoop_flatMap (s rest : CString) :
    skipQuotesLoop (s.flatMap escapeChar ++ '"' :: rest) = some (s.flatMap escapeChar, rest) := by
  induction s with
  | nil => exact skipQuotesLoop_quote rest
  | cons c s ih =>
    rw [List.flatMap_cons, List.append_assoc]
    exact skipQuotesLoop_escape c _ _ _ ih

/-- A printed string is read back as the string. -/
theorem getQuotedString_serialize {s : CString} (hs : nul ∉ s) (rest : CString) :
    getQuotedString (jsonSerializeString s ++ rest) = some (s, rest) := by
  have hskip : skipQuotes (jsonSerializeString s ++ rest) = some (s.flatMap escapeChar, rest) := by
    simp only [jsonSerializeString, List.cons_append, List.append_assoc, List.nil_append, skipQuotes]
    exact skipQuotesLoop_flatMap s rest
  have hloop := processStringLoop_flatMap s _ (length_le_flatMap_escape s)
  have hcut : s.takeWhile (· ≠ nul) = s := by
    rw [List.takeWhile_eq_self_iff]
    intro c hc
    simpa using fun he : c = nul => hs (he ▸ hc)
  have hprocess : processString (s.flatMap escapeChar) = some s := by
    rw [processString, hloop, Option.map_some, hcut]
  simp [getQuotedString, hskip, hprocess]

end DynamicPartitions.Parson.Scalars
