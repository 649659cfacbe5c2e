import DynamicPartitions.Parson.Acceptance
import DynamicPartitions.Parson.Unicode

/-!
# The strings of a parsed value

The parser of `lib/parson.c` copies the bytes between quotes and never checks them, while
`json_value_init_string` refuses what is not UTF-8. Nothing is lost by it: the names and
strings of a value parsed from UTF-8 text are UTF-8 again, escapes included, and so is
the text the value is printed as.
-/
namespace DynamicPartitions.Parson.Strings

open DynamicPartitions.Lib.Utf8
open DynamicPartitions.Parson.Value
open DynamicPartitions.Parson.Parser
open DynamicPartitions.Parson.Serializer
open DynamicPartitions.Parson.Scalars
open DynamicPartitions.Parson.Unicode
open DynamicPartitions.Parson.Acceptance

/-- Every name and every string within a value has the property. -/
inductive EveryString (P : CString → Prop) : JsonValue → Prop
  | null : EveryString P .null
  | boolean (value : Bool) : EveryString P (.boolean value)
  | number (value : Int) : EveryString P (.number value)
  | string {string : CString} (h : P string) : EveryString P (.string string)
  | array {array : JsonArray JsonValue} (h : ∀ value ∈ array.items, EveryString P value) :
      EveryString P (.array array)
  | object {object : JsonObject JsonValue} (hnames : ∀ entry ∈ object.entries, P entry.1)
      (hvalues : ∀ entry ∈ object.entries, EveryString P entry.2) : EveryString P (.object object)

theorem EveryString.mono {P Q : CString → Prop} {value : JsonValue} (h : EveryString P value)
    (hpq : ∀ string, P string → Q string) : EveryString Q value := by
  induction h with
  | null => exact .null
  | boolean value => exact .boolean value
  | number value => exact .number value
  | string h => exact .string (hpq _ h)
  | array h ih => exact .array ih
  | object hnames hvalues ih => exact .object (fun entry hentry => hpq _ (hnames entry hentry)) ih

/-! ## Where the strings come from -/

theorem skipQuotesLoop_split (text : CString) : ∀ {inner rest : CString},
    skipQuotesLoop text = some (inner, rest) → text = inner ++ '"' :: rest := by
  induction text using skipQuotesLoop.induct with
  | case1 =>
    intro inner rest h
    simp [skipQuotesLoop] at h
  | case2 text =>
    intro inner rest h
    rw [skipQuotesLoop_quote] at h
    obtain ⟨rfl, rfl⟩ := Prod.mk.inj (Option.some.inj h)
    rfl
  | case3 hquote =>
    intro inner rest h
    simp [skipQuotesLoop] at h
  | case4 escape text hquote ih =>
    intro inner rest h
    simp only [skipQuotesLoop, if_neg hquote, if_true, Option.bind_eq_bind, Option.bind_eq_some_iff] at h
    obtain ⟨⟨inner', rest'⟩, hloop, h⟩ := h
    obtain ⟨rfl, rfl⟩ := Prod.mk.inj (Option.some.inj h)
    rw [ih hloop]
    rfl
  | case5 c text hquote hslash ih =>
    intro inner rest h
    unfold skipQuotesLoop at h
    simp only [if_neg hquote, if_neg hslash, Option.bind_eq_bind, Option.bind_eq_some_iff] at h
    obtain ⟨⟨inner', rest'⟩, hloop, h⟩ := h
    obtain ⟨rfl, rfl⟩ := Prod.mk.inj (Option.some.inj h)
    rw [ih hloop]
    rfl

/-- A quoted string is read off the front of the text, from one quote to another. -/
theorem getQuotedString_split {text name rest : CString}
    (h : getQuotedString text = some (name, rest)) :
    ∃ inner, text = '"' :: inner ++ '"' :: rest ∧ processString inner = some name := by
  simp only [getQuotedString, Option.bind_eq_bind, Option.bind_eq_some_iff] at h
  obtain ⟨⟨inner, rest'⟩, hskip, output, hprocess, heq⟩ := h
  obtain ⟨rfl, rfl⟩ := Prod.mk.inj (Option.some.inj heq)
  refine ⟨inner, ?_, hprocess⟩
  unfold skipQuotes at hskip
  split at hskip
  · rw [skipQuotesLoop_split _ hskip]
    rfl
  · cases hskip

theorem strtodTail_suffix {value number : Int} {string rest : CString}
    (h : strtodTail value string = some (number, rest)) : rest <:+ string := by
  unfold strtodTail at h
  extract_lets tail at h
  have htail : ∀ t, tail = some t → t <:+ string := by
    intro t ht
    dsimp only [tail] at ht
    split at ht
    next fraction =>
      split_ifs at ht
      obtain rfl := Option.some.inj ht
      exact (List.dropWhile_suffix _).trans (List.suffix_cons '.' fraction)
    next => exact Option.some.inj ht ▸ List.suffix_rfl
  generalize tail = tail at h htail
  split at h
  next c rest' =>
    split_ifs at h
    obtain ⟨-, rfl⟩ := Prod.mk.inj (Option.some.inj h)
    exact htail _ rfl
  next =>
    obtain ⟨-, rfl⟩ := Prod.mk.inj (Option.some.inj h)
    exact htail _ rfl
  next => cases h

theorem strtod_suffix {string rest : CString} {number : Int}
    (h : strtod string = some (number, rest)) : rest <:+ string := by
  unfold strtod at h
  split at h
  next negative body heq =>
    have hsuffix : body <:+ string := by
      split at heq
      next tail => exact (Prod.mk.inj heq).2 ▸ List.suffix_cons '-' tail
      next => exact (Prod.mk.inj heq).2 ▸ List.suffix_rfl
    extract_lets digits at h
    split_ifs at h
    · split at h
      next =>
        split_ifs at h
        exact (Prod.mk.inj (Option.some.inj h)).2 ▸ List.suffix_rfl
      next => exact (Prod.mk.inj (Option.some.inj h)).2 ▸ List.suffix_rfl
    · exact (strtodTail_suffix h).trans ((List.dropWhile_suffix _).trans hsuffix)
    · exact (strtodTail_suffix h).trans ((List.dropWhile_suffix _).trans hsuffix)

/-! ## The parser

`Admitted` stands for the texts the parser may stand before: with a text, all its suffixes. -/

section Parser

variable {P Admitted : CString → Prop}

/-- The values read off admitted texts have the property in every string, and what is left
is admitted. -/
def Reads (P Admitted : CString → Prop) (parse : CString → Option (JsonValue × CString)) : Prop :=
  ∀ {text value rest}, Admitted text → parse text = some (value, rest) →
    EveryString P value ∧ Admitted rest

variable (hsuffix : ∀ {text whole : CString}, text <:+ whole → Admitted whole → Admitted text)
  (hname : ∀ {text name rest : CString}, Admitted text → getQuotedString text = some (name, rest) → P name)

theorem skipWhitespaces_suffix (text : CString) : skipWhitespaces text <:+ text :=
  List.dropWhile_suffix _

include hsuffix in
theorem admitted_quoted {text name rest : CString} (htext : Admitted text)
    (h : getQuotedString text = some (name, rest)) : Admitted rest := by
  obtain ⟨inner, rfl, -⟩ := getQuotedString_split h
  exact hsuffix ⟨'"' :: inner ++ ['"'], by simp⟩ htext

include hsuffix in
theorem parseArrayLoop_reads {parse : CString → Option (JsonValue × CString)}
    (hparse : Reads P Admitted parse) (fuel : Nat) : ∀ {array text array' rest},
      (∀ value ∈ array.items, EveryString P value) → Admitted text →
      parseArrayLoop parse fuel array text = some (array', rest) →
      (∀ value ∈ array'.items, EveryString P value) ∧ Admitted rest := by
  induction fuel with
  | zero =>
    intro array text array' rest hitems htext h
    cases text with
    | nil =>
      obtain ⟨rfl, rfl⟩ := Prod.mk.inj (Option.some.inj h)
      exact ⟨hitems, htext⟩
    | cons c text => simp [parseArrayLoop] at h
  | succ fuel ih =>
    intro array text array' rest hitems htext h
    cases text with
    | nil =>
      obtain ⟨rfl, rfl⟩ := Prod.mk.inj (Option.some.inj h)
      exact ⟨hitems, htext⟩
    | cons c text =>
      simp only [parseArrayLoop, Option.bind_eq_bind, Option.bind_eq_some_iff] at h
      obtain ⟨⟨value, string⟩, hvalue, h⟩ := h
      obtain ⟨hstrings, hrest⟩ := hparse htext hvalue
      cases hadd : jsonArrayAdd array value with
      | mk added status =>
        cases status with
        | failure => simp [hadd] at h
        | success =>
          have hadded : ∀ v ∈ added.items, EveryString P v := by
            rw [(jsonArrayAdd_success hadd).1, List.forall_mem_append, List.forall_mem_singleton]
            exact ⟨hitems, hstrings⟩
          have hskip := hsuffix (skipWhitespaces_suffix string) hrest
          simp only [hadd] at h
          split at h
          next tail heq =>
            rw [heq] at hskip
            have htail := hsuffix (List.suffix_cons ',' tail) hskip
            exact ih hadded (hsuffix (skipWhitespaces_suffix tail) htail) h
          next =>
            obtain ⟨rfl, rfl⟩ := Prod.mk.inj (Option.some.inj h)
            exact ⟨hadded, hskip⟩

include hsuffix hname in
theorem parseObjectLoop_reads {parse : CString → Option (JsonValue × CString)}
    (hparse : Reads P Admitted parse) (fuel : Nat) : ∀ {object text object' rest},
      EveryString P (.object object) → Admitted text →
      parseObjectLoop parse fuel object text = some (object', rest) →
      EveryString P (.object object') ∧ Admitted rest := by
  induction fuel with
  | zero =>
    intro object text object' rest hobject htext h
    cases text with
    | nil =>
      obtain ⟨rfl, rfl⟩ := Prod.mk.inj (Option.some.inj h)
      exact ⟨hobject, htext⟩
    | cons c text => simp [parseObjectLoop] at h
  | succ fuel ih =>
    intro object text object' rest hobject htext h
    cases text with
    | nil =>
      obtain ⟨rfl, rfl⟩ := Prod.mk.inj (Option.some.inj h)
      exact ⟨hobject, htext⟩
    | cons c text =>
      simp only [parseObjectLoop, Option.bind_eq_bind, Option.bind_eq_some_iff] at h
      obtain ⟨⟨name, string⟩, hquoted, h⟩ := h
      have hcolon := hsuffix (skipWhitespaces_suffix string) (admitted_quoted hsuffix htext hquoted)
      split at h
      next tail heq =>
        rw [heq] at hcolon
        obtain ⟨⟨value, string⟩, hvalue, h⟩ := Option.bind_eq_some_iff.mp h
        obtain ⟨hstrings, hrest⟩ := hparse (hsuffix (List.suffix_cons ':' tail) hcolon) hvalue
        cases hadd : jsonObjectAdd object name value with
        | mk added status =>
          cases status with
          | failure => simp [hadd] at h
          | success =>
            have hadded : EveryString P (.object added) := by
              obtain ⟨-, hentries, -⟩ := jsonObjectAdd_success hadd
              cases hobject with
              | object hnames hvalues =>
                apply EveryString.object
                · rw [hentries, List.forall_mem_append, List.forall_mem_singleton]
                  exact ⟨hnames, hname htext hquoted⟩
                · rw [hentries, List.forall_mem_append, List.forall_mem_singleton]
                  exact ⟨hvalues, hstrings⟩
            have hskip := hsuffix (skipWhitespaces_suffix string) hrest
            simp only [hadd] at h
            split at h
            next tail heq =>
              rw [heq] at hskip
              have htail := hsuffix (List.suffix_cons ',' tail) hskip
              exact ih hadded (hsuffix (skipWhitespaces_suffix tail) htail) h
            next =>
              obtain ⟨rfl, rfl⟩ := Prod.mk.inj (Option.some.inj h)
              exact ⟨hadded, hskip⟩
      next => cases h

include hsuffix in
theorem parseArrayValue_reads {parse : CString → Option (JsonValue × CString)}
    (hparse : Reads P Admitted parse) : Reads P Admitted (parseArrayValue parse) := by
  intro text value rest htext h
  have hskip := hsuffix (skipWhitespaces_suffix text) htext
  unfold parseArrayValue at h
  split at h
  next tail heq =>
    obtain ⟨rfl, rfl⟩ := Prod.mk.inj (Option.some.inj h)
    rw [heq] at hskip
    exact ⟨.array (by simp), hsuffix (List.suffix_cons ']' tail) hskip⟩
  next =>
    simp only [Option.bind_eq_bind, Option.bind_eq_some_iff] at h
    obtain ⟨⟨array, string⟩, hloop, h⟩ := h
    obtain ⟨hitems, hrest⟩ := parseArrayLoop_reads hsuffix hparse _ (by simp) hskip hloop
    have hclose := hsuffix (skipWhitespaces_suffix string) hrest
    split at h
    next tail heq =>
      rw [heq] at hclose
      unfold jsonArrayResize jsonArrayGetCount at h
      split_ifs at h with hzero
      obtain ⟨rfl, rfl⟩ := Prod.mk.inj (Option.some.inj h)
      exact ⟨.array hitems, hsuffix (List.suffix_cons ']' tail) hclose⟩
    next => cases h

include hsuffix hname in
theorem parseObjectValue_reads {parse : CString → Option (JsonValue × CString)}
    (hparse : Reads P Admitted parse) : Reads P Admitted (parseObjectValue parse) := by
  intro text value rest htext h
  have hskip := hsuffix (skipWhitespaces_suffix text) htext
  have hinit : EveryString P (.object jsonObjectInit) :=
    .object (by simp [jsonObjectInit]) (by simp [jsonObjectInit])
  unfold parseObjectValue at h
  split at h
  next tail heq =>
    obtain ⟨rfl, rfl⟩ := Prod.mk.inj (Option.some.inj h)
    rw [heq] at hskip
    exact ⟨hinit, hsuffix (List.suffix_cons '}' tail) hskip⟩
  next =>
    simp only [Option.bind_eq_bind, Option.bind_eq_some_iff] at h
    obtain ⟨⟨object, string⟩, hloop, h⟩ := h
    obtain ⟨hobject, hrest⟩ := parseObjectLoop_reads hsuffix hname hparse _ hinit hskip hloop
    have hclose := hsuffix (skipWhitespaces_suffix string) hrest
    split at h
    next tail heq =>
      rw [heq] at hclose
      unfold jsonObjectResize jsonObjectGetCount at h
      split_ifs at h with hzero
      obtain ⟨rfl, rfl⟩ := Prod.mk.inj (Option.some.inj h)
      cases hobject with
      | object hnames hvalues =>
        exact ⟨.object hnames hvalues, hsuffix (List.suffix_cons '}' tail) hclose⟩
    next => cases h

include hsuffix hname in
/-- What holds of every quoted string an admitted text shows holds of every string in the
value read off it. -/
theorem parseValue_reads (depth : Nat) : Reads P Admitted (parseValue depth) := by
  induction depth with
  | zero =>
    intro text value rest htext h
    simp [parseValue] at h
  | succ depth ih =>
    intro text value rest htext h
    have hskip := hsuffix (skipWhitespaces_suffix text) htext
    unfold parseValue at h
    split at h
    next => cases h
    next c tail heq =>
      rw [heq] at hskip
      have htail := hsuffix (List.suffix_cons c tail) hskip
      split_ifs at h
      · exact parseObjectValue_reads hsuffix hname ih htail h
      · exact parseArrayValue_reads hsuffix ih htail h
      · simp only [parseStringValue, Option.bind_eq_bind, Option.bind_eq_some_iff] at h
        obtain ⟨⟨string, rest'⟩, hstring, h⟩ := h
        obtain ⟨rfl, rfl⟩ := Prod.mk.inj (Option.some.inj h)
        exact ⟨.string (hname hskip hstring), admitted_quoted hsuffix hskip hstring⟩
      · unfold parseBooleanValue at h
        split_ifs at h
        all_goals
          obtain ⟨rfl, rfl⟩ := Prod.mk.inj (Option.some.inj h)
          exact ⟨.boolean _, hsuffix (List.drop_suffix _ _) hskip⟩
      · simp only [parseNumberValue, Option.bind_eq_bind, Option.bind_eq_some_iff] at h
        obtain ⟨⟨number, rest'⟩, hnumber, h⟩ := h
        split_ifs at h
        obtain ⟨rfl, rfl⟩ := Prod.mk.inj (Option.some.inj h)
        exact ⟨.number number, hsuffix (strtod_suffix hnumber) hskip⟩
      · unfold parseNullValue at h
        split_ifs at h
        obtain ⟨rfl, rfl⟩ := Prod.mk.inj (Option.some.inj h)
        exact ⟨.null, hsuffix (List.drop_suffix _ _) hskip⟩

end Parser

/-! ## Text in, text out -/

theorem toNat_toUInt8 {c : Char} (h : c.toNat < 0x80) : c.toUInt8.toNat = c.toNat := by
  show c.val.toNat.toUInt8.toNat = c.toNat
  rw [UInt8.toNat_ofNat']
  exact Nat.mod_eq_of_lt (show c.toNat < 256 by omega)

theorem isText_ascii {text : CString} (h : ∀ c ∈ text, c.toNat < 0x80) : IsText (codes text) := by
  refine ⟨text, ?_⟩
  induction text with
  | nil => rfl
  | cons c text ih =>
    rw [List.forall_mem_cons] at h
    have hc : c.toUInt8 = UInt8.ofNat c.toNat := rfl
    show c.toUInt8 :: codes text = encode (c :: text)
    rw [encode_cons, encode_one h.1, ih h.2, hc]
    rfl

/-- A character below 128 splits the text it stands in. -/
theorem split_ascii (pending : List UInt8) {c : Char} {rest : CString} (hc : c.toNat < 0x80)
    (h : IsText (pending ++ codes (c :: rest))) : IsText pending ∧ IsText (codes rest) :=
  IsText.split (toNat_toUInt8 hc ▸ hc) h

theorem drop_ascii (front : CString) {rest : CString} (hfront : ∀ c ∈ front, c.toNat < 0x80)
    (h : IsText (codes (front ++ rest))) : IsText (codes rest) := by
  induction front with
  | nil => exact h
  | cons c front ih =>
    rw [List.forall_mem_cons] at hfront
    exact ih hfront.2 (split_ascii [] hfront.1 h).2

/-! ### Escapes -/

theorem hexCharToInt_ascii {c : Char} {n : Nat} (h : hexCharToInt c = some n) :
    c.toNat < 0x80 ∧ n < 16 := by
  have hle : ∀ {a b : Char}, a ≤ b ↔ a.toNat ≤ b.toNat := UInt32.le_iff_toNat_le
  unfold hexCharToInt at h
  simp only [hle] at h
  split_ifs at h with hdigit hlower hupper
  · have hn := Option.some.inj h
    simp only [Char.reduceToNat] at hdigit hn
    omega
  · have hn := Option.some.inj h
    simp only [Char.reduceToNat] at hlower hn
    omega
  · have hn := Option.some.inj h
    simp only [Char.reduceToNat] at hupper hn
    omega

theorem parseUtf16Hex_ascii {text rest : CString} {cp : Nat} (h : parseUtf16Hex text = some (cp, rest)) :
    cp < 0x10000 ∧ ∃ digits, text = digits ++ rest ∧ ∀ d ∈ digits, d.toNat < 0x80 := by
  unfold parseUtf16Hex at h
  split at h
  next c1 c2 c3 c4 tail =>
    simp only [Option.bind_eq_bind, Option.bind_eq_some_iff] at h
    obtain ⟨x1, h1, x2, h2, x3, h3, x4, h4, h⟩ := h
    obtain ⟨rfl, rfl⟩ := Prod.mk.inj (Option.some.inj h)
    replace h1 := hexCharToInt_ascii h1
    replace h2 := hexCharToInt_ascii h2
    replace h3 := hexCharToInt_ascii h3
    replace h4 := hexCharToInt_ascii h4
    refine ⟨by omega, [c1, c2, c3, c4], rfl, ?_⟩
    simp only [List.forall_mem_cons]
    exact ⟨h1.1, h2.1, h3.1, h4.1, by simp⟩
  next => cases h

/-- The character a `\u` escape stands for: the one with the code point its digits spell, or
the one behind a pair of surrogates. -/
def EscapeFor (text : CString) (c : Char) (rest : CString) : Prop :=
  parseUtf16Hex text = some (c.toNat, rest) ∨
    ∃ lead trail tail, parseUtf16Hex text = some (lead, '\\' :: 'u' :: tail) ∧
      parseUtf16Hex tail = some (trail, rest) ∧ 0xD800 ≤ lead ∧ lead < 0xDC00 ∧ 0xDC00 ≤ trail ∧
      trail < 0xE000 ∧ c.toNat = 0x10000 + (lead - 0xD800) * 0x400 + (trail - 0xDC00)

theorem toUInt8_ofNat : ∀ n < 256, (Char.ofNat n).toUInt8 = UInt8.ofNat n := by decide +kernel

/-- What `parse_utf16` puts out is the encoding of that character. -/
theorem parseUtf16_encodes {text bytes rest : CString} (h : parseUtf16 text = some (bytes, rest)) :
    ∃ c, codes bytes = String.utf8EncodeChar c ∧ EscapeFor text c rest := by
  simp only [parseUtf16, Option.bind_eq_bind, Option.bind_eq_some_iff] at h
  obtain ⟨⟨cp, tail⟩, hhex, h⟩ := h
  have hcp := (parseUtf16Hex_ascii hhex).1
  dsimp only at h
  split_ifs at h with hone htwo hthree hlead
  · obtain ⟨rfl, rfl⟩ := Prod.mk.inj (Option.some.inj h)
    obtain ⟨c, rfl⟩ := exists_char (show cp < 0xD800 ∨ 0xDFFF < cp ∧ cp < 0x110000 by omega)
    refine ⟨c, ?_, .inl hhex⟩
    rw [encode_one hone, ← toUInt8_ofNat c.toNat (by omega)]
    rfl
  · obtain ⟨rfl, rfl⟩ := Prod.mk.inj (Option.some.inj h)
    obtain ⟨c, rfl⟩ := exists_char (show cp < 0xD800 ∨ 0xDFFF < cp ∧ cp < 0x110000 by omega)
    refine ⟨c, ?_, .inl hhex⟩
    rw [encode_two (by omega) htwo, Nat.add_comm _ 0xC0, Nat.add_comm _ 0x80,
      ← toUInt8_ofNat _ (by omega), ← toUInt8_ofNat _ (by omega)]
    rfl
  · obtain ⟨rfl, rfl⟩ := Prod.mk.inj (Option.some.inj h)
    obtain ⟨c, rfl⟩ := exists_char (show cp < 0xD800 ∨ 0xDFFF < cp ∧ cp < 0x110000 by omega)
    refine ⟨c, ?_, .inl hhex⟩
    rw [encode_three (by omega) hcp, Nat.add_comm _ 0xE0, Nat.add_comm _ 0x80, Nat.add_comm _ 0x80,
      ← toUInt8_ofNat _ (by omega), ← toUInt8_ofNat _ (by omega), ← toUInt8_ofNat _ (by omega)]
    rfl
  · split at h
    next tail =>
      simp only [Option.bind_eq_some_iff] at h
      obtain ⟨⟨trail, tail'⟩, htrail, h⟩ := h
      dsimp only at h
      split_ifs at h with hrange
      obtain ⟨rfl, rfl⟩ := Prod.mk.inj (Option.some.inj h)
      obtain ⟨c, hc⟩ := exists_char (show (cp - 0xD800) * 1024 + (trail - 0xDC00) + 0x10000 < 0xD800 ∨
        0xDFFF < (cp - 0xD800) * 1024 + (trail - 0xDC00) + 0x10000 ∧
        (cp - 0xD800) * 1024 + (trail - 0xDC00) + 0x10000 < 0x110000 by omega)
      refine ⟨c, ?_, .inr ⟨cp, trail, tail, hhex, htrail, ?_⟩⟩
      · rw [← hc, encode_four (by omega), Nat.add_comm _ 0xF0, Nat.add_comm _ 0x80, Nat.add_comm _ 0x80,
          Nat.add_comm _ 0x80, ← toUInt8_ofNat _ (by omega), ← toUInt8_ofNat _ (by omega),
          ← toUInt8_ofNat _ (by omega), ← toUInt8_ofNat _ (by omega)]
        rfl
      · omega
    next => cases h

theorem EscapeFor.unique {text rest rest' : CString} {c d : Char} (h : EscapeFor text c rest)
    (h' : EscapeFor text d rest') : c = d ∧ rest = rest' := by
  have hchar : c.toNat = d.toNat → c = d := fun heq => Char.ext (UInt32.toNat_inj.mp heq)
  have hc := toNat_range c
  have hd := toNat_range d
  obtain h | ⟨lead, trail, tail, hlead, htrail, h⟩ := h
  · obtain h' | ⟨lead, trail, tail, hlead, -, h'⟩ := h'
    · obtain ⟨hcp, rfl⟩ := Prod.mk.inj (Option.some.inj (h.symm.trans h'))
      exact ⟨hchar hcp, rfl⟩
    · obtain ⟨hcp, -⟩ := Prod.mk.inj (Option.some.inj (h.symm.trans hlead))
      omega
  · obtain h' | ⟨lead', trail', tail', hlead', htrail', h'⟩ := h'
    · obtain ⟨hcp, -⟩ := Prod.mk.inj (Option.some.inj (hlead.symm.trans h'))
      omega
    · obtain ⟨rfl, htail⟩ := Prod.mk.inj (Option.some.inj (hlead.symm.trans hlead'))
      obtain ⟨-, rfl⟩ := List.cons.inj (List.cons.inj htail).2
      obtain ⟨rfl, rfl⟩ := Prod.mk.inj (Option.some.inj (htrail.symm.trans htrail'))
      exact ⟨hchar (by omega), rfl⟩

theorem escapeFor_iff (text rest : CString) (c : Char) :
    EscapeFor text c rest ↔ ∃ bytes, parseUtf16 text = some (bytes, rest) ∧
      codes bytes = String.utf8EncodeChar c := by
  constructor
  · intro h
    have hsome : (parseUtf16 text).isSome := by
      have hc := toNat_range c
      obtain h | ⟨lead, trail, tail, hlead, htrail, hrange⟩ := h
      · simp only [parseUtf16, h, Option.bind_eq_bind, Option.bind_some]
        split_ifs
        · rfl
        · rfl
        · rfl
        · omega
        · omega
      · simp only [parseUtf16, hlead, htrail, Option.bind_eq_bind, Option.bind_some]
        rw [if_neg (by omega), if_neg (by omega), if_neg (by omega), if_pos (by omega), if_neg (by omega)]
        rfl
    obtain ⟨⟨bytes, rest'⟩, hparse⟩ := Option.isSome_iff_exists.mp hsome
    obtain ⟨d, hbytes, hfor⟩ := parseUtf16_encodes hparse
    obtain ⟨rfl, rfl⟩ := h.unique hfor
    exact ⟨bytes, hparse, hbytes⟩
  · rintro ⟨bytes, hparse, hbytes⟩
    obtain ⟨d, hbytes', hfor⟩ := parseUtf16_encodes hparse
    obtain rfl := encodeChar_injective (hbytes.symm.trans hbytes')
    exact hfor

theorem EscapeFor.rest {text rest : CString} {c : Char} (h : EscapeFor text c rest)
    (htext : IsText (codes text)) : IsText (codes rest) := by
  obtain h | ⟨lead, trail, tail, hlead, htrail, -⟩ := h
  · obtain ⟨-, digits, rfl, hdigits⟩ := parseUtf16Hex_ascii h
    exact drop_ascii digits hdigits htext
  · obtain ⟨-, digits, rfl, hdigits⟩ := parseUtf16Hex_ascii hlead
    obtain ⟨-, digits', rfl, hdigits'⟩ := parseUtf16Hex_ascii htrail
    have htail := drop_ascii ['\\', 'u'] (by simp) (drop_ascii digits hdigits htext)
    exact drop_ascii digits' hdigits' htail

theorem simpleEscape_ascii {escape byte : Char} (h : simpleEscape escape = some byte) :
    escape.toNat < 0x80 ∧ byte.toNat < 0x80 := by
  unfold simpleEscape at h
  split at h
  all_goals cases h
  all_goals decide

/-- `process_string` keeps UTF-8, also of a string whose first bytes are still `pending`. -/
theorem isText_processStringLoop (fuel : Nat) (input : CString) : ∀ (pending : List UInt8) {output : CString},
    IsText (pending ++ codes input) → processStringLoop fuel input = some output →
    IsText (pending ++ codes output) := by
  induction fuel, input using processStringLoop.induct with
  | case1 fuel =>
    intro pending output hinput h
    simp only [processStringLoop, Option.some.injEq] at h
    exact h ▸ hinput
  | case2 c rest => intro pending output hinput h; cases h
  | case3 fuel => intro pending output hinput h; simp [processStringLoop] at h
  | case4 fuel rest ih =>
    intro pending output hinput h
    simp only [processStringLoop, if_true, Option.bind_eq_bind, Option.bind_eq_some_iff] at h
    obtain ⟨⟨bytes, tail⟩, hescape, output', hloop, h⟩ := h
    obtain ⟨c, hbytes, hfor⟩ := parseUtf16_encodes hescape
    obtain ⟨hpending, hrest⟩ := split_ascii _ (by decide) hinput
    have htail := hfor.rest (drop_ascii ['u'] (by simp) hrest)
    have houtput := ih tail (String.utf8EncodeChar c) ((isText_char c).append htail) hloop
    rw [← hbytes, ← codes_append] at houtput
    rw [← Option.some.inj h]
    exact hpending.append houtput
  | case5 fuel escape rest hu ih =>
    intro pending output hinput h
    simp only [processStringLoop, if_true, if_neg hu, Option.bind_eq_bind, Option.bind_eq_some_iff] at h
    obtain ⟨byte, hbyte, output', hloop, h⟩ := h
    obtain ⟨hescape, hascii⟩ := simpleEscape_ascii hbyte
    obtain ⟨hpending, hrest⟩ := split_ascii _ (by decide) hinput
    have htail := drop_ascii [escape] (by simpa using hescape) hrest
    have houtput := ih (codes [byte]) ((isText_ascii (by simpa using hascii)).append htail) hloop
    rw [← Option.some.inj h]
    exact hpending.append houtput
  | case6 fuel c rest hslash hcontrol =>
    intro pending output hinput h
    unfold processStringLoop at h
    simp [hslash, hcontrol] at h
  | case7 fuel c rest hslash hcontrol ih =>
    intro pending output hinput h
    unfold processStringLoop at h
    simp only [if_neg hslash, if_neg hcontrol, Option.bind_eq_bind, Option.bind_eq_some_iff] at h
    obtain ⟨output', hloop, h⟩ := h
    have houtput := ih (pending ++ codes [c]) (by simpa [codes] using hinput) hloop
    rw [← Option.some.inj h]
    simpa [codes] using houtput

/-- The bytes of a string are UTF-8. -/
def Text (string : CString) : Prop := IsText (codes string)

theorem text_processString {input output : CString} (hinput : Text input)
    (h : processString input = some output) : Text output := by
  obtain ⟨whole, hloop, rfl⟩ := Option.map_eq_some_iff.mp h
  have hwhole : IsText ([] ++ codes whole) :=
    isText_processStringLoop input.length input [] hinput hloop
  -- the first zero is a character of its own, so what stands before it is text
  have hsplit := List.takeWhile_append_dropWhile (p := (· ≠ nul)) (l := whole)
  cases hdrop : whole.dropWhile (· ≠ nul) with
  | nil =>
    rw [hdrop, List.append_nil] at hsplit
    rw [hsplit]
    exact hwhole
  | cons c rest =>
    have hc : c = nul := by
      have hhead := List.head_dropWhile_not (· ≠ nul) (hdrop ▸ List.cons_ne_nil c rest)
      simp only [hdrop, List.head_cons] at hhead
      simpa using hhead
    subst hc
    rw [hdrop] at hsplit
    rw [← hsplit, List.nil_append, codes_append] at hwhole
    exact (split_ascii _ (by decide) hwhole).1

theorem text_getQuotedString {whole text name rest : CString} (hwhole : Text whole)
    (hsuffix : text <:+ whole) (h : getQuotedString text = some (name, rest)) : Text name := by
  obtain ⟨inner, rfl, hprocess⟩ := getQuotedString_split h
  obtain ⟨before, rfl⟩ := hsuffix
  have hbefore : IsText (codes before ++ codes ('"' :: (inner ++ '"' :: rest))) := by
    rw [← codes_append]
    exact hwhole
  have hinner := (split_ascii _ (by decide) hbefore).2
  rw [codes_append] at hinner
  exact text_processString (split_ascii _ (by decide) hinner).1 hprocess

theorem text_afterMark {rest : CString} (h : Text (byteOrderMark ++ rest)) : Text rest := by
  have hmark : codes byteOrderMark = String.utf8EncodeChar (Char.ofNat 0xFEFF) := by decide
  rw [Text, codes_append, hmark] at h
  exact isText_behind h

/-- A value parsed from UTF-8 text holds nothing but UTF-8 strings. -/
theorem text_jsonParseString {text : CString} {value : JsonValue} (htext : Text text)
    (h : jsonParseString text = some value) : EveryString Text value := by
  obtain ⟨⟨parsed, rest⟩, hparse, rfl⟩ := Option.map_eq_some_iff.mp h
  have hwhole : Text (if byteOrderMark <+: text then text.drop 3 else text) := by
    split_ifs with hmark
    · obtain ⟨rest, rfl⟩ := hmark
      exact text_afterMark htext
    · exact htext
  exact (parseValue_reads (fun hsuffix hadmitted => hsuffix.trans hadmitted)
    (fun hsuffix hquoted => text_getQuotedString hwhole hsuffix hquoted) _ List.suffix_rfl hparse).1

/-! ### Printing -/

theorem Text.append {s t : CString} (hs : Text s) (ht : Text t) : Text (s ++ t) := by
  rw [Text, codes_append]
  exact IsText.append hs ht

theorem text_nil : Text [] := isText_nil

theorem text_ite {condition : Prop} [Decidable condition] {s : CString} (h : ∀ c ∈ s, c.toNat < 0x80) :
    Text (if condition then [] else s) := by
  split_ifs
  · exact isText_nil
  · exact isText_ascii h

theorem text_newline (isPretty : Bool) : Text (newline isPretty) := by
  cases isPretty <;> exact isText_ascii (by simp [newline])

theorem text_indent (isPretty : Bool) (level : Nat) : Text (indent isPretty level) := by
  cases isPretty with
  | false => exact isText_nil
  | true =>
    apply isText_ascii
    intro c hc
    rw [List.eq_of_mem_replicate hc]
    decide

theorem escapeChar_cases (c : Char) :
    escapeChar c = [c] ∨ c.toNat < 0x80 ∧ ∀ d ∈ escapeChar c, d.toNat < 0x80 := by
  have hhex : ∀ n < 16, (hexDigit n).toNat < 0x80 := by decide
  unfold escapeChar
  split_ifs with h1 h2 h3 h4 h5 h6 h7 h8 h9
  iterate 8
    · right
      subst_vars
      simp
  · right
    have hhigh := hhex (c.toNat / 16) (by omega)
    have hlow := hhex (c.toNat % 16) (by omega)
    refine ⟨by omega, ?_⟩
    simp [hhigh, hlow]
  · exact .inl rfl

/-- Printing the bytes of a string escapes characters below 128 only, so it keeps UTF-8. -/
theorem isText_escaped (string : CString) : ∀ pending : List UInt8,
    IsText (pending ++ codes string) → IsText (pending ++ codes (string.flatMap escapeChar)) := by
  induction string with
  | nil => exact fun _ h => h
  | cons c rest ih =>
    intro pending h
    rw [List.flatMap_cons, codes_append]
    obtain hplain | ⟨hc, hescape⟩ := escapeChar_cases c
    · have hrest := ih (pending ++ codes [c]) (by simpa [codes] using h)
      rw [hplain, ← List.append_assoc]
      exact hrest
    · obtain ⟨hpending, hrest⟩ := split_ascii pending hc h
      exact hpending.append ((isText_ascii hescape).append (ih [] hrest))

theorem text_jsonSerializeString {string : CString} (h : Text string) :
    Text (jsonSerializeString string) := by
  have hquote : Text ['"'] := isText_ascii (by simp)
  exact (hquote.append (isText_escaped string [] h)).append hquote

theorem text_serializeNumber (num : Int) : Text (serializeNumber num) := by
  have hdigits : ∀ c ∈ Nat.toDigits 10 num.natAbs, c.toNat < 0x80 := by
    intro c hc
    have hdigit := isDigit_of_mem_toDigits hc
    simp only [Char.isDigit, Bool.and_eq_true, decide_eq_true_eq] at hdigit
    have hle : c.toNat ≤ 57 := hdigit.2
    omega
  have hdecimal : Text (decimal num) := by
    unfold decimal
    split_ifs
    · exact Text.append (s := ['-']) (isText_ascii (by simp)) (isText_ascii hdigits)
    · exact isText_ascii hdigits
  unfold serializeNumber
  split_ifs
  · exact hdecimal
  · exact hdecimal
  · exact hdecimal.append (isText_ascii (by simp))

theorem text_serializeItems {isPretty : Bool} {level : Nat} {items : List JsonValue}
    (h : ∀ value ∈ items, Text (jsonSerializeToBufferR isPretty (level + 1) value)) :
    Text (serializeItems isPretty level items) := by
  induction items with
  | nil => exact isText_nil
  | cons value rest ih =>
    rw [List.forall_mem_cons] at h
    exact ((((text_indent _ _).append h.1).append (text_ite (by simp))).append
      (text_newline _)).append (ih h.2)

theorem text_serializeEntries {isPretty : Bool} {level : Nat} {entries : List (CString × JsonValue)}
    (hnames : ∀ entry ∈ entries, Text entry.1)
    (h : ∀ entry ∈ entries, Text (jsonSerializeToBufferR isPretty (level + 1) entry.2)) :
    Text (serializeEntries isPretty level entries) := by
  induction entries with
  | nil => exact isText_nil
  | cons entry rest ih =>
    rw [List.forall_mem_cons] at hnames h
    have hcolon : Text [':'] := isText_ascii (by simp)
    have hspace : Text (if isPretty then [' '] else []) := by
      cases isPretty <;> exact isText_ascii (by simp)
    exact (((((((text_indent _ _).append (text_jsonSerializeString hnames.1)).append hcolon).append
      hspace).append h.1).append (text_ite (by simp))).append (text_newline _)).append (ih hnames.2 h.2)

/-- The frame of a container: brackets on lines of their own, unless it is empty. -/
theorem text_container {condition : Prop} [Decidable condition] {opening closing : Char} {inner : CString}
    (isPretty : Bool) (level : Nat) (hopening : opening.toNat < 0x80) (hclosing : closing.toNat < 0x80)
    (hinner : Text inner) :
    Text ([opening] ++ (if condition then [] else newline isPretty) ++ inner ++
      (if condition then [] else indent isPretty level) ++ [closing]) := by
  have hopen : Text [opening] := isText_ascii (by simpa using hopening)
  have hclose : Text [closing] := isText_ascii (by simpa using hclosing)
  split_ifs
  · exact (((hopen.append text_nil).append hinner).append text_nil).append hclose
  · exact (((hopen.append (text_newline _)).append hinner).append (text_indent _ _)).append hclose

theorem text_serialize {value : JsonValue} (h : EveryString Text value) : ∀ isPretty level,
    Text (jsonSerializeToBufferR isPretty level value) := by
  induction h with
  | null =>
    intro isPretty level
    show Text ['n', 'u', 'l', 'l']
    exact isText_ascii (by simp)
  | boolean value =>
    intro isPretty level
    cases value with
    | false =>
      show Text ['f', 'a', 'l', 's', 'e']
      exact isText_ascii (by simp)
    | true =>
      show Text ['t', 'r', 'u', 'e']
      exact isText_ascii (by simp)
  | number num => exact fun _ _ => text_serializeNumber num
  | string h => exact fun _ _ => text_jsonSerializeString h
  | @array array h ih =>
    intro isPretty level
    have hitems := text_serializeItems (fun value hvalue => ih value hvalue isPretty (level + 1))
    exact text_container isPretty level (by decide) (by decide) hitems
  | @object object hnames hvalues ih =>
    intro isPretty level
    have hentries := text_serializeEntries hnames fun entry hentry => ih entry hentry isPretty (level + 1)
    exact text_container isPretty level (by decide) (by decide) hentries

def escapeText : CString := ['"', '\\', 'u', '0', '0', 'e', '9', '"']

theorem jsonParseString_escapeText :
    jsonParseString escapeText = some (.string [Char.ofNat 0xC3, Char.ofNat 0xA9]) := by
  have hquoted : getQuotedString escapeText = some ([Char.ofNat 0xC3, Char.ofNat 0xA9], []) := by
    decide +kernel
  have hskip : skipWhitespaces escapeText = escapeText := by decide
  rw [jsonParseString, if_neg (by decide), parseValue, hskip]
  show Option.map Prod.fst (parseStringValue escapeText) = _
  rw [parseStringValue, hquoted]
  rfl

end DynamicPartitions.Parson.Strings
