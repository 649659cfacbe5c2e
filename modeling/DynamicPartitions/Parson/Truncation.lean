import DynamicPartitions.Lib.Nesting
import DynamicPartitions.Parson.Strings

/-!
# Documents cut short

What the parser reads off a text is closed: it leaves no bracket and no quote open. An
array or an object ends with the bracket that closes the first one, so the parser accepts
no proper beginning of its text.
-/
namespace DynamicPartitions.Parson.Truncation

open DynamicPartitions.Lib.Nesting
open DynamicPartitions.Parson.Value
open DynamicPartitions.Parson.Parser
open DynamicPartitions.Parson.Serializer
open DynamicPartitions.Parson.Scalars
open DynamicPartitions.Parson.RoundTrip
open DynamicPartitions.Parson.Acceptance
open DynamicPartitions.Parson.Strings

/-- Brackets, quotes and escapes of a JSON text. -/
def signs : Signs Char where
  opens c := c == '[' || c == '{'
  closes c := c == ']' || c == '}'
  quotes c := c == '"'
  escapes c := c == '\\'

theorem neutral_of_ne {c : Char} (h : ∀ d ∈ ['"', '[', '{', ']', '}'], c ≠ d) : signs.IsNeutral c := by
  simp only [List.forall_mem_cons] at h
  obtain ⟨hquote, hbracket, hbrace, hbracket', hbrace', -⟩ := h
  simp [Signs.IsNeutral, signs, hquote, hbracket, hbrace, hbracket', hbrace']

theorem neutral_of_isDigit {c : Char} (h : c.isDigit = true) : signs.IsNeutral c := by
  apply neutral_of_ne
  simp only [List.forall_mem_cons]
  exact ⟨digit_ne h rfl, digit_ne h rfl, digit_ne h rfl, digit_ne h rfl, digit_ne h rfl, by simp⟩

theorem neutral_of_isspace {c : Char} (h : isspace c = true) : signs.IsNeutral c := by
  apply neutral_of_ne
  intro d hd hcd
  subst hcd
  simp only [List.mem_cons, List.not_mem_nil, or_false] at hd
  rcases hd with rfl | rfl | rfl | rfl | rfl <;> exact absurd h (by decide)

/-! ## Scalars -/

/-- Something closed is read off the front of the text. -/
def ReadOff (text rest : CString) : Prop := ∃ used, text = used ++ rest ∧ signs.Closed used

theorem ReadOff.refl (text : CString) : ReadOff text text := ⟨[], rfl, .nil⟩

theorem ReadOff.trans {text middle rest : CString} (h : ReadOff text middle)
    (hrest : ReadOff middle rest) : ReadOff text rest := by
  obtain ⟨used, rfl, hclosed⟩ := h
  obtain ⟨more, rfl, hmore⟩ := hrest
  exact ⟨used ++ more, (List.append_assoc used more rest).symm, hclosed.append hmore⟩

theorem ReadOff.cons {c : Char} (hc : signs.IsNeutral c) (rest : CString) : ReadOff (c :: rest) rest :=
  ⟨[c], rfl, .cons_neutral hc .nil⟩

theorem ReadOff.dropWhile {p : Char → Bool} (hp : ∀ c, p c = true → signs.IsNeutral c) (text : CString) :
    ReadOff text (text.dropWhile p) := by
  refine ⟨text.takeWhile p, List.takeWhile_append_dropWhile.symm, .neutral fun c hc => ?_⟩
  exact hp c (List.mem_takeWhile_imp hc)

theorem readOff_skipWhitespaces (text : CString) : ReadOff text (skipWhitespaces text) :=
  .dropWhile (fun _ => neutral_of_isspace) text

theorem inside_of_skipQuotesLoop (text : CString) : ∀ {inner rest : CString},
    skipQuotesLoop text = some (inner, rest) → signs.Inside inner := by
  induction text using skipQuotesLoop.induct with
  | case1 =>
    intro inner rest h
    simp [skipQuotesLoop] at h
  | case2 text =>
    intro inner rest h
    rw [skipQuotesLoop_quote] at h
    obtain ⟨rfl, rfl⟩ := Prod.mk.inj (Option.some.inj h)
    exact .nil
  | case3 hquote =>
    intro inner rest h
    simp [skipQuotesLoop] at h
  | case4 escape text hquote ih =>
    intro inner rest h
    simp only [skipQuotesLoop, if_neg hquote, if_true, Option.bind_eq_bind, Option.bind_eq_some_iff] at h
    obtain ⟨⟨inner', rest'⟩, hloop, h⟩ := h
    obtain ⟨rfl, rfl⟩ := Prod.mk.inj (Option.some.inj h)
    exact .escape rfl rfl (ih hloop)
  | case5 c text hquote hslash ih =>
    intro inner rest h
    unfold skipQuotesLoop at h
    simp only [if_neg hquote, if_neg hslash, Option.bind_eq_bind, Option.bind_eq_some_iff] at h
    obtain ⟨⟨inner', rest'⟩, hloop, h⟩ := h
    obtain ⟨rfl, rfl⟩ := Prod.mk.inj (Option.some.inj h)
    exact .plain (by simp [signs, hquote]) (by simp [signs, hslash]) (ih hloop)

theorem readOff_getQuotedString {text name rest : CString}
    (h : getQuotedString text = some (name, rest)) : ReadOff text rest := by
  simp only [getQuotedString, Option.bind_eq_bind, Option.bind_eq_some_iff] at h
  obtain ⟨⟨inner, rest'⟩, hskip, output, -, heq⟩ := h
  obtain ⟨rfl, rfl⟩ := Prod.mk.inj (Option.some.inj heq)
  unfold skipQuotes at hskip
  split at hskip
  next text =>
    refine ⟨'"' :: inner ++ ['"'], ?_, .quoted (inside_of_skipQuotesLoop text hskip) rfl⟩
    rw [skipQuotesLoop_split text hskip]
    simp
  next => cases hskip

theorem readOff_strtodTail {value number : Int} {string rest : CString}
    (h : strtodTail value string = some (number, rest)) : ReadOff string rest := by
  unfold strtodTail at h
  extract_lets tail at h
  have htail : ∀ t, tail = some t → ReadOff string t := by
    intro t ht
    dsimp only [tail] at ht
    split at ht
    next fraction =>
      split_ifs at ht
      obtain rfl := Option.some.inj ht
      exact (ReadOff.cons ⟨rfl, rfl, rfl⟩ fraction).trans
        (.dropWhile (fun _ => neutral_of_isDigit) fraction)
    next => exact Option.some.inj ht ▸ ReadOff.refl string
  generalize tail = tail at h htail
  split at h
  next c rest' =>
    split_ifs at h
    obtain ⟨-, rfl⟩ := Prod.mk.inj (Option.some.inj h)
    exact htail _ rfl
  next =>
    obtain ⟨-, rfl⟩ := Prod.mk.inj (Option.some.inj h)
    exact htail _ rfl
  next => cases h

theorem readOff_strtod {string rest : CString} {number : Int}
    (h : strtod string = some (number, rest)) : ReadOff string rest := by
  unfold strtod at h
  split at h
  next negative body heq =>
    have hsign : ReadOff string body := by
      split at heq
      next tail => exact (Prod.mk.inj heq).2 ▸ ReadOff.cons ⟨rfl, rfl, rfl⟩ tail
      next => exact (Prod.mk.inj heq).2 ▸ ReadOff.refl string
    have hdigits := ReadOff.dropWhile (fun _ => neutral_of_isDigit) body
    extract_lets digits at h
    split_ifs at h
    · split at h
      next =>
        split_ifs at h
        exact (Prod.mk.inj (Option.some.inj h)).2 ▸ ReadOff.refl string
      next => exact (Prod.mk.inj (Option.some.inj h)).2 ▸ ReadOff.refl string
    · exact hsign.trans (hdigits.trans (readOff_strtodTail h))
    · exact hsign.trans (hdigits.trans (readOff_strtodTail h))

theorem readOff_word {word string : CString} (hword : ∀ c ∈ word, signs.IsNeutral c)
    (h : word <+: string) : ReadOff string (string.drop word.length) := by
  obtain ⟨rest, rfl⟩ := h
  rw [List.drop_left]
  exact ⟨word, rfl, .neutral hword⟩

/-! ## Containers -/

/-- What the parser of a value consumes is closed. -/
def Consumes (parse : CString → Option (JsonValue × CString)) : Prop :=
  ∀ {text value rest}, parse text = some (value, rest) → ReadOff text rest

/-- From behind the opening bracket, the parser consumes something closed and a bracket. -/
def Encloses (parse : CString → Option (JsonValue × CString)) : Prop :=
  ∀ {text value rest}, parse text = some (value, rest) →
    ∃ c, (c = ']' ∨ c = '}') ∧ ReadOff text (c :: rest)

section Containers

variable {parse : CString → Option (JsonValue × CString)} (hparse : Consumes parse)
include hparse

theorem parseArrayLoop_consumes (fuel : Nat) : ∀ {array text array' rest},
    parseArrayLoop parse fuel array text = some (array', rest) → ReadOff text rest := by
  induction fuel with
  | zero =>
    intro array text array' rest h
    cases text with
    | nil =>
      obtain ⟨rfl, rfl⟩ := Prod.mk.inj (Option.some.inj h)
      exact .refl []
    | cons c text => simp [parseArrayLoop] at h
  | succ fuel ih =>
    intro array text array' rest h
    cases text with
    | nil =>
      obtain ⟨rfl, rfl⟩ := Prod.mk.inj (Option.some.inj h)
      exact .refl []
    | cons c text =>
      simp only [parseArrayLoop, Option.bind_eq_bind, Option.bind_eq_some_iff] at h
      obtain ⟨⟨value, string⟩, hvalue, h⟩ := h
      have helement := (hparse hvalue).trans (readOff_skipWhitespaces string)
      cases hadd : jsonArrayAdd array value with
      | mk added status =>
        cases status with
        | failure => simp [hadd] at h
        | success =>
          simp only [hadd] at h
          split at h
          next tail heq =>
            rw [heq] at helement
            have hcomma : ReadOff (',' :: tail) (skipWhitespaces tail) :=
              (ReadOff.cons ⟨rfl, rfl, rfl⟩ tail).trans (readOff_skipWhitespaces tail)
            exact helement.trans (hcomma.trans (ih h))
          next =>
            obtain ⟨rfl, rfl⟩ := Prod.mk.inj (Option.some.inj h)
            exact helement

theorem parseObjectLoop_consumes (fuel : Nat) : ∀ {object text object' rest},
    parseObjectLoop parse fuel object text = some (object', rest) → ReadOff text rest := by
  induction fuel with
  | zero =>
    intro object text object' rest h
    cases text with
    | nil =>
      obtain ⟨rfl, rfl⟩ := Prod.mk.inj (Option.some.inj h)
      exact .refl []
    | cons c text => simp [parseObjectLoop] at h
  | succ fuel ih =>
    intro object text object' rest h
    cases text with
    | nil =>
      obtain ⟨rfl, rfl⟩ := Prod.mk.inj (Option.some.inj h)
      exact .refl []
    | cons c text =>
      simp only [parseObjectLoop, Option.bind_eq_bind, Option.bind_eq_some_iff] at h
      obtain ⟨⟨name, string⟩, hquoted, h⟩ := h
      have hname := (readOff_getQuotedString hquoted).trans (readOff_skipWhitespaces string)
      split at h
      next tail heq =>
        rw [heq] at hname
        obtain ⟨⟨value, string⟩, hvalue, h⟩ := Option.bind_eq_some_iff.mp h
        have hcolon : ReadOff (':' :: tail) string :=
          (ReadOff.cons ⟨rfl, rfl, rfl⟩ tail).trans (hparse hvalue)
        have hmember := hname.trans (hcolon.trans (readOff_skipWhitespaces string))
        cases hadd : jsonObjectAdd object name value with
        | mk added status =>
          cases status with
          | failure => simp [hadd] at h
          | success =>
            simp only [hadd] at h
            split at h
            next tail heq =>
              rw [heq] at hmember
              have hcomma : ReadOff (',' :: tail) (skipWhitespaces tail) :=
              (ReadOff.cons ⟨rfl, rfl, rfl⟩ tail).trans (readOff_skipWhitespaces tail)
              exact hmember.trans (hcomma.trans (ih h))
            next =>
              obtain ⟨rfl, rfl⟩ := Prod.mk.inj (Option.some.inj h)
              exact hmember
      next => cases h

theorem parseArrayValue_encloses : Encloses (parseArrayValue parse) := by
  intro text value rest h
  refine ⟨']', .inl rfl, ?_⟩
  have hskip := readOff_skipWhitespaces text
  unfold parseArrayValue at h
  split at h
  next tail heq =>
    obtain ⟨rfl, rfl⟩ := Prod.mk.inj (Option.some.inj h)
    rwa [heq] at hskip
  next =>
    simp only [Option.bind_eq_bind, Option.bind_eq_some_iff] at h
    obtain ⟨⟨array, string⟩, hloop, h⟩ := h
    have helements := (parseArrayLoop_consumes hparse _ hloop).trans (readOff_skipWhitespaces string)
    split at h
    next tail heq =>
      rw [heq] at helements
      unfold jsonArrayResize jsonArrayGetCount at h
      split_ifs at h
      obtain ⟨rfl, rfl⟩ := Prod.mk.inj (Option.some.inj h)
      exact hskip.trans helements
    next => cases h

theorem parseObjectValue_encloses : Encloses (parseObjectValue parse) := by
  intro text value rest h
  refine ⟨'}', .inr rfl, ?_⟩
  have hskip := readOff_skipWhitespaces text
  unfold parseObjectValue at h
  split at h
  next tail heq =>
    obtain ⟨rfl, rfl⟩ := Prod.mk.inj (Option.some.inj h)
    rwa [heq] at hskip
  next =>
    simp only [Option.bind_eq_bind, Option.bind_eq_some_iff] at h
    obtain ⟨⟨object, string⟩, hloop, h⟩ := h
    have hmembers := (parseObjectLoop_consumes hparse _ hloop).trans (readOff_skipWhitespaces string)
    split at h
    next tail heq =>
      rw [heq] at hmembers
      unfold jsonObjectResize jsonObjectGetCount at h
      split_ifs at h
      obtain ⟨rfl, rfl⟩ := Prod.mk.inj (Option.some.inj h)
      exact hskip.trans hmembers
    next => cases h

end Containers

/-- With its brackets, what an enclosing parser consumes is closed. -/
theorem readOff_bracket {o c : Char} (ho : o = '[' ∨ o = '{') (hc : c = ']' ∨ c = '}')
    {body rest : CString} (h : ReadOff body (c :: rest)) : ReadOff (o :: body) rest := by
  obtain ⟨inner, rfl, hclosed⟩ := h
  refine ⟨o :: inner ++ [c], by simp, ?_⟩
  rcases ho with rfl | rfl <;> rcases hc with rfl | rfl <;>
    exact hclosed.bracket rfl rfl rfl rfl rfl

theorem parseValue_consumes (depth : Nat) : Consumes (parseValue depth) := by
  induction depth with
  | zero =>
    intro text value rest h
    simp [parseValue] at h
  | succ depth ih =>
    intro text value rest h
    have hskip := readOff_skipWhitespaces text
    unfold parseValue at h
    split at h
    next => cases h
    next c tail heq =>
      rw [heq] at hskip
      apply hskip.trans
      split_ifs at h with hbrace hbracket hquote hboolean hnumber hnull
      · obtain ⟨close, hclose, hbody⟩ := parseObjectValue_encloses ih h
        exact readOff_bracket (.inr hbrace) hclose hbody
      · obtain ⟨close, hclose, hbody⟩ := parseArrayValue_encloses ih h
        exact readOff_bracket (.inl hbracket) hclose hbody
      · simp only [parseStringValue, Option.bind_eq_bind, Option.bind_eq_some_iff] at h
        obtain ⟨⟨string, rest'⟩, hstring, h⟩ := h
        obtain ⟨rfl, rfl⟩ := Prod.mk.inj (Option.some.inj h)
        exact readOff_getQuotedString hstring
      · unfold parseBooleanValue at h
        split_ifs at h with htrue hfalse
        · obtain ⟨rfl, rfl⟩ := Prod.mk.inj (Option.some.inj h)
          exact readOff_word (by simp [Signs.IsNeutral, signs]) htrue
        · obtain ⟨rfl, rfl⟩ := Prod.mk.inj (Option.some.inj h)
          exact readOff_word (by simp [Signs.IsNeutral, signs]) hfalse
      · simp only [parseNumberValue, Option.bind_eq_bind, Option.bind_eq_some_iff] at h
        obtain ⟨⟨number, rest'⟩, hstrtod, h⟩ := h
        split_ifs at h
        obtain ⟨rfl, rfl⟩ := Prod.mk.inj (Option.some.inj h)
        exact readOff_strtod hstrtod
      · unfold parseNullValue at h
        split_ifs at h with hword
        obtain ⟨rfl, rfl⟩ := Prod.mk.inj (Option.some.inj h)
        exact readOff_word (by simp [Signs.IsNeutral, signs]) hword

/-! ## Cut short -/

theorem parseValue_enclosed {depth : Nat} {o : Char} {body rest : CString} {value : JsonValue}
    (ho : o = '[' ∨ o = '{') (h : parseValue depth (o :: body) = some (value, rest)) :
    ∃ c, (c = ']' ∨ c = '}') ∧ ReadOff body (c :: rest) := by
  cases depth with
  | zero => simp [parseValue] at h
  | succ depth =>
    have hspace : isspace o = false := by rcases ho with rfl | rfl <;> rfl
    rw [parseValue, skipWhitespaces_cons body hspace] at h
    rcases ho with rfl | rfl
    · exact parseArrayValue_encloses (parseValue_consumes depth) h
    · exact parseObjectValue_encloses (parseValue_consumes depth) h

/-- No proper beginning of a text in brackets is read, with whatever nesting allowed. -/
theorem parseValue_truncated {depth : Nat} {o : Char} {body : CString} {value : JsonValue}
    (ho : o = '[' ∨ o = '{') (h : parseValue depth (o :: body) = some (value, [])) {front : CString}
    (hfront : front <+: o :: body) (hne : front ≠ o :: body) (depth' : Nat) :
    parseValue depth' front = none := by
  obtain ⟨c, -, inner, rfl, hclosed⟩ := parseValue_enclosed ho h
  obtain ⟨hquote, hopen⟩ : signs.quotes o = false ∧ signs.opens o = true := by
    rcases ho with rfl | rfl <;> exact ⟨rfl, rfl⟩
  have hinner : front <+: o :: inner := by
    rw [← List.cons_append] at hfront hne
    exact (List.prefix_concat_iff.mp hfront).resolve_left hne
  rcases List.prefix_cons_iff.mp hinner with rfl | ⟨front, rfl, hprefix⟩
  · cases depth' <;> rfl
  · rw [Option.eq_none_iff_forall_ne_some]
    intro read hread
    -- the bracket that closed the beginning would close the whole text too early
    obtain ⟨c', hc', inner', rfl, hclosed'⟩ := parseValue_enclosed ho hread
    have hearly : inner' ++ [c'] <+: inner := by
      refine List.IsPrefix.trans ⟨read.2, ?_⟩ hprefix
      simp
    apply hclosed.not_closed_of_prefix hquote hopen hearly
    rcases ho with rfl | rfl <;> rcases hc' with rfl | rfl <;>
      exact hclosed'.bracket rfl rfl rfl rfl rfl

/-- An array or an object. -/
def IsContainer : JsonValue → Prop
  | .array _ | .object _ => True
  | _ => False

/-- `json_parse_string` returns NULL on the text of a document that is cut short anywhere. -/
theorem jsonParseString_truncated (isPretty : Bool) {value : JsonValue} (hvalue : Canonical value)
    (hcontainer : IsContainer value) {front : CString}
    (hfront : front <+: jsonSerializeToBufferR isPretty 0 value)
    (hne : front ≠ jsonSerializeToBufferR isPretty 0 value) : jsonParseString front = none := by
  have hparse := parseValue_serialize (maxNesting + 1) value hvalue.1 isPretty 0 [] [] (by simp)
    delimited_nil
  rw [List.nil_append, List.append_nil, hvalue.2] at hparse
  obtain ⟨o, body, htext, ho⟩ : ∃ o body, jsonSerializeToBufferR isPretty 0 value = o :: body ∧
      (o = '[' ∨ o = '{') := by
    cases value with
    | array array => exact ⟨'[', _, rfl, .inl rfl⟩
    | object object => exact ⟨'{', _, rfl, .inr rfl⟩
    | _ => exact hcontainer.elim
  rw [htext] at hparse hfront hne
  have hmark : ¬ byteOrderMark <+: front := by
    intro hmark
    obtain ⟨rest, hrest⟩ := hmark.trans hfront
    have hhead : Char.ofNat 0xEF = o := (List.cons.inj hrest).1
    rcases ho with rfl | rfl <;> exact absurd hhead (by decide)
  rw [jsonParseString, if_neg hmark, parseValue_truncated ho hparse hfront hne]
  rfl

end DynamicPartitions.Parson.Truncation
