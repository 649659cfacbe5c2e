import DynamicPartitions.Parson.RoundTrip

/-!
# Canonical values

The values `json_parse_string` can return are the canonical ones: within the limits
of the parser and trimmed. The text of a canonical value, compact or pretty, holds no
zero and is read back as that value.
-/
namespace DynamicPartitions.Parson.Acceptance

open DynamicPartitions.Lib.Table
open DynamicPartitions.Parson.Value
open DynamicPartitions.Parson.Parser
open DynamicPartitions.Parson.Serializer
open DynamicPartitions.Parson.Scalars
open DynamicPartitions.Parson.RoundTrip

/-- Within the limits of the parser and trimmed, as every parsed value is. -/
def Accepted (depth : Nat) (value : JsonValue) : Prop := Storable depth value ∧ trim value = value

def Canonical (value : JsonValue) : Prop := Accepted (maxNesting + 1) value

/-! ## The text holds no zero -/

theorem nul_not_mem_escapeChar (c : Char) : nul ∉ escapeChar c := by
  have hhex : ∀ n < 16, nul ≠ hexDigit n := by decide
  unfold escapeChar
  split_ifs with h1 h2 h3 h4 h5 h6 h7 h8 h9
  iterate 8 · decide
  · have hhigh := hhex (c.toNat / 16) (by omega)
    have hlow := hhex (c.toNat % 16) (by omega)
    simp only [List.mem_cons, List.not_mem_nil, or_false, hhigh, hlow]
    decide
  · rw [List.mem_singleton]
    rintro rfl
    exact h9 (by decide)

theorem nul_not_mem_jsonSerializeString (string : CString) :
    nul ∉ jsonSerializeString string := by
  have hquote : nul ≠ '"' := by decide
  simp only [jsonSerializeString, List.cons_append, List.mem_cons, List.mem_append,
    List.mem_flatMap, List.not_mem_nil, or_false, hquote, false_or, not_exists, not_and]
  exact fun c _ => nul_not_mem_escapeChar c

theorem nul_not_mem_decimal (n : Int) : nul ∉ decimal n := by
  have hdigits : nul ∉ Nat.toDigits 10 n.natAbs := fun h =>
    digit_ne (isDigit_of_mem_toDigits h) (by decide) rfl
  unfold decimal
  split
  · rw [List.mem_cons, not_or]
    exact ⟨by decide, hdigits⟩
  · exact hdigits

theorem nul_not_mem_serializeNumber (n : Int) : nul ∉ serializeNumber n := by
  have hdec := nul_not_mem_decimal n
  unfold serializeNumber
  split
  · exact hdec
  · split
    · exact hdec
    · rw [List.mem_append, not_or]
      exact ⟨hdec, by decide⟩

theorem nul_not_mem_newline (isPretty : Bool) : nul ∉ newline isPretty := by
  cases isPretty <;> decide

theorem nul_not_mem_indent (isPretty : Bool) (level : Nat) : nul ∉ indent isPretty level :=
  fun h => absurd (isspace_indent isPretty level _ h) (by decide)

mutual

theorem nul_not_mem_serialize (isPretty : Bool) (level : Nat) :
    ∀ value, nul ∉ jsonSerializeToBufferR isPretty level value
  | .array ⟨items, _⟩ => by
    have hitems := nul_not_mem_serializeItems isPretty level items
    have hnewline := nul_not_mem_newline isPretty
    have hindent := nul_not_mem_indent isPretty level
    simp only [jsonSerializeToBufferR, List.mem_append, not_or]
    refine ⟨⟨⟨⟨by decide, ?_⟩, hitems⟩, ?_⟩, by decide⟩
    · split <;> simp_all
    · split <;> simp_all
  | .object ⟨entries, _⟩ => by
    have hentries := nul_not_mem_serializeEntries isPretty level entries
    have hnewline := nul_not_mem_newline isPretty
    have hindent := nul_not_mem_indent isPretty level
    simp only [jsonSerializeToBufferR, List.mem_append, not_or]
    refine ⟨⟨⟨⟨by decide, ?_⟩, hentries⟩, ?_⟩, by decide⟩
    · split <;> simp_all
    · split <;> simp_all
  | .string string => nul_not_mem_jsonSerializeString string
  | .boolean true => by simp [jsonSerializeToBufferR, nul]
  | .boolean false => by simp [jsonSerializeToBufferR, nul]
  | .number num => nul_not_mem_serializeNumber num
  | .null => by simp [jsonSerializeToBufferR, nul]

theorem nul_not_mem_serializeItems (isPretty : Bool) (level : Nat) :
    ∀ items, nul ∉ serializeItems isPretty level items
  | [] => by simp [serializeItems]
  | value :: rest => by
    have hvalue := nul_not_mem_serialize isPretty (level + 1) value
    have hrest := nul_not_mem_serializeItems isPretty level rest
    simp only [serializeItems, List.mem_append, not_or]
    refine ⟨⟨⟨⟨nul_not_mem_indent _ _, hvalue⟩, ?_⟩, nul_not_mem_newline _⟩, hrest⟩
    split <;> decide

theorem nul_not_mem_serializeEntries (isPretty : Bool) (level : Nat) :
    ∀ entries, nul ∉ serializeEntries isPretty level entries
  | [] => by simp [serializeEntries]
  | (key, value) :: rest => by
    have hvalue := nul_not_mem_serialize isPretty (level + 1) value
    have hrest := nul_not_mem_serializeEntries isPretty level rest
    simp only [serializeEntries, List.mem_append, not_or]
    refine ⟨⟨⟨⟨⟨⟨⟨nul_not_mem_indent _ _, nul_not_mem_jsonSerializeString _⟩, by decide⟩, ?_⟩,
      hvalue⟩, ?_⟩, nul_not_mem_newline _⟩, hrest⟩
    · cases isPretty <;> decide
    · split <;> decide

end

/-! ## Parsing the text -/

theorem byteOrderMark_not_prefix {c : Char} {cs : CString} (hc : StartsValue c) :
    ¬ byteOrderMark <+: c :: cs := by
  rintro ⟨rest, hrest⟩
  have hhead : Char.ofNat 0xEF = c := (List.cons.inj hrest).1
  rcases hc with h | h | h | h | h | h | h | h
  iterate 7 · exact absurd (hhead.trans h) (by decide)
  · rw [← hhead] at h
    exact absurd h (by decide)

/-- A canonical value is read back from its compact and from its pretty text. -/
theorem jsonParseString_serialize (isPretty : Bool) {value : JsonValue} (h : Canonical value) :
    jsonParseString (jsonSerializeToBufferR isPretty 0 value) = some value := by
  obtain ⟨c, cs, hcs, hc⟩ := serialize_head isPretty 0 value
  have hparse := parseValue_serialize (maxNesting + 1) value h.1 isPretty 0 [] [] (by simp)
    delimited_nil
  rw [List.nil_append, List.append_nil, h.2] at hparse
  have hmark : ¬ byteOrderMark <+: jsonSerializeToBufferR isPretty 0 value :=
    hcs ▸ byteOrderMark_not_prefix hc
  simp only [jsonParseString, if_neg hmark, hparse, Option.map_some]

/-! ## What the parser accepts -/

theorem nul_not_mem_processString {input output : CString} (h : processString input = some output) :
    nul ∉ output := by
  obtain ⟨whole, -, rfl⟩ := Option.map_eq_some_iff.mp h
  exact fun hmem => by simpa using List.mem_takeWhile_imp hmem

theorem nul_not_mem_getQuotedString {text name rest : CString}
    (h : getQuotedString text = some (name, rest)) : nul ∉ name := by
  simp only [getQuotedString, Option.bind_eq_bind, Option.bind_eq_some_iff] at h
  obtain ⟨⟨input, rest'⟩, -, output, hout, heq⟩ := h
  obtain ⟨rfl, -⟩ := Prod.mk.inj (Option.some.inj heq)
  exact nul_not_mem_processString hout

theorem jsonArrayAdd_success {array array' : JsonArray JsonValue} {value : JsonValue}
    (h : jsonArrayAdd array value = (array', .success)) :
    array'.items = array.items ++ [value] ∧
    (array.items.length ≤ array.capacity → array.capacity ≤ arrayMaxCapacity →
      array'.items.length ≤ array'.capacity ∧ array'.capacity ≤ arrayMaxCapacity) := by
  unfold jsonArrayAdd jsonArrayGetCount at h
  have hne : max (array.capacity * 2) startingCapacity ≠ 0 := by
    unfold startingCapacity
    omega
  by_cases hfull : array.items.length ≥ array.capacity
  · by_cases hmax : max (array.capacity * 2) startingCapacity > arrayMaxCapacity
    · simp only [if_pos hfull, if_pos hmax, Prod.mk.injEq, reduceCtorEq, and_false] at h
    · simp only [if_pos hfull, if_neg hmax, jsonArrayResize, if_neg hne, jsonArrayAppend,
        Prod.mk.injEq, and_true] at h
      subst h
      refine ⟨rfl, fun hlen hcap => ?_⟩
      simp only [List.length_append, List.length_singleton]
      unfold startingCapacity at hmax ⊢
      omega
  · simp only [if_neg hfull, jsonArrayAppend, Prod.mk.injEq, and_true] at h
    subst h
    refine ⟨rfl, fun hlen hcap => ⟨?_, hcap⟩⟩
    simp only [List.length_append, List.length_singleton]
    omega

theorem jsonObjectAdd_success {object object' : JsonObject JsonValue} {name : CString}
    {value : JsonValue} (h : jsonObjectAdd object name value = (object', .success)) :
    name ∉ keys object.entries ∧ object'.entries = object.entries ++ [(name, value)] ∧
    (object.entries.length ≤ object.capacity → object.capacity ≤ objectMaxCapacity →
      object'.entries.length ≤ object'.capacity ∧ object'.capacity ≤ objectMaxCapacity) := by
  have hname : name ∉ keys object.entries := by
    intro hmem
    rw [jsonObjectAdd_of_mem object value hmem] at h
    simp at h
  refine ⟨hname, ?_⟩
  have hget : (jsonObjectGetValue object name).isSome = false := by
    rw [Bool.eq_false_iff]
    exact fun hs => hname ((getKey_isSome_iff _ _).mp hs)
  unfold jsonObjectAdd jsonObjectGetCount at h
  have hne : max (object.capacity * 2) startingCapacity ≠ 0 := by
    unfold startingCapacity
    omega
  simp only [hget, Bool.false_eq_true, if_false] at h
  by_cases hfull : object.entries.length ≥ object.capacity
  · by_cases hmax : max (object.capacity * 2) startingCapacity > objectMaxCapacity
    · simp only [if_pos hfull, if_pos hmax, Prod.mk.injEq, reduceCtorEq, and_false] at h
    · simp only [if_pos hfull, if_neg hmax, jsonObjectResize, if_neg hne, jsonObjectAppend,
        Prod.mk.injEq, and_true] at h
      subst h
      refine ⟨rfl, fun hlen hcap => ?_⟩
      simp only [List.length_append, List.length_singleton]
      unfold startingCapacity at hmax ⊢
      omega
  · simp only [if_neg hfull, jsonObjectAppend, Prod.mk.injEq, and_true] at h
    subst h
    refine ⟨rfl, fun hlen hcap => ⟨?_, hcap⟩⟩
    simp only [List.length_append, List.length_singleton]
    omega

/-- What the loop of an array has built so far. -/
def ArrayAccepted (depth : Nat) (array : JsonArray JsonValue) : Prop :=
  array.items.length ≤ array.capacity ∧ array.capacity ≤ arrayMaxCapacity ∧
    ∀ value ∈ array.items, Accepted depth value

theorem parseArrayLoop_accepted {depth : Nat} {parse : CString → Option (JsonValue × CString)}
    (hparse : ∀ text value rest, parse text = some (value, rest) → Accepted depth value) (fuel : Nat) :
    ∀ array text array' rest, ArrayAccepted depth array →
      parseArrayLoop parse fuel array text = some (array', rest) → ArrayAccepted depth array' := by
  induction fuel with
  | zero =>
    intro array text array' rest hacc h
    cases text with
    | nil =>
      obtain ⟨rfl, -⟩ := Prod.mk.inj (Option.some.inj h)
      exact hacc
    | cons c text => simp [parseArrayLoop] at h
  | succ fuel ih =>
    intro array text array' rest hacc h
    obtain ⟨hlen, hcap, hmem⟩ := hacc
    cases text with
    | nil =>
      obtain ⟨rfl, -⟩ := Prod.mk.inj (Option.some.inj h)
      exact ⟨hlen, hcap, hmem⟩
    | cons c text =>
      simp only [parseArrayLoop, Option.bind_eq_bind, Option.bind_eq_some_iff] at h
      obtain ⟨⟨value, string⟩, hvalue, h⟩ := h
      cases hadd : jsonArrayAdd array value with
      | mk added status =>
        cases status with
        | failure => simp [hadd] at h
        | success =>
          obtain ⟨hitems, hbounds⟩ := jsonArrayAdd_success hadd
          obtain ⟨hlen', hcap'⟩ := hbounds hlen hcap
          have hacc : ArrayAccepted depth added := by
            refine ⟨hlen', hcap', fun v hv => ?_⟩
            rw [hitems, List.mem_append, List.mem_singleton] at hv
            rcases hv with hv | rfl
            · exact hmem v hv
            · exact hparse _ _ _ hvalue
          simp only [hadd] at h
          split at h
          · exact ih _ _ _ _ hacc h
          · obtain ⟨rfl, -⟩ := Prod.mk.inj (Option.some.inj h)
            exact hacc

/-- What the loop of an object has built so far. -/
def ObjectAccepted (depth : Nat) (object : JsonObject JsonValue) : Prop :=
  object.entries.length ≤ object.capacity ∧ object.capacity ≤ objectMaxCapacity ∧
    (keys object.entries).Nodup ∧ ∀ entry ∈ object.entries, nul ∉ entry.1 ∧ Accepted depth entry.2

theorem parseObjectLoop_accepted {depth : Nat} {parse : CString → Option (JsonValue × CString)}
    (hparse : ∀ text value rest, parse text = some (value, rest) → Accepted depth value) (fuel : Nat) :
    ∀ object text object' rest, ObjectAccepted depth object →
      parseObjectLoop parse fuel object text = some (object', rest) →
      ObjectAccepted depth object' := by
  induction fuel with
  | zero =>
    intro object text object' rest hacc h
    cases text with
    | nil =>
      obtain ⟨rfl, -⟩ := Prod.mk.inj (Option.some.inj h)
      exact hacc
    | cons c text => simp [parseObjectLoop] at h
  | succ fuel ih =>
    intro object text object' rest hacc h
    obtain ⟨hlen, hcap, hkeys, hmem⟩ := hacc
    cases text with
    | nil =>
      obtain ⟨rfl, -⟩ := Prod.mk.inj (Option.some.inj h)
      exact ⟨hlen, hcap, hkeys, hmem⟩
    | cons c text =>
      simp only [parseObjectLoop, Option.bind_eq_bind, Option.bind_eq_some_iff] at h
      obtain ⟨⟨name, string⟩, hname, h⟩ := h
      split at h
      · obtain ⟨⟨value, string⟩, hvalue, h⟩ := Option.bind_eq_some_iff.mp h
        cases hadd : jsonObjectAdd object name value with
        | mk added status =>
          cases status with
          | failure => simp [hadd] at h
          | success =>
            obtain ⟨hfresh, hentries, hbounds⟩ := jsonObjectAdd_success hadd
            obtain ⟨hlen', hcap'⟩ := hbounds hlen hcap
            have hacc : ObjectAccepted depth added := by
              refine ⟨hlen', hcap', ?_, fun e he => ?_⟩
              · rw [hentries]
                simpa [keys, List.nodup_append, hkeys] using ⟨hkeys, fun a b hab heq =>
                  hfresh (heq ▸ List.mem_map_of_mem (f := Prod.fst) hab)⟩
              · rw [hentries, List.mem_append, List.mem_singleton] at he
                rcases he with he | rfl
                · exact hmem e he
                · exact ⟨nul_not_mem_getQuotedString hname, hparse _ _ _ hvalue⟩
            simp only [hadd] at h
            split at h
            · exact ih _ _ _ _ hacc h
            · obtain ⟨rfl, -⟩ := Prod.mk.inj (Option.some.inj h)
              exact hacc
      · simp at h

theorem accepted_array {depth : Nat} {array : JsonArray JsonValue}
    (hacc : ArrayAccepted depth array) (hcap : array.capacity = array.items.length) :
    Accepted (depth + 1) (.array array) := by
  obtain ⟨hlen, hmax, hmem⟩ := hacc
  refine ⟨⟨hlen.trans hmax, fun v hv => (hmem v hv).1⟩, ?_⟩
  obtain ⟨items, capacity⟩ := array
  simp only at hcap hmem
  subst hcap
  have hmap : items.map trim = items := by
    conv_rhs => rw [← List.map_id items]
    exact List.map_congr_left fun v hv => (hmem v hv).2
  rw [trim_array, hmap]

theorem accepted_object {depth : Nat} {object : JsonObject JsonValue}
    (hacc : ObjectAccepted depth object) (hcap : object.capacity = object.entries.length) :
    Accepted (depth + 1) (.object object) := by
  obtain ⟨hlen, hmax, hkeys, hmem⟩ := hacc
  refine ⟨⟨hlen.trans hmax, hkeys, fun e he => ⟨(hmem e he).1, (hmem e he).2.1⟩⟩, ?_⟩
  obtain ⟨entries, capacity⟩ := object
  simp only at hcap hmem
  subst hcap
  have hmap : entries.map (Prod.map id trim) = entries := by
    conv_rhs => rw [← List.map_id entries]
    exact List.map_congr_left fun e he => Prod.ext rfl (hmem e he).2.2
  rw [trim_object, hmap]

theorem accepted_of_isEmpty (depth : Nat) :
    Accepted (depth + 1) (.object jsonObjectInit) ∧ Accepted (depth + 1) (.array ⟨[], 0⟩) :=
  ⟨accepted_object ⟨Nat.le_refl _, by decide, List.nodup_nil, by simp [jsonObjectInit]⟩ rfl,
    accepted_array ⟨Nat.le_refl _, by decide, by simp⟩ rfl⟩

theorem parseArrayValue_accepted {depth : Nat} {parse : CString → Option (JsonValue × CString)}
    (hparse : ∀ text value rest, parse text = some (value, rest) → Accepted depth value)
    {text : CString} {value : JsonValue} {rest : CString}
    (h : parseArrayValue parse text = some (value, rest)) : Accepted (depth + 1) value := by
  unfold parseArrayValue at h
  split at h
  · obtain ⟨rfl, -⟩ := Prod.mk.inj (Option.some.inj h)
    exact (accepted_of_isEmpty depth).2
  · simp only [Option.bind_eq_bind, Option.bind_eq_some_iff] at h
    obtain ⟨⟨array, string⟩, hloop, h⟩ := h
    have hacc := parseArrayLoop_accepted hparse _ _ _ _ _
      ⟨Nat.le_refl _, by decide, by simp⟩ hloop
    split at h
    · unfold jsonArrayResize jsonArrayGetCount at h
      split_ifs at h with hzero
      obtain ⟨rfl, -⟩ := Prod.mk.inj (Option.some.inj h)
      obtain ⟨hlen, hmax, hmem⟩ := hacc
      exact accepted_array ⟨Nat.le_refl _, hlen.trans hmax, hmem⟩ rfl
    · simp at h

theorem parseObjectValue_accepted {depth : Nat} {parse : CString → Option (JsonValue × CString)}
    (hparse : ∀ text value rest, parse text = some (value, rest) → Accepted depth value)
    {text : CString} {value : JsonValue} {rest : CString}
    (h : parseObjectValue parse text = some (value, rest)) : Accepted (depth + 1) value := by
  unfold parseObjectValue at h
  split at h
  · obtain ⟨rfl, -⟩ := Prod.mk.inj (Option.some.inj h)
    exact (accepted_of_isEmpty depth).1
  · simp only [Option.bind_eq_bind, Option.bind_eq_some_iff] at h
    obtain ⟨⟨object, string⟩, hloop, h⟩ := h
    have hinit : ObjectAccepted depth jsonObjectInit :=
      ⟨Nat.le_refl _, by decide, List.nodup_nil, by simp [jsonObjectInit]⟩
    have hacc := parseObjectLoop_accepted hparse _ _ _ _ _ hinit hloop
    split at h
    · unfold jsonObjectResize jsonObjectGetCount at h
      split_ifs at h with hzero
      obtain ⟨rfl, -⟩ := Prod.mk.inj (Option.some.inj h)
      obtain ⟨hlen, hmax, hkeys, hmem⟩ := hacc
      exact accepted_object ⟨Nat.le_refl _, hlen.trans hmax, hkeys, hmem⟩ rfl
    · simp at h

theorem parseValue_accepted (depth : Nat) :
    ∀ text value rest, parseValue depth text = some (value, rest) → Accepted depth value := by
  induction depth with
  | zero => intro text value rest h; simp [parseValue] at h
  | succ depth ih =>
    intro text value rest h
    unfold parseValue at h
    split at h
    · simp at h
    · split_ifs at h
      · exact parseObjectValue_accepted ih h
      · exact parseArrayValue_accepted ih h
      · simp only [parseStringValue, Option.bind_eq_bind, Option.bind_eq_some_iff] at h
        obtain ⟨⟨string, rest'⟩, hstring, h⟩ := h
        obtain ⟨rfl, -⟩ := Prod.mk.inj (Option.some.inj h)
        exact ⟨nul_not_mem_getQuotedString hstring, rfl⟩
      · unfold parseBooleanValue at h
        split_ifs at h
        all_goals
          obtain ⟨rfl, -⟩ := Prod.mk.inj (Option.some.inj h)
          exact ⟨trivial, rfl⟩
      · simp only [parseNumberValue, Option.bind_eq_bind, Option.bind_eq_some_iff] at h
        obtain ⟨⟨number, rest'⟩, -, h⟩ := h
        split_ifs at h
        obtain ⟨rfl, -⟩ := Prod.mk.inj (Option.some.inj h)
        exact ⟨trivial, rfl⟩
      · unfold parseNullValue at h
        split_ifs at h
        obtain ⟨rfl, -⟩ := Prod.mk.inj (Option.some.inj h)
        exact ⟨trivial, rfl⟩

/-- Whatever `json_parse_string` returns is canonical. -/
theorem canonical_of_jsonParseString {text : CString} {value : JsonValue}
    (h : jsonParseString text = some value) : Canonical value := by
  unfold jsonParseString at h
  obtain ⟨⟨parsed, rest⟩, hparse, rfl⟩ := Option.map_eq_some_iff.mp h
  exact parseValue_accepted _ _ _ _ hparse

end DynamicPartitions.Parson.Acceptance
