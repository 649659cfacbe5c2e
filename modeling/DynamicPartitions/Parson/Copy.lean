import DynamicPartitions.Parson.Acceptance
import DynamicPartitions.Parson.Meaning

/-!
# Copies of a value

`json_value_deep_copy` rebuilds a value through the same `json_object_add` and
`json_array_add` that the parser uses, so like the text of a value it brings back the
document and loses the capacities.
-/
namespace DynamicPartitions.Parson.Copy

open DynamicPartitions.Lib.Table
open DynamicPartitions.Abstract.Documents
open DynamicPartitions.Parson.Value
open DynamicPartitions.Parson.Parser
open DynamicPartitions.Parson.Serializer
open DynamicPartitions.Parson.Scalars
open DynamicPartitions.Parson.RoundTrip
open DynamicPartitions.Parson.Acceptance
open DynamicPartitions.Parson.Meaning

mutual

/-- `json_value_deep_copy`; NULL where a container does not take a copied element. -/
def jsonValueDeepCopy : JsonValue → Option JsonValue
  | .array ⟨items, _⟩ => (copyItems ⟨[], 0⟩ items).map .array
  | .object ⟨entries, _⟩ => (copyEntries jsonObjectInit entries).map .object
  | .string string => some (.string string)
  | .boolean value => some (.boolean value)
  | .number num => some (.number num)
  | .null => some .null

/-- The loop over the items of an array. -/
def copyItems (tempArrayCopy : JsonArray JsonValue) : List JsonValue → Option (JsonArray JsonValue)
  | [] => some tempArrayCopy
  | tempValue :: rest => do
    let tempValueCopy ← jsonValueDeepCopy tempValue
    match jsonArrayAdd tempArrayCopy tempValueCopy with
    | (_, .failure) => none
    | (tempArrayCopy, .success) => copyItems tempArrayCopy rest

/-- The loop over the names and values of an object. -/
def copyEntries (tempObjectCopy : JsonObject JsonValue) :
    List (CString × JsonValue) → Option (JsonObject JsonValue)
  | [] => some tempObjectCopy
  | (tempKey, tempValue) :: rest => do
    let tempValueCopy ← jsonValueDeepCopy tempValue
    match jsonObjectAdd tempObjectCopy tempKey tempValueCopy with
    | (_, .failure) => none
    | (tempObjectCopy, .success) => copyEntries tempObjectCopy rest

end

/-- A copy stands for the same document. -/
def IsCopy (value copy : JsonValue) : Prop := meaning copy = meaning value ∧ Distinct copy

theorem IsCopy.array {items copies : List JsonValue} (h : List.Forall₂ IsCopy items copies)
    (capacity capacity' : Nat) : IsCopy (.array ⟨items, capacity⟩) (.array ⟨copies, capacity'⟩) := by
  have hboth : itemsMeaning copies = itemsMeaning items ∧ ∀ copy ∈ copies, Distinct copy := by
    induction h with
    | nil => exact ⟨rfl, fun _ hmem => absurd hmem List.not_mem_nil⟩
    | cons hhead _ ih =>
      rw [List.forall_mem_cons, itemsMeaning, itemsMeaning, hhead.1, ih.1]
      exact ⟨rfl, hhead.2, ih.2⟩
  exact ⟨congrArg Document.list hboth.1, .array hboth.2⟩

theorem copyItems_spec {depth : Nat} (hcopy : ∀ value, Storable depth value →
      ∃ copy, jsonValueDeepCopy value = some copy ∧ IsCopy value copy) (items : List JsonValue) :
    ∀ array : JsonArray JsonValue, (∀ value ∈ items, Storable depth value) →
      array.items.length + items.length ≤ arrayMaxCapacity → Grown 13 array.capacity →
      ∃ array' copies, copyItems array items = some array' ∧ array'.items = array.items ++ copies ∧
        List.Forall₂ IsCopy items copies := by
  induction items with
  | nil => exact fun array _ _ _ => ⟨array, [], rfl, (List.append_nil _).symm, .nil⟩
  | cons value rest ih =>
    intro array hitems hlength hgrown
    rw [List.forall_mem_cons] at hitems
    rw [List.length_cons] at hlength
    obtain ⟨copy, hvalue, hiscopy⟩ := hcopy value hitems.1
    obtain ⟨capacity, hgrown', hadd⟩ := jsonArrayAdd_grown array copy hgrown (by omega)
    obtain ⟨array', copies, hrest, hitems', hcopies⟩ := ih ⟨array.items ++ [copy], capacity⟩ hitems.2
      (by rw [List.length_append, List.length_singleton]; omega) hgrown'
    refine ⟨array', copy :: copies, ?_, ?_, .cons hiscopy hcopies⟩
    · simp only [copyItems, hvalue, Option.bind_eq_bind, Option.bind_some, hadd, hrest]
    · rw [hitems', List.append_assoc]
      rfl

/-- An entry copied under its own name. -/
def EntryCopy (entry copy : CString × JsonValue) : Prop := copy.1 = entry.1 ∧ IsCopy entry.2 copy.2

theorem IsCopy.object {entries copies : List (CString × JsonValue)}
    (h : List.Forall₂ EntryCopy entries copies) (hnames : (keys entries).Nodup) (capacity capacity' : Nat) :
    IsCopy (.object ⟨entries, capacity⟩) (.object ⟨copies, capacity'⟩) := by
  have hall : keys copies = keys entries ∧ entriesMeaning copies = entriesMeaning entries ∧
      ∀ copy ∈ copies, Distinct copy.2 := by
    clear hnames
    induction h with
    | nil => exact ⟨rfl, rfl, fun _ hmem => absurd hmem List.not_mem_nil⟩
    | @cons entry copy entries copies hhead _ ih =>
      obtain ⟨hname, hmeaning, hdistinct⟩ := hhead
      obtain ⟨hkeys, hentries, hvalues⟩ := ih
      refine ⟨?_, ?_, List.forall_mem_cons.mpr ⟨hdistinct, hvalues⟩⟩
      · rw [keys_cons, keys_cons, hname, hkeys]
      · funext name
        show (if name = copy.1 then some (meaning copy.2) else entriesMeaning copies name) =
          if name = entry.1 then some (meaning entry.2) else entriesMeaning entries name
        rw [hname, hmeaning, hentries]
  obtain ⟨hkeys, hmeaning, hvalues⟩ := hall
  exact ⟨congrArg Document.record hmeaning, .object (hkeys ▸ hnames) hvalues⟩

theorem copyEntries_spec {depth : Nat} (hcopy : ∀ value, Storable depth value →
      ∃ copy, jsonValueDeepCopy value = some copy ∧ IsCopy value copy)
    (entries : List (CString × JsonValue)) :
    ∀ object : JsonObject JsonValue, (∀ entry ∈ entries, Storable depth entry.2) →
      object.entries.length + entries.length ≤ objectMaxCapacity →
      (keys object.entries ++ keys entries).Nodup → Grown 6 object.capacity →
      ∃ object' copies, copyEntries object entries = some object' ∧
        object'.entries = object.entries ++ copies ∧ List.Forall₂ EntryCopy entries copies := by
  induction entries with
  | nil => exact fun object _ _ _ _ => ⟨object, [], rfl, (List.append_nil _).symm, .nil⟩
  | cons entry rest ih =>
    obtain ⟨key, value⟩ := entry
    intro object hentries hlength hnames hgrown
    rw [List.forall_mem_cons] at hentries
    rw [List.length_cons] at hlength
    obtain ⟨copy, hvalue, hiscopy⟩ := hcopy value hentries.1
    have hfresh : key ∉ keys object.entries := fun hmem =>
      (List.nodup_append.mp hnames).2.2 key hmem key List.mem_cons_self rfl
    obtain ⟨capacity, hgrown', hadd⟩ := jsonObjectAdd_grown object copy hgrown (by omega) hfresh
    obtain ⟨object', copies, hrest, hentries', hcopies⟩ := ih ⟨object.entries ++ [(key, copy)], capacity⟩
      hentries.2 (by rw [List.length_append, List.length_singleton]; omega) (by simpa using hnames) hgrown'
    refine ⟨object', (key, copy) :: copies, ?_, ?_, .cons ⟨rfl, hiscopy⟩ hcopies⟩
    · simp only [copyEntries, hvalue, Option.bind_eq_bind, Option.bind_some, hadd, hrest]
    · rw [hentries', List.append_assoc]
      rfl

theorem deepCopy_spec (depth : Nat) : ∀ value, Storable depth value →
    ∃ copy, jsonValueDeepCopy value = some copy ∧ IsCopy value copy := by
  induction depth with
  | zero => exact fun _ h => h.elim
  | succ depth ih =>
    intro value h
    cases value with
    | array array =>
      obtain ⟨items, capacity⟩ := array
      obtain ⟨array', copies, hcopy, hitems, hcopies⟩ :=
        copyItems_spec ih items ⟨[], 0⟩ h.2 (by simpa using h.1) (.inl rfl)
      obtain ⟨items', capacity'⟩ := array'
      obtain rfl : items' = copies := hitems
      exact ⟨_, by rw [jsonValueDeepCopy, hcopy]; rfl, IsCopy.array hcopies capacity capacity'⟩
    | object object =>
      obtain ⟨entries, capacity⟩ := object
      obtain ⟨hlength, hnames, hentries⟩ := h
      obtain ⟨object', copies, hcopy, hentries', hcopies⟩ :=
        copyEntries_spec ih entries jsonObjectInit (fun entry hentry => (hentries entry hentry).2)
          (by simpa [jsonObjectInit] using hlength) hnames (.inl rfl)
      obtain ⟨entries', capacity'⟩ := object'
      obtain rfl : entries' = copies := hentries'
      exact ⟨_, by rw [jsonValueDeepCopy, hcopy]; rfl, IsCopy.object hcopies hnames capacity capacity'⟩
    | string string => exact ⟨_, rfl, rfl, .string string⟩
    | number num => exact ⟨_, rfl, rfl, .number num⟩
    | boolean value => exact ⟨_, rfl, rfl, .boolean value⟩
    | null => exact ⟨_, rfl, rfl, .null⟩

/-! ## A text is a copy too -/

/-- A value cut down to its counts is a copy of it. -/
theorem isCopy_trim (depth : Nat) : ∀ value, Storable depth value → IsCopy value (trim value) := by
  induction depth with
  | zero => exact fun _ h => h.elim
  | succ depth ih =>
    intro value h
    cases value with
    | array array =>
      rw [trim_array]
      apply IsCopy.array
      rw [List.forall₂_map_right_iff, List.forall₂_same]
      exact fun item hitem => ih item (h.2 item hitem)
    | object object =>
      obtain ⟨-, hnames, hentries⟩ := h
      rw [trim_object]
      apply IsCopy.object _ hnames
      rw [List.forall₂_map_right_iff, List.forall₂_same]
      exact fun entry hentry => ⟨rfl, ih entry.2 (hentries entry hentry).2⟩
    | string string => exact ⟨rfl, .string string⟩
    | number num => exact ⟨rfl, .number num⟩
    | boolean value => exact ⟨rfl, .boolean value⟩
    | null => exact ⟨rfl, .null⟩

theorem jsonParseString_trim (isPretty : Bool) {value : JsonValue} (h : Storable (maxNesting + 1) value) :
    jsonParseString (jsonSerializeToBufferR isPretty 0 value) = some (trim value) := by
  obtain ⟨c, cs, hcs, hc⟩ := serialize_head isPretty 0 value
  have hparse := parseValue_serialize (maxNesting + 1) value h isPretty 0 [] [] (by simp) delimited_nil
  rw [List.nil_append, List.append_nil] at hparse
  have hmark : ¬ byteOrderMark <+: jsonSerializeToBufferR isPretty 0 value :=
    hcs ▸ byteOrderMark_not_prefix hc
  simp only [jsonParseString, if_neg hmark, hparse, Option.map_some]

theorem equals_of_isCopy {value copy : JsonValue} (hvalue : Distinct value) (h : IsCopy value copy) :
    jsonValueEquals value copy = true ∧ jsonValueEquals copy value = true :=
  ⟨(equals_iff value copy hvalue h.2).mpr h.1.symm, (equals_iff copy value h.2 hvalue).mpr h.1⟩

theorem storable_pair : Storable (maxNesting + 1) pair := by
  apply Storable.mono (m := 2) (by decide)
  refine ⟨by decide, by decide, ?_⟩
  simp only [List.forall_mem_cons]
  exact ⟨⟨by decide, trivial⟩, ⟨by decide, trivial⟩, fun _ hmem => absurd hmem List.not_mem_nil⟩

end DynamicPartitions.Parson.Copy
