import DynamicPartitions.Abstract.Documents
import DynamicPartitions.Parson.RoundTrip

/-!
# What a JSON value means

A value stands for a document: the order of the entries and the capacities say nothing.
`json_value_equals` decides whether two values mean the same, which is what makes it safe
to compare a value with a copy of it, or with what its text is read back as.
-/
namespace DynamicPartitions.Parson.Meaning

open DynamicPartitions.Lib.Table
open DynamicPartitions.Abstract.Documents
open DynamicPartitions.Parson.Value
open DynamicPartitions.Parson.RoundTrip

inductive Scalar where
  | null
  | boolean (value : Bool)
  | number (value : Int)
  | string (value : CString)

mutual

def meaning : JsonValue → Document CString Scalar
  | .array ⟨items, _⟩ => .list (itemsMeaning items)
  | .object ⟨entries, _⟩ => .record (entriesMeaning entries)
  | .string value => .scalar (.string value)
  | .boolean value => .scalar (.boolean value)
  | .number value => .scalar (.number value)
  | .null => .scalar .null

def itemsMeaning : List JsonValue → List (Document CString Scalar)
  | [] => []
  | value :: rest => meaning value :: itemsMeaning rest

def entriesMeaning : List (CString × JsonValue) → CString → Option (Document CString Scalar)
  | [], _ => none
  | (key, value) :: rest, name => if name = key then some (meaning value) else entriesMeaning rest name

end

theorem itemsMeaning_eq_map (items : List JsonValue) : itemsMeaning items = items.map meaning := by
  induction items with
  | nil => rfl
  | cons value rest ih => rw [itemsMeaning, ih, List.map_cons]

theorem entriesMeaning_eq (entries : List (CString × JsonValue)) (name : CString) :
    entriesMeaning entries name = (getKey entries name).map meaning := by
  induction entries with
  | nil => rfl
  | cons entry rest ih =>
    obtain ⟨key, value⟩ := entry
    rw [entriesMeaning, getKey_cons, ih]
    split_ifs <;> rfl

/-- Names are distinct within every object of a value. The only way into an object is
`json_object_add`, which refuses a name it has. -/
inductive Distinct : JsonValue → Prop
  | null : Distinct .null
  | boolean (value : Bool) : Distinct (.boolean value)
  | number (value : Int) : Distinct (.number value)
  | string (value : CString) : Distinct (.string value)
  | array {array : JsonArray JsonValue} (h : ∀ value ∈ array.items, Distinct value) :
      Distinct (.array array)
  | object {object : JsonObject JsonValue} (hnames : (keys object.entries).Nodup)
      (hvalues : ∀ entry ∈ object.entries, Distinct entry.2) : Distinct (.object object)

theorem Distinct.ofStorable {depth : Nat} {value : JsonValue} (h : Storable depth value) :
    Distinct value := by
  induction depth generalizing value with
  | zero => exact h.elim
  | succ depth ih =>
    cases value with
    | array array => exact .array fun item hitem => ih (h.2 item hitem)
    | object object => exact .object h.2.1 fun entry hentry => ih (h.2.2 entry hentry).2
    | string string => exact .string string
    | number num => exact .number num
    | boolean value => exact .boolean value
    | null => exact .null

/-- The document tells whether all numbers are exact. -/
theorem exactNumbers_of_meaning {value : JsonValue} (h : Distinct value) : ∀ other : JsonValue,
    meaning other = meaning value → ExactNumbers other → ExactNumbers value := by
  induction h with
  | null => exact fun _ _ _ => .null
  | boolean value => exact fun _ _ _ => .boolean value
  | string value => exact fun _ _ _ => .string value
  | number value =>
    intro other hmeaning hexact
    cases hexact with
    | @number other h =>
      obtain rfl := Scalar.number.inj (Document.scalar.inj hmeaning)
      exact .number h
    | _ => cases hmeaning
  | @array array _ ih =>
    intro other hmeaning hexact
    cases hexact with
    | @array others hothers =>
      have hitems := Document.list.inj hmeaning
      rw [itemsMeaning_eq_map, itemsMeaning_eq_map] at hitems
      refine .array fun value hvalue => ?_
      have hmem := List.mem_map_of_mem (f := meaning) hvalue
      rw [← hitems] at hmem
      obtain ⟨item, hitem, heq⟩ := List.mem_map.mp hmem
      exact ih value hvalue item heq (hothers item hitem)
    | _ => cases hmeaning
  | @object object hnames _ ih =>
    intro other hmeaning hexact
    cases hexact with
    | @object others hothers =>
      refine .object fun entry hentry => ?_
      have hfield := congrFun (Document.record.inj hmeaning) entry.1
      rw [entriesMeaning_eq, entriesMeaning_eq, getKey_of_mem hnames hentry] at hfield
      obtain ⟨value, hvalue, heq⟩ := Option.map_eq_some_iff.mp hfield
      exact ih entry hentry value heq (hothers _ (mem_of_getKey hvalue))
    | _ => cases hmeaning

/-! ## Equality -/

theorem mem_keys_iff (entries : List (CString × JsonValue)) (name : CString) :
    name ∈ keys entries ↔ (entriesMeaning entries name).isSome := by
  rw [entriesMeaning_eq, Option.isSome_map, getKey_isSome_iff]

theorem length_eq_of_meaning {entries others : List (CString × JsonValue)} (hnames : (keys entries).Nodup)
    (hothers : (keys others).Nodup) (h : entriesMeaning entries = entriesMeaning others) :
    entries.length = others.length := by
  have hperm : (keys entries).Perm (keys others) := (List.perm_ext_iff_of_nodup hnames hothers).mpr
    fun name => by rw [mem_keys_iff, mem_keys_iff, h]
  have hlength := hperm.length_eq
  rwa [keys, keys, List.length_map, List.length_map] at hlength

/-- Records with as many fields mean the same as soon as one is found in the other. -/
theorem record_eq_iff {entries others : List (CString × JsonValue)} (hnames : (keys entries).Nodup)
    (hlength : entries.length = others.length) : entriesMeaning entries = entriesMeaning others ↔
    ∀ entry ∈ entries, ∃ value, getKey others entry.1 = some value ∧ meaning entry.2 = meaning value := by
  constructor
  · intro h entry hentry
    have hfield := congrFun h entry.1
    rw [entriesMeaning_eq, entriesMeaning_eq, getKey_of_mem hnames hentry] at hfield
    obtain ⟨value, hvalue, hmeaning⟩ := Option.map_eq_some_iff.mp hfield.symm
    exact ⟨value, hvalue, hmeaning.symm⟩
  · intro h
    have hsubset : keys entries ⊆ keys others := by
      intro name hname
      obtain ⟨entry, hentry, rfl⟩ := List.mem_map.mp hname
      obtain ⟨value, hvalue, -⟩ := h entry hentry
      exact (getKey_isSome_iff others entry.1).mp (hvalue ▸ rfl)
    have hperm : (keys entries).Perm (keys others) := by
      apply (hnames.subperm hsubset).perm_of_length_le
      rw [keys, keys, List.length_map, List.length_map, hlength]
    funext name
    rw [entriesMeaning_eq, entriesMeaning_eq]
    by_cases hname : name ∈ keys entries
    · obtain ⟨entry, hentry, rfl⟩ := List.mem_map.mp hname
      obtain ⟨value, hvalue, hmeaning⟩ := h entry hentry
      rw [getKey_of_mem hnames hentry, hvalue, Option.map_some, Option.map_some, hmeaning]
    · rw [(getKey_eq_none_iff entries name).mpr hname,
        (getKey_eq_none_iff others name).mpr (mt hperm.mem_iff.mpr hname)]

mutual

theorem equals_iff : ∀ a b : JsonValue, Distinct a → Distinct b →
    (jsonValueEquals a b = true ↔ meaning a = meaning b)
  | .array ⟨items, _⟩, b, .array hitems, hb => by
    cases b with
    | array array =>
      obtain ⟨others, capacity⟩ := array
      cases hb with
      | array hothers =>
        simp only [jsonValueEquals, jsonArrayGetCount, meaning, Bool.and_eq_true, beq_iff_eq,
          Document.list.injEq]
        constructor
        · rintro ⟨hlength, hequal⟩
          exact (itemsEqual_iff items others hitems hothers hlength).mp hequal
        · intro h
          have hlength : items.length = others.length := by
            have hmap := congrArg List.length h
            rwa [itemsMeaning_eq_map, itemsMeaning_eq_map, List.length_map, List.length_map] at hmap
          exact ⟨hlength, (itemsEqual_iff items others hitems hothers hlength).mpr h⟩
    | object object => obtain ⟨entries, capacity⟩ := object; simp [jsonValueEquals, meaning]
    | _ => simp [jsonValueEquals, meaning]
  | .object ⟨entries, _⟩, b, .object hnames hvalues, hb => by
    cases b with
    | object object =>
      obtain ⟨others, capacity⟩ := object
      cases hb with
      | object hnames' hvalues' =>
        have hequal := entriesEqual_iff entries others hvalues hvalues'
        simp only [jsonValueEquals, jsonObjectGetCount, meaning, Bool.and_eq_true, beq_iff_eq,
          Document.record.injEq]
        constructor
        · rintro ⟨hlength, h⟩
          exact (record_eq_iff hnames hlength).mpr (hequal.mp h)
        · intro h
          have hlength := length_eq_of_meaning hnames hnames' h
          exact ⟨hlength, hequal.mpr ((record_eq_iff hnames hlength).mp h)⟩
    | array array => obtain ⟨items, capacity⟩ := array; simp [jsonValueEquals, meaning]
    | _ => simp [jsonValueEquals, meaning]
  | .string _, b, _, _ => by
    cases b <;> simp [jsonValueEquals, meaning]
  | .boolean _, b, _, _ => by
    cases b <;> simp [jsonValueEquals, meaning]
  | .number _, b, _, _ => by
    cases b <;> simp [jsonValueEquals, meaning, withinEpsilon_iff]
  | .null, b, _, _ => by
    cases b <;> simp [jsonValueEquals, meaning]

theorem itemsEqual_iff : ∀ items others : List JsonValue, (∀ value ∈ items, Distinct value) →
    (∀ value ∈ others, Distinct value) → items.length = others.length →
    (itemsEqual items others = true ↔ itemsMeaning items = itemsMeaning others)
  | [], [], _, _, _ => by simp [itemsEqual]
  | a :: items, b :: others, hitems, hothers, hlength => by
    rw [List.forall_mem_cons] at hitems hothers
    have hhead := equals_iff a b hitems.1 hothers.1
    have htail := itemsEqual_iff items others hitems.2 hothers.2 (Nat.succ.inj hlength)
    rw [itemsEqual, itemsMeaning, itemsMeaning, Bool.and_eq_true, hhead, htail, List.cons.injEq]
  | [], _ :: _, _, _, hlength => absurd hlength.symm (Nat.succ_ne_zero _)
  | _ :: _, [], _, _, hlength => absurd hlength (Nat.succ_ne_zero _)

theorem entriesEqual_iff : ∀ entries others : List (CString × JsonValue),
    (∀ entry ∈ entries, Distinct entry.2) → (∀ entry ∈ others, Distinct entry.2) →
    (entriesEqual entries others = true ↔
      ∀ entry ∈ entries, ∃ value, getKey others entry.1 = some value ∧ meaning entry.2 = meaning value)
  | [], others, _, _ => by simp [entriesEqual]
  | (key, a) :: rest, others, hentries, hothers => by
    rw [List.forall_mem_cons] at hentries
    have htail := entriesEqual_iff rest others hentries.2 hothers
    rw [entriesEqual, Bool.and_eq_true, htail, List.forall_mem_cons]
    apply and_congr_left
    intro _
    cases hkey : getKey others key with
    | none => simp
    | some b =>
      have hhead := equals_iff a b hentries.1 (hothers (key, b) (mem_of_getKey hkey))
      simp only [hhead, Option.some.injEq, exists_eq_left']

end

/-- A value on which `json_value_equals` can be told from its document: names are distinct
in its objects, and its numbers are integers doubles hold exactly. -/
structure Comparable (value : JsonValue) : Prop where
  distinct : Distinct value
  exact : ExactNumbers value

/-- On such values `json_value_equals` says whether two of them stand for the same document, so
it is an equivalence that knows neither the order of entries nor capacities. -/
theorem equality_exact {a b c : JsonValue} (ha : Comparable a) (hb : Comparable b) (hc : Comparable c) :
    (jsonValueEquals a b = true ↔ meaning a = meaning b) ∧ jsonValueEquals a a = true ∧
    jsonValueEquals a b = jsonValueEquals b a ∧
    (jsonValueEquals a b = true → jsonValueEquals b c = true → jsonValueEquals a c = true) := by
  have hab := equals_iff a b ha.distinct hb.distinct
  have hba := equals_iff b a hb.distinct ha.distinct
  have hbc := equals_iff b c hb.distinct hc.distinct
  refine ⟨hab, (equals_iff a a ha.distinct ha.distinct).mpr rfl, ?_, fun hfirst hsecond => ?_⟩
  · rw [Bool.eq_iff_iff, hab, hba]
    exact eq_comm
  · exact (equals_iff a c ha.distinct hc.distinct).mpr ((hab.mp hfirst).trans (hbc.mp hsecond))

def pair : JsonValue := .object ⟨[(['a'], .number 1), (['b'], .null)], 15⟩

def swapped : JsonValue := .object ⟨[(['b'], .null), (['a'], .number 1)], 2⟩

theorem exactNumbers_pair : ExactNumbers pair :=
  .object (by simpa using ⟨.number (by decide), .null⟩)

theorem comparable_pair : Comparable pair :=
  ⟨.object (by decide) (by simpa using ⟨.number 1, .null⟩), exactNumbers_pair⟩

theorem comparable_swapped : Comparable swapped :=
  ⟨.object (by decide) (by simpa using ⟨.null, .number 1⟩),
    .object (by simpa using ⟨.null, .number (by decide)⟩)⟩

theorem equality_exact_swapped :
    (jsonValueEquals pair swapped = true ↔ meaning pair = meaning swapped) ∧
    jsonValueEquals pair pair = true ∧ jsonValueEquals pair swapped = jsonValueEquals swapped pair ∧
    (jsonValueEquals pair swapped = true → jsonValueEquals swapped pair = true →
      jsonValueEquals pair pair = true) :=
  equality_exact comparable_pair comparable_swapped comparable_pair

end DynamicPartitions.Parson.Meaning
