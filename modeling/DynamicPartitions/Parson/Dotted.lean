import DynamicPartitions.Parson.Meaning

/-!
# Dotted names

`json_object_dotget_value`, `json_object_dotset_value` and `json_object_dotremove` follow a
name with dots through nested objects. On the document an object stands for they are a
lookup, an update and a removal at the end of a path. The value to be put in is in no
container yet; `json_object_set_value` turns down any other.
-/
namespace DynamicPartitions.Parson.Dotted

open DynamicPartitions.Lib.Table
open DynamicPartitions.Abstract.Documents
open DynamicPartitions.Parson.Value
open DynamicPartitions.Parson.Meaning

/-- `json_object_dotget_value` along the segments of the dotted name; `json_object_nget_value`
reads the current one. -/
def jsonObjectDotgetSegments : List CString → Option (JsonObject JsonValue) → Option JsonValue
  | [], _ => none
  | [name], object => object.bind fun object => jsonObjectGetValue object name
  | currentName :: rest, object => jsonObjectDotgetSegments rest (jsonObjectGetObject object currentName)

def jsonObjectDotgetValue (object : Option (JsonObject JsonValue)) (name : CString) : Option JsonValue :=
  jsonObjectDotgetSegments (name.splitOn '.') object

def jsonObjectDothasValue (object : Option (JsonObject JsonValue)) (name : CString) : Bool :=
  (jsonObjectDotgetValue object name).isSome

/-- `json_object_dotset_value` along the segments of the dotted name. -/
def jsonObjectDotsetSegments (value : JsonValue) :
    List CString → JsonObject JsonValue → JsonObject JsonValue × JsonStatus
  | [], object => (object, .failure)
  | [name], object => jsonObjectSetValue object name value
  | currentName :: rest, object =>
    match jsonObjectGetObject (some object) currentName with
    | some tempObj =>
      let (tempObj, status) := jsonObjectDotsetSegments value rest tempObj
      ({ object with entries := replaceKey object.entries currentName (.object tempObj) }, status)
    | none =>
      match jsonObjectAdd object currentName (.object jsonObjectInit) with
      | (object, .failure) => (object, .failure)
      | (object, .success) =>
        let (tempObj, status) := jsonObjectDotsetSegments value rest jsonObjectInit
        ({ object with entries := replaceKey object.entries currentName (.object tempObj) }, status)

/-- `json_object_dotset_value`, for NULL or a value whose `parent` is NULL. -/
def jsonObjectDotsetValue (object : JsonObject JsonValue) (name : CString) (value : Option JsonValue) :
    JsonObject JsonValue × JsonStatus :=
  match value with
  | none => (object, .failure)
  | some value => jsonObjectDotsetSegments value (name.splitOn '.') object

/-- The value can be put there: what the name leads through are objects, and the first
object that must take a new name has room for it. -/
def fits : List CString → JsonObject JsonValue → Bool
  | [], _ => false
  | [name], object => (jsonObjectGetValue object name).isSome || decide (HasRoom object)
  | currentName :: rest, object => match jsonObjectGetValue object currentName with
    | some (.object inner) => fits rest inner
    | some _ => false
    | none => decide (HasRoom object)

/-! ## Fields of an object -/

theorem meaning_object (object : JsonObject JsonValue) :
    meaning (.object object) = .record (entriesMeaning object.entries) := rfl

theorem field_meaning (object : JsonObject JsonValue) (name : CString) :
    (meaning (.object object)).field name = (jsonObjectGetValue object name).map meaning :=
  entriesMeaning_eq object.entries name

theorem meaning_init : meaning (.object jsonObjectInit) = Document.empty := rfl

theorem setField_meaning {object object' : JsonObject JsonValue} {name : CString}
    (value : Option JsonValue) (h : ∀ other, getKey object'.entries other =
      if other = name then value else getKey object.entries other) :
    meaning (.object object') = (meaning (.object object)).setField name (value.map meaning) := by
  rw [meaning_object, meaning_object]
  apply congrArg Document.record
  funext other
  rw [entriesMeaning_eq, h]
  by_cases hother : other = name
  · rw [if_pos hother, hother, Function.update_self]
  · rw [if_neg hother, Function.update_of_ne hother, entriesMeaning_eq]

/-- An edit of an object: the field under one name becomes another, and names stay distinct. -/
structure Edits (object object' : JsonObject JsonValue) (name : CString)
    (field : Option (Document CString Scalar)) : Prop where
  meaning_eq : meaning (.object object') = (meaning (.object object)).setField name field
  distinct : Distinct (.object object')

variable {object : JsonObject JsonValue} {name : CString}

theorem Distinct.names (h : Distinct (.object object)) : (keys object.entries).Nodup := by
  cases h with
  | object hnames hvalues => exact hnames

theorem Distinct.values (h : Distinct (.object object)) : ∀ entry ∈ object.entries, Distinct entry.2 := by
  cases h with
  | object hnames hvalues => exact hvalues

theorem Distinct.value (h : Distinct (.object object)) {value : JsonValue}
    (hvalue : jsonObjectGetValue object name = some value) : Distinct value :=
  Distinct.values h (name, value) (mem_of_getKey hvalue)

theorem edits_replace (h : Distinct (.object object)) (hname : name ∈ keys object.entries)
    {value : JsonValue} (hvalue : Distinct value) :
    Edits object { object with entries := replaceKey object.entries name value } name
      (some (meaning value)) where
  meaning_eq := by
    refine setField_meaning (some value) fun other => ?_
    by_cases hother : other = name
    · rw [if_pos hother, hother]
      exact getKey_replaceKey_self hname value
    · rw [if_neg hother]
      exact getKey_replaceKey_of_ne object.entries hother value
  distinct := by
    apply Distinct.object
    · rw [keys_replaceKey]
      exact Distinct.names h
    · intro entry hentry
      obtain hold | rfl := mem_replaceKey hentry
      · exact Distinct.values h entry hold
      · exact hvalue

theorem edits_concat (h : Distinct (.object object)) (hname : name ∉ keys object.entries)
    {value : JsonValue} (hvalue : Distinct value) (capacity : Nat) :
    Edits object ⟨object.entries ++ [(name, value)], capacity⟩ name (some (meaning value)) where
  meaning_eq := by
    refine setField_meaning (some value) fun other => ?_
    rw [getKey_concat]
    by_cases hother : other = name
    · rw [if_pos hother, if_pos hother, hother, (getKey_eq_none_iff object.entries name).mpr hname,
        Option.none_or]
    · rw [if_neg hother, if_neg hother, Option.or_none]
  distinct := by
    apply Distinct.object
    · rw [keys_append, List.nodup_append]
      refine ⟨Distinct.names h, List.nodup_singleton name, ?_⟩
      intro key hkey other hother heq
      obtain rfl : other = name := List.mem_singleton.mp hother
      exact hname (heq ▸ hkey)
    · rw [List.forall_mem_append, List.forall_mem_singleton]
      exact ⟨Distinct.values h, hvalue⟩

theorem edits_remove (h : Distinct (.object object)) :
    Edits object { object with entries := removeKey object.entries name } name none where
  meaning_eq := by
    exact setField_meaning none fun other => getKey_removeKey (Distinct.names h) name other
  distinct := by
    apply Distinct.object (keys_removeKey_nodup (Distinct.names h) name)
    exact fun entry hentry => Distinct.values h entry ((mem_removeKey (Distinct.names h)).mp hentry).1

theorem edits_set (h : Distinct (.object object)) {value : JsonValue} (hvalue : Distinct value)
    (hroom : name ∈ keys object.entries ∨ HasRoom object) :
    ∃ object', jsonObjectSetValue object name value = (object', .success) ∧
      Edits object object' name (some (meaning value)) := by
  by_cases hname : name ∈ keys object.entries
  · exact ⟨_, jsonObjectSetValue_of_mem object value hname, edits_replace h hname hvalue⟩
  · obtain ⟨hstatus, hentries⟩ := (jsonObjectAdd_of_not_mem object value hname).1 (hroom.resolve_left hname)
    rw [jsonObjectSetValue_of_not_mem object value hname]
    cases hadd : jsonObjectAdd object name value with
    | mk added status =>
      rw [hadd] at hstatus hentries
      obtain ⟨entries, capacity⟩ := added
      obtain rfl : entries = object.entries ++ [(name, value)] := hentries
      obtain rfl : status = .success := hstatus
      exact ⟨_, rfl, edits_concat h hname hvalue capacity⟩

/-- Without room for a new name, the object is left as it was. -/
theorem set_refused {value : JsonValue} (hname : name ∉ keys object.entries) (hroom : ¬ HasRoom object) :
    jsonObjectSetValue object name value = (object, .failure) := by
  rw [jsonObjectSetValue_of_not_mem object value hname]
  exact (jsonObjectAdd_of_not_mem object value hname).2 hroom

/-! ## Along a path -/

theorem getObject_eq (object : JsonObject JsonValue) (name : CString) :
    jsonObjectGetObject (some object) name = jsonValueGetObject (jsonObjectGetValue object name) := rfl

theorem dotget_none : ∀ path : List CString, jsonObjectDotgetSegments path none = none
  | [] => rfl
  | [_] => rfl
  | _ :: next :: rest => dotget_none (next :: rest)

theorem dotget_spec : ∀ (path : List CString) (object : JsonObject JsonValue), path ≠ [] →
    (jsonObjectDotgetSegments path (some object)).map meaning = find path (meaning (.object object))
  | [], _, h => absurd rfl h
  | [name], object, _ => by
    rw [find, field_meaning, jsonObjectDotgetSegments, Option.bind_some]
    cases jsonObjectGetValue object name <;> rfl
  | name :: next :: rest, object, _ => by
    have ih := fun inner => dotget_spec (next :: rest) inner (List.cons_ne_nil next rest)
    rw [find, field_meaning]
    show (jsonObjectDotgetSegments (next :: rest)
      (jsonValueGetObject (jsonObjectGetValue object name))).map meaning = _
    cases hvalue : jsonObjectGetValue object name with
    | none =>
      show (jsonObjectDotgetSegments (next :: rest) none).map meaning = none
      rw [dotget_none]
      rfl
    | some value =>
      cases value with
      | object inner => exact ih inner
      | _ =>
        show (jsonObjectDotgetSegments (next :: rest) none).map meaning = none
        rw [dotget_none]
        rfl

theorem distinct_init : Distinct (.object jsonObjectInit) :=
  .object List.nodup_nil fun _ hentry => absurd hentry List.not_mem_nil

theorem fits_init {path : List CString} (h : path ≠ []) : fits path jsonObjectInit = true := by
  obtain ⟨name, rest, rfl⟩ := List.exists_cons_of_ne_nil h
  cases rest with
  | nil => rfl
  | cons next rest => rfl

/-- What `json_object_dotset_value` makes of an object: the document with the value put at
the end of the path, if it fits; else the same object. -/
structure DotsetSpec (value : JsonValue) (path : List CString) (object : JsonObject JsonValue) : Prop where
  put : fits path object = true → ∃ object', jsonObjectDotsetSegments value path object = (object', .success) ∧
    Distinct (.object object') ∧
    meaning (.object object') = put (meaning value) path (meaning (.object object))
  refused : fits path object = false → jsonObjectDotsetSegments value path object = (object, .failure)

theorem mem_keys_of_value {value : JsonValue} (h : jsonObjectGetValue object name = some value) :
    name ∈ keys object.entries :=
  (getKey_isSome_iff object.entries name).mp (Option.isSome_of_eq_some h)

/-! ### One step along the path -/

section Step

variable (value : JsonValue) (next : CString) (rest : List CString)

theorem dotset_into {inner : JsonObject JsonValue}
    (hget : jsonObjectGetValue object name = some (.object inner)) :
    jsonObjectDotsetSegments value (name :: next :: rest) object =
      (⟨replaceKey object.entries name (.object (jsonObjectDotsetSegments value (next :: rest) inner).1),
          object.capacity⟩, (jsonObjectDotsetSegments value (next :: rest) inner).2) := by
  simp only [jsonObjectDotsetSegments, getObject_eq, hget, jsonValueGetObject]

theorem dotset_blocked {other : JsonValue} (hget : jsonObjectGetValue object name = some other)
    (hother : jsonValueGetObject (some other) = none) :
    jsonObjectDotsetSegments value (name :: next :: rest) object = (object, .failure) := by
  have hadd := jsonObjectAdd_of_mem object (.object jsonObjectInit) (mem_keys_of_value hget)
  simp only [jsonObjectDotsetSegments, getObject_eq, hget, hother, hadd]

theorem dotset_full (hname : name ∉ keys object.entries) (hroom : ¬ HasRoom object) :
    jsonObjectDotsetSegments value (name :: next :: rest) object = (object, .failure) := by
  have hget : jsonObjectGetValue object name = none := (getKey_eq_none_iff object.entries name).mpr hname
  have hadd := (jsonObjectAdd_of_not_mem object (.object jsonObjectInit) hname).2 hroom
  simp only [jsonObjectDotsetSegments, getObject_eq, hget, jsonValueGetObject, hadd]

theorem dotset_new (hname : name ∉ keys object.entries) (hroom : HasRoom object) :
    ∃ capacity, jsonObjectDotsetSegments value (name :: next :: rest) object =
      (⟨replaceKey (object.entries ++ [(name, .object jsonObjectInit)]) name
          (.object (jsonObjectDotsetSegments value (next :: rest) jsonObjectInit).1), capacity⟩,
        (jsonObjectDotsetSegments value (next :: rest) jsonObjectInit).2) := by
  have hget : jsonObjectGetValue object name = none := (getKey_eq_none_iff object.entries name).mpr hname
  obtain ⟨hstatus, hentries⟩ := (jsonObjectAdd_of_not_mem object (.object jsonObjectInit) hname).1 hroom
  cases hadd : jsonObjectAdd object name (.object jsonObjectInit) with
  | mk added status =>
    rw [hadd] at hstatus hentries
    obtain ⟨entries, capacity⟩ := added
    obtain rfl : entries = object.entries ++ [(name, .object jsonObjectInit)] := hentries
    obtain rfl : status = .success := hstatus
    exact ⟨capacity, by simp only [jsonObjectDotsetSegments, getObject_eq, hget, jsonValueGetObject, hadd]⟩

end Step

theorem dotset_spec {value : JsonValue} (hvalue : Distinct value) : ∀ (path : List CString)
    (object : JsonObject JsonValue), path ≠ [] → Distinct (.object object) → DotsetSpec value path object
  | [], _, h, _ => absurd rfl h
  | [name], object, _, hobject => by
    have hmem := getKey_isSome_iff object.entries name
    constructor
    · intro hfits
      rw [fits, Bool.or_eq_true, decide_eq_true_eq, jsonObjectGetValue, hmem] at hfits
      obtain ⟨object', hset, hedits⟩ := edits_set hobject hvalue hfits
      exact ⟨object', hset, hedits.distinct, hedits.meaning_eq⟩
    · intro hfits
      rw [fits, Bool.or_eq_false_iff, decide_eq_false_iff_not, jsonObjectGetValue] at hfits
      exact set_refused (fun hname => by simp [hmem.mpr hname] at hfits) hfits.2
  | name :: next :: rest, object, _, hobject => by
    have ih := fun inner => dotset_spec hvalue (next :: rest) inner (List.cons_ne_nil next rest)
    have hfield := field_meaning object name
    cases hget : jsonObjectGetValue object name with
    | none =>
      have hname : name ∉ keys object.entries := (getKey_eq_none_iff object.entries name).mp hget
      constructor
      · intro hfits
        have hroom : HasRoom object := by simpa [fits, hget] using hfits
        obtain ⟨tempObj, hset, hdistinct, hmeaning⟩ :=
          (ih jsonObjectInit distinct_init).put (fits_init (List.cons_ne_nil next rest))
        obtain ⟨capacity, hnew⟩ := dotset_new value next rest hname hroom
        have hadded := edits_concat hobject hname distinct_init capacity
        have hreplaced := edits_replace hadded.distinct
          (by rw [keys_append]; exact List.mem_append_right _ List.mem_cons_self) hdistinct
        rw [hset] at hnew
        refine ⟨_, hnew, hreplaced.distinct, hreplaced.meaning_eq.trans ?_⟩
        rw [hadded.meaning_eq, setField_setField, hmeaning, put_cons _ name, hfield, hget, meaning_init]
        rfl
      · intro hfits
        exact dotset_full value next rest hname (by simpa [fits, hget] using hfits)
    | some inner =>
      have hmem := mem_keys_of_value hget
      have hinner := Distinct.value hobject hget
      cases inner with
      | object inner =>
        have hspec := ih inner hinner
        have hinto := dotset_into value next rest hget
        constructor
        · intro hfits
          obtain ⟨tempObj, hset, hdistinct, hmeaning⟩ := hspec.put (by simpa [fits, hget] using hfits)
          have hreplaced := edits_replace hobject hmem hdistinct
          rw [hset] at hinto
          refine ⟨_, hinto, hreplaced.distinct, hreplaced.meaning_eq.trans ?_⟩
          rw [hmeaning, put_cons _ name, hfield, hget]
          rfl
        · intro hfits
          rw [hspec.refused (by simpa [fits, hget] using hfits)] at hinto
          rw [hinto, replaceKey_of_getKey hget]
      | _ =>
        constructor
        · intro hfits
          simp [fits, hget] at hfits
        · intro _
          exact dotset_blocked value next rest hget rfl

/-! ### Removal -/

theorem value_of_getObject {value : Option JsonValue} {inner : JsonObject JsonValue}
    (h : jsonValueGetObject value = some inner) : value = some (.object inner) := by
  unfold jsonValueGetObject at h
  split at h
  · rw [Option.some.inj h]
  · cases h

/-- Nothing stands at the end of a path that leads through something else than an object. -/
theorem leaf_path (next : CString) (rest : List CString) {value : Option JsonValue}
    (h : jsonValueGetObject value = none) :
    (value.map meaning).bind (find (next :: rest)) = none ∧
    (value.map meaning).map (erase (next :: rest)) = value.map meaning := by
  cases value with
  | none => exact ⟨rfl, rfl⟩
  | some value =>
    cases value with
    | object inner => cases h
    | _ => exact ⟨rfl, by cases rest <;> rfl⟩

/-- What `json_object_dotremove` makes of an object: the document without what stood at the
end of the path, whatever the status says, and success when something stood there. -/
structure DotremoveSpec (path : List CString) (object : JsonObject JsonValue) : Prop where
  status : (jsonObjectDotremoveSegments path object).2 = .success ↔
    (find path (meaning (.object object))).isSome
  distinct : Distinct (.object (jsonObjectDotremoveSegments path object).1)
  meaning_eq : meaning (.object (jsonObjectDotremoveSegments path object).1) =
    erase path (meaning (.object object))

theorem dotremove_spec : ∀ (path : List CString) (object : JsonObject JsonValue), path ≠ [] →
    Distinct (.object object) → DotremoveSpec path object
  | [], _, h, _ => absurd rfl h
  | [name], object, _, hobject => by
    have hedits : Edits object ⟨removeKey object.entries name, object.capacity⟩ name none := edits_remove hobject
    have hfield := field_meaning object name
    show DotremoveSpec [name] object
    cases hget : jsonObjectGetValue object name with
    | none =>
      have hremove : jsonObjectDotremoveSegments [name] object = (object, .failure) := by
        simp only [jsonObjectDotremoveSegments, jsonObjectRemove, hget]
      rw [hget] at hfield
      constructor
      · rw [hremove, find, hfield]
        simp
      · rw [hremove]
        exact hobject
      · have hsame := setField_field (meaning (.object object)) name
        rw [hfield] at hsame
        rw [hremove, erase]
        exact hsame.symm
    | some value =>
      have hremove : jsonObjectDotremoveSegments [name] object =
          (⟨removeKey object.entries name, object.capacity⟩, .success) := by
        simp only [jsonObjectDotremoveSegments, jsonObjectRemove, hget]
      rw [hget] at hfield
      constructor
      · rw [hremove, find, hfield]
        simp [find]
      · rw [hremove]
        exact hedits.distinct
      · rw [hremove]
        exact hedits.meaning_eq
  | name :: next :: rest, object, _, hobject => by
    have ih := fun inner => dotremove_spec (next :: rest) inner (List.cons_ne_nil next rest)
    have hfield := field_meaning object name
    have hsame := setField_field (meaning (.object object)) name
    have herase : erase (name :: next :: rest) (meaning (.object object)) =
        (meaning (.object object)).setField name
          (((jsonObjectGetValue object name).map meaning).map (erase (next :: rest))) := by
      rw [← hfield]
      rfl
    cases hvalue : jsonValueGetObject (jsonObjectGetValue object name) with
    | none =>
      have hremove : jsonObjectDotremoveSegments (name :: next :: rest) object = (object, .failure) := by
        simp only [jsonObjectDotremoveSegments, getObject_eq, hvalue]
      obtain ⟨hfind, hkept⟩ := leaf_path next rest hvalue
      rw [hfield] at hsame
      constructor
      · rw [hremove, find, hfield, hfind]
        simp
      · rw [hremove]
        exact hobject
      · rw [hremove, herase, hkept]
        exact hsame.symm
    | some inner =>
      have hget := value_of_getObject hvalue
      have hspec := ih inner (Distinct.value hobject hget)
      have hremove : jsonObjectDotremoveSegments (name :: next :: rest) object =
          (⟨replaceKey object.entries name (.object (jsonObjectDotremoveSegments (next :: rest) inner).1),
            object.capacity⟩, (jsonObjectDotremoveSegments (next :: rest) inner).2) := by
        simp only [jsonObjectDotremoveSegments, getObject_eq, hvalue]
      have hedits := edits_replace hobject (mem_keys_of_value hget) hspec.distinct
      rw [hget] at hfield
      constructor
      · rw [hremove, find, hfield]
        exact hspec.status
      · rw [hremove]
        exact hedits.distinct
      · rw [hremove, herase, hget]
        exact hedits.meaning_eq.trans (by rw [hspec.meaning_eq]; rfl)

/-! ## The dotted names -/

theorem passable_of_fits : ∀ (path : List CString) (object : JsonObject JsonValue),
    fits path object = true → Passable path (meaning (.object object))
  | [], _, h => absurd h Bool.false_ne_true
  | [_], object, _ => ⟨⟨entriesMeaning object.entries, rfl⟩, fun _ _ => trivial⟩
  | name :: next :: rest, object, h => by
    refine ⟨⟨entriesMeaning object.entries, rfl⟩, fun inner hinner => ?_⟩
    rw [field_meaning] at hinner
    obtain ⟨value, hget, rfl⟩ := Option.map_eq_some_iff.mp hinner
    cases value with
    | object inner => exact passable_of_fits (next :: rest) inner (by simpa [fits, hget] using h)
    | _ => simp [fits, hget] at h

/-- Two names of which neither leads through the other's place. -/
def Apart (name other : CString) : Prop :=
  ¬ name.splitOn '.' <+: other.splitOn '.' ∧ ¬ other.splitOn '.' <+: name.splitOn '.'

theorem dotget_document (object : JsonObject JsonValue) (name : CString) :
    (jsonObjectDotgetValue (some object) name).map meaning =
      find (name.splitOn '.') (meaning (.object object)) :=
  dotget_spec _ object (List.splitOn_ne_nil '.' name)

/-- On a value in no container `json_object_dotset_value` fails exactly when the value does not
fit, and then it changes nothing, though it makes objects on its way. Otherwise the name leads
to the value, and every name apart from it to what it led to. -/
theorem dotset_exact {object : JsonObject JsonValue} (h : Distinct (.object object)) (name : CString)
    {value : JsonValue} (hvalue : Distinct value) :
    (fits (name.splitOn '.') object = false →
      jsonObjectDotsetValue object name (some value) = (object, .failure)) ∧
    (fits (name.splitOn '.') object = true → ∃ object',
      jsonObjectDotsetValue object name (some value) = (object', .success) ∧ Distinct (.object object') ∧
      meaning (.object object') = put (meaning value) (name.splitOn '.') (meaning (.object object)) ∧
      (jsonObjectDotgetValue (some object') name).map meaning = some (meaning value) ∧
      ∀ other, Apart name other → (jsonObjectDotgetValue (some object') other).map meaning =
        (jsonObjectDotgetValue (some object) other).map meaning) := by
  have hspec := dotset_spec hvalue (name.splitOn '.') object (List.splitOn_ne_nil '.' name) h
  refine ⟨hspec.refused, fun hfits => ?_⟩
  obtain ⟨object', hset, hdistinct, hmeaning⟩ := hspec.put hfits
  refine ⟨object', hset, hdistinct, hmeaning, ?_, fun other hapart => ?_⟩
  · rw [dotget_document, hmeaning]
    exact find_put_self _ _ (passable_of_fits _ object hfits)
  · rw [dotget_document, dotget_document, hmeaning]
    exact find_put_of_apart _ _ hapart.1 hapart.2

def nested : JsonObject JsonValue := ⟨[(['a'], .object ⟨[(['b'], .number 1)], 1⟩), (['c'], .null)], 2⟩

theorem distinct_nested : Distinct (.object nested) := by
  apply Distinct.object (by decide)
  simp only [nested, List.forall_mem_cons]
  refine ⟨.object (by decide) ?_, .null, fun _ hmem => absurd hmem List.not_mem_nil⟩
  simpa using Distinct.number 1

def nestedName : CString := ['a', '.', 'b']

theorem dotset_exact_nested :
    (fits (nestedName.splitOn '.') nested = false →
      jsonObjectDotsetValue nested nestedName (some .null) = (nested, .failure)) ∧
    (fits (nestedName.splitOn '.') nested = true → ∃ object',
      jsonObjectDotsetValue nested nestedName (some .null) = (object', .success) ∧ Distinct (.object object') ∧
      meaning (.object object') = put (meaning .null) (nestedName.splitOn '.') (meaning (.object nested)) ∧
      (jsonObjectDotgetValue (some object') nestedName).map meaning = some (meaning .null) ∧
      ∀ other, Apart nestedName other → (jsonObjectDotgetValue (some object') other).map meaning =
        (jsonObjectDotgetValue (some nested) other).map meaning) :=
  dotset_exact distinct_nested nestedName .null

/-- `json_object_dotremove` takes away what the name led to, which was something exactly when
it succeeds, and nothing that a name apart from it leads to. -/
theorem dotremove_exact {object : JsonObject JsonValue} (h : Distinct (.object object)) (name : CString) :
    ((jsonObjectDotremove object name).2 = .success ↔ jsonObjectDothasValue (some object) name = true) ∧
    Distinct (.object (jsonObjectDotremove object name).1) ∧
    meaning (.object (jsonObjectDotremove object name).1) =
      erase (name.splitOn '.') (meaning (.object object)) ∧
    jsonObjectDothasValue (some (jsonObjectDotremove object name).1) name = false ∧
    ∀ other, Apart name other →
      (jsonObjectDotgetValue (some (jsonObjectDotremove object name).1) other).map meaning =
        (jsonObjectDotgetValue (some object) other).map meaning := by
  have hpath := List.splitOn_ne_nil '.' name
  have hspec := dotremove_spec (name.splitOn '.') object hpath h
  have hmeaning : meaning (.object (jsonObjectDotremove object name).1) =
      erase (name.splitOn '.') (meaning (.object object)) := hspec.meaning_eq
  refine ⟨?_, hspec.distinct, hmeaning, ?_, fun other hapart => ?_⟩
  · rw [jsonObjectDothasValue, ← Option.isSome_map (f := meaning), dotget_document]
    exact hspec.status
  · rw [jsonObjectDothasValue, ← Option.isSome_map (f := meaning), dotget_document, hmeaning,
      find_erase_self _ _ hpath]
    rfl
  · rw [dotget_document, dotget_document, hmeaning]
    exact find_erase_of_apart _ hapart.1 hapart.2

theorem dotremove_exact_nested :
    ((jsonObjectDotremove nested nestedName).2 = .success ↔
      jsonObjectDothasValue (some nested) nestedName = true) ∧
    Distinct (.object (jsonObjectDotremove nested nestedName).1) ∧
    meaning (.object (jsonObjectDotremove nested nestedName).1) =
      erase (nestedName.splitOn '.') (meaning (.object nested)) ∧
    jsonObjectDothasValue (some (jsonObjectDotremove nested nestedName).1) nestedName = false ∧
    ∀ other, Apart nestedName other →
      (jsonObjectDotgetValue (some (jsonObjectDotremove nested nestedName).1) other).map meaning =
        (jsonObjectDotgetValue (some nested) other).map meaning :=
  dotremove_exact distinct_nested nestedName

end DynamicPartitions.Parson.Dotted
