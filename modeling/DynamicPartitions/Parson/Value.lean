import DynamicPartitions.Lib.Table

/-!
# JSON values and their containers

`lib/parson.c` keeps an object as parallel arrays of names and values with a
count and a capacity, and an array likewise. The capacity is data here because
`json_object_add` and `json_array_add` refuse to grow past a fixed bound, and the
worker ignores that refusal. A pointer that may be NULL is an `Option`; the parent
pointers are left out, every value the programs insert being freshly made. Numbers are
integers: a value stands for one of the source if a double holds each of them exactly,
and results about values of any other origin say so (`ExactNumbers`).
-/
namespace DynamicPartitions.Parson.Value

open DynamicPartitions.Lib.Table

/-- A C string without its terminating zero, a byte being the character of its code. -/
abbrev CString := List Char

def startingCapacity : Nat := 15
def arrayMaxCapacity : Nat := 122880
def objectMaxCapacity : Nat := 960
def maxNesting : Nat := 2048

inductive JsonStatus where
  | success
  | failure
deriving DecidableEq, Repr

/-- `json_object_t`: names and values in order, and the allocated capacity. -/
structure JsonObject (V : Type) where
  entries : List (CString × V)
  capacity : Nat

/-- `json_array_t`. -/
structure JsonArray (V : Type) where
  items : List V
  capacity : Nat

/-- `json_value_t`. Numbers are the integers, the only ones the programs write. -/
inductive JsonValue where
  | null
  | boolean (value : Bool)
  | number (value : Int)
  | string (value : CString)
  | array (value : JsonArray JsonValue)
  | object (value : JsonObject JsonValue)

/-- An integer up to which doubles leave none out. -/
def IsExact (n : Int) : Prop := n.natAbs ≤ 2 ^ 53

instance (n : Int) : Decidable (IsExact n) := inferInstanceAs (Decidable (_ ≤ _))

/-- Every number of the value is such an integer. -/
inductive ExactNumbers : JsonValue → Prop
  | null : ExactNumbers .null
  | boolean (value : Bool) : ExactNumbers (.boolean value)
  | number {value : Int} : IsExact value → ExactNumbers (.number value)
  | string (value : CString) : ExactNumbers (.string value)
  | array {array : JsonArray JsonValue} : (∀ value ∈ array.items, ExactNumbers value) →
      ExactNumbers (.array array)
  | object {object : JsonObject JsonValue} : (∀ entry ∈ object.entries, ExactNumbers entry.2) →
      ExactNumbers (.object object)

/-! ## Objects -/

section Object

variable {V : Type}

def jsonObjectInit : JsonObject V := ⟨[], 0⟩

def jsonObjectGetCount (object : JsonObject V) : Nat := object.entries.length

/-- `json_object_get_value`: the first entry under the name. -/
def jsonObjectGetValue (object : JsonObject V) (name : CString) : Option V :=
  getKey object.entries name

def jsonObjectResize (object : JsonObject V) (newCapacity : Nat) : JsonObject V × JsonStatus :=
  if newCapacity = 0 then (object, .failure) else ({ object with capacity := newCapacity }, .success)

/-- The tail of `json_object_add`, once there is room. -/
def jsonObjectAppend (object : JsonObject V) (name : CString) (value : V) : JsonObject V :=
  { object with entries := object.entries ++ [(name, value)] }

def jsonObjectAdd (object : JsonObject V) (name : CString) (value : V) :
    JsonObject V × JsonStatus :=
  if (jsonObjectGetValue object name).isSome then (object, .failure)
  else if jsonObjectGetCount object ≥ object.capacity then
    let newCapacity := max (object.capacity * 2) startingCapacity
    if newCapacity > objectMaxCapacity then (object, .failure)
    else match jsonObjectResize object newCapacity with
      | (object, .failure) => (object, .failure)
      | (object, .success) => (jsonObjectAppend object name value, .success)
  else (jsonObjectAppend object name value, .success)

/-- `json_object_set_value`: an old value is overwritten in its place. -/
def jsonObjectSetValue (object : JsonObject V) (name : CString) (value : V) :
    JsonObject V × JsonStatus :=
  match jsonObjectGetValue object name with
  | some _ => ({ object with entries := replaceKey object.entries name value }, .success)
  | none => jsonObjectAdd object name value

/-- `json_object_remove`: the last entry is moved into the hole. -/
def jsonObjectRemove (object : JsonObject V) (name : CString) : JsonObject V × JsonStatus :=
  match jsonObjectGetValue object name with
  | none => (object, .failure)
  | some _ => ({ object with entries := removeKey object.entries name }, .success)

end Object

/-! ## Arrays -/

section Array

variable {V : Type}

def jsonArrayGetCount (array : JsonArray V) : Nat := array.items.length

def jsonArrayResize (array : JsonArray V) (newCapacity : Nat) : JsonArray V × JsonStatus :=
  if newCapacity = 0 then (array, .failure) else ({ array with capacity := newCapacity }, .success)

/-- The tail of `json_array_add`, once there is room. -/
def jsonArrayAppend (array : JsonArray V) (value : V) : JsonArray V :=
  { array with items := array.items ++ [value] }

def jsonArrayAdd (array : JsonArray V) (value : V) : JsonArray V × JsonStatus :=
  if jsonArrayGetCount array ≥ array.capacity then
    let newCapacity := max (array.capacity * 2) startingCapacity
    if newCapacity > arrayMaxCapacity then (array, .failure)
    else match jsonArrayResize array newCapacity with
      | (array, .failure) => (array, .failure)
      | (array, .success) => (jsonArrayAppend array value, .success)
  else (jsonArrayAppend array value, .success)

def jsonArrayGetValue (array : JsonArray V) (index : Nat) : Option V := array.items[index]?

end Array

/-! ## Accessors that accept NULL -/

def jsonValueGetObject : Option JsonValue → Option (JsonObject JsonValue)
  | some (.object value) => some value
  | _ => none

def jsonValueGetArray : Option JsonValue → Option (JsonArray JsonValue)
  | some (.array value) => some value
  | _ => none

/-- `json_value_get_number`: anything that is no number reads as zero. -/
def jsonValueGetNumber : Option JsonValue → Int
  | some (.number value) => value
  | _ => 0

def jsonArrayGetObject (array : Option (JsonArray JsonValue)) (index : Nat) :
    Option (JsonObject JsonValue) :=
  jsonValueGetObject (array.bind (jsonArrayGetValue · index))

def jsonObjectGetNumber (object : Option (JsonObject JsonValue)) (name : CString) : Int :=
  jsonValueGetNumber (object.bind (jsonObjectGetValue · name))

def jsonObjectGetObject (object : Option (JsonObject JsonValue)) (name : CString) :
    Option (JsonObject JsonValue) :=
  jsonValueGetObject (object.bind (jsonObjectGetValue · name))

def jsonObjectSetNumber (object : JsonObject JsonValue) (name : CString) (number : Int) :
    JsonObject JsonValue × JsonStatus :=
  jsonObjectSetValue object name (.number number)

def jsonObjectSetNull (object : JsonObject JsonValue) (name : CString) :
    JsonObject JsonValue × JsonStatus :=
  jsonObjectSetValue object name .null

/-- `json_object_dotremove` along the segments of the dotted name. -/
def jsonObjectDotremoveSegments :
    List CString → JsonObject JsonValue → JsonObject JsonValue × JsonStatus
  | [], object => (object, .failure)
  | [name], object => jsonObjectRemove object name
  | currentName :: rest, object =>
    match jsonObjectGetObject (some object) currentName with
    | none => (object, .failure)
    | some tempObj =>
      let (tempObj, status) := jsonObjectDotremoveSegments rest tempObj
      ({ object with entries := replaceKey object.entries currentName (.object tempObj) }, status)

/-- `json_object_dotremove`. Splitting at the first dot, again and again, is splitting
at every dot; the nested object is edited in place. -/
def jsonObjectDotremove (object : JsonObject JsonValue) (name : CString) :
    JsonObject JsonValue × JsonStatus :=
  jsonObjectDotremoveSegments (name.splitOn '.') object

/-! ## Equality -/

/-- `fabs(a - b) < 0.000001`, both sides in millionths. -/
def withinEpsilon (a b : Int) : Bool := (a - b).natAbs * 1000000 < 1

/-- The tolerance takes no two integers for one. -/
theorem withinEpsilon_iff {a b : Int} : withinEpsilon a b = true ↔ a = b := by
  unfold withinEpsilon
  rw [decide_eq_true_iff]
  omega

mutual

/-- `json_value_equals`. -/
def jsonValueEquals : JsonValue → JsonValue → Bool
  | .array ⟨items, _⟩, .array b => items.length == jsonArrayGetCount b && itemsEqual items b.items
  | .object ⟨entries, _⟩, .object b =>
    entries.length == jsonObjectGetCount b && entriesEqual entries b.entries
  | .string a, .string b => a == b
  | .boolean a, .boolean b => a == b
  | .number a, .number b => withinEpsilon a b
  | .null, .null => true
  | _, _ => false

def itemsEqual : List JsonValue → List JsonValue → Bool
  | [], _ => true
  | a :: rest, b :: others => jsonValueEquals a b && itemsEqual rest others
  | _ :: _, [] => false

def entriesEqual : List (CString × JsonValue) → List (CString × JsonValue) → Bool
  | [], _ => true
  | (key, a) :: rest, others =>
    (match getKey others key with
      | some b => jsonValueEquals a b
      | none => false) && entriesEqual rest others

end

/-- A value equals a fresh object exactly when it is an object without entries. -/
theorem jsonValueEquals_init (object : JsonObject JsonValue) :
    jsonValueEquals (.object object) (.object jsonObjectInit) = true ↔ object.entries = [] := by
  obtain ⟨entries, capacity⟩ := object
  cases entries with
  | nil => simp [jsonValueEquals, jsonObjectGetCount, jsonObjectInit, entriesEqual]
  | cons entry rest => simp [jsonValueEquals, jsonObjectGetCount, jsonObjectInit]

/-! ## What the operations do to the entries -/

section Lemmas

variable {V : Type}

/-- `json_object_add` has room: the array is not full, or it may still be doubled. -/
def HasRoom (object : JsonObject V) : Prop :=
  object.entries.length < object.capacity ∨
    max (object.capacity * 2) startingCapacity ≤ objectMaxCapacity

instance (object : JsonObject V) : Decidable (HasRoom object) :=
  inferInstanceAs (Decidable (_ ∨ _))

theorem jsonObjectResize_success (object : JsonObject V) {n : Nat} (hn : n ≠ 0) :
    jsonObjectResize object n = ({ object with capacity := n }, .success) := if_neg hn

theorem jsonObjectAdd_of_mem (object : JsonObject V) {name : CString} (value : V)
    (h : name ∈ keys object.entries) : jsonObjectAdd object name value = (object, .failure) := by
  unfold jsonObjectAdd jsonObjectGetValue
  rw [if_pos ((getKey_isSome_iff _ _).mpr h)]

/-- A new name is appended when there is room and refused when there is not. -/
theorem jsonObjectAdd_of_not_mem (object : JsonObject V) {name : CString} (value : V)
    (h : name ∉ keys object.entries) :
    (HasRoom object → (jsonObjectAdd object name value).2 = .success ∧
      (jsonObjectAdd object name value).1.entries = object.entries ++ [(name, value)]) ∧
    (¬ HasRoom object → jsonObjectAdd object name value = (object, .failure)) := by
  have hget : (jsonObjectGetValue object name).isSome = false := by
    rw [Bool.eq_false_iff]
    exact fun hs => h ((getKey_isSome_iff _ _).mp hs)
  have hpos : max (object.capacity * 2) startingCapacity ≠ 0 := by
    unfold startingCapacity
    omega
  unfold jsonObjectAdd HasRoom jsonObjectGetCount
  rw [hget]
  by_cases hfull : object.entries.length ≥ object.capacity
  · by_cases hmax : max (object.capacity * 2) startingCapacity > objectMaxCapacity
    · have hnot := Nat.not_le.mpr hmax
      simp only [hfull, hmax, hnot, Nat.not_lt.mpr hfull]
      simp
    · have hle := Nat.le_of_not_lt hmax
      simp only [hfull, hmax, hle, jsonObjectResize_success object hpos, jsonObjectAppend]
      simp
  · simp [hfull, jsonObjectAppend, Nat.lt_of_not_le hfull]

theorem jsonObjectSetValue_of_mem (object : JsonObject V) {name : CString} (value : V)
    (h : name ∈ keys object.entries) :
    jsonObjectSetValue object name value =
      ({ object with entries := replaceKey object.entries name value }, .success) := by
  obtain ⟨old, hold⟩ := Option.isSome_iff_exists.mp ((getKey_isSome_iff _ _).mpr h)
  unfold jsonObjectSetValue jsonObjectGetValue
  rw [hold]

theorem jsonObjectSetValue_of_not_mem (object : JsonObject V) {name : CString} (value : V)
    (h : name ∉ keys object.entries) :
    jsonObjectSetValue object name value = jsonObjectAdd object name value := by
  unfold jsonObjectSetValue jsonObjectGetValue
  rw [(getKey_eq_none_iff _ _).mpr h]

/-- The entries after `json_object_set_value`, whatever its status. -/
theorem entries_jsonObjectSetValue (object : JsonObject V) (name : CString) (value : V) :
    (jsonObjectSetValue object name value).1.entries =
      if name ∈ keys object.entries then replaceKey object.entries name value
      else if HasRoom object then object.entries ++ [(name, value)] else object.entries := by
  by_cases hmem : name ∈ keys object.entries
  · rw [jsonObjectSetValue_of_mem object value hmem, if_pos hmem]
  · rw [jsonObjectSetValue_of_not_mem object value hmem, if_neg hmem]
    obtain ⟨hroom, hfull⟩ := jsonObjectAdd_of_not_mem object value hmem
    by_cases hr : HasRoom object
    · rw [if_pos hr, (hroom hr).2]
    · rw [if_neg hr, hfull hr]

/-- The entries after `json_object_remove`, whatever its status. -/
theorem entries_jsonObjectRemove (object : JsonObject V) (name : CString) :
    (jsonObjectRemove object name).1.entries = removeKey object.entries name := by
  unfold jsonObjectRemove jsonObjectGetValue
  cases h : getKey object.entries name with
  | some value => rfl
  | none => exact (removeKey_of_not_mem ((getKey_eq_none_iff _ _).mp h)).symm

/-- A parsed object is trimmed to its count: it takes a new name as long as
doubling the count stays within the bound. -/
theorem hasRoom_trimmed (entries : List (CString × V)) :
    HasRoom (⟨entries, entries.length⟩ : JsonObject V) ↔ entries.length ≤ 480 := by
  unfold HasRoom startingCapacity objectMaxCapacity
  simp only
  omega

end Lemmas

end DynamicPartitions.Parson.Value
