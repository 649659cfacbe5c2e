import DynamicPartitions.Abstract.Dictionaries
import DynamicPartitions.Parson.Unicode

/-!
# An object in use

Calls on an object, one after the other. Whatever they are, the object answers them like a
dictionary that has room for as many names as its capacity can be doubled to.
-/
namespace DynamicPartitions.Parson.Containers

open DynamicPartitions.Lib.Table
open DynamicPartitions.Abstract.Dictionaries
open DynamicPartitions.Parson.Value
open DynamicPartitions.Parson.Unicode

/-- `json_object_set_value` on a value that may have a `parent`, which it then turns down. -/
def jsonObjectSetValueOf (object : JsonObject JsonValue) (name : CString) (value : JsonValue)
    (hasParent : Bool) : JsonObject JsonValue × JsonStatus :=
  if hasParent then (object, .failure) else jsonObjectSetValue object name value

def jsonObjectSetString (object : JsonObject JsonValue) (name string : CString) :
    JsonObject JsonValue × JsonStatus :=
  match jsonValueInitString string with
  | some value => jsonObjectSetValue object name value
  | none => (object, .failure)

def jsonObjectSetBoolean (object : JsonObject JsonValue) (name : CString) (boolean : Bool) :
    JsonObject JsonValue × JsonStatus :=
  jsonObjectSetValue object name (.boolean boolean)

/-- `json_object_clear`: the arrays stay allocated. -/
def jsonObjectClear (object : JsonObject JsonValue) : JsonObject JsonValue × JsonStatus :=
  ({ object with entries := [] }, .success)

/-- A call with its arguments. -/
inductive ObjectCall where
  | setValue (name : CString) (value : JsonValue) (hasParent : Bool)
  | setString (name string : CString)
  | setNumber (name : CString) (number : Int)
  | setBoolean (name : CString) (boolean : Bool)
  | setNull (name : CString)
  | remove (name : CString)
  | clear

def ObjectCall.run (object : JsonObject JsonValue) : ObjectCall → JsonObject JsonValue × JsonStatus
  | .setValue name value hasParent => jsonObjectSetValueOf object name value hasParent
  | .setString name string => jsonObjectSetString object name string
  | .setNumber name number => jsonObjectSetNumber object name number
  | .setBoolean name boolean => jsonObjectSetBoolean object name boolean
  | .setNull name => jsonObjectSetNull object name
  | .remove name => jsonObjectRemove object name
  | .clear => jsonObjectClear object

def runCalls : JsonObject JsonValue → List ObjectCall → JsonObject JsonValue × List JsonStatus
  | object, [] => (object, [])
  | object, call :: calls =>
    let (next, status) := call.run object
    let (last, statuses) := runCalls next calls
    (last, status :: statuses)

theorem runCalls_cons (object : JsonObject JsonValue) (call : ObjectCall) (calls : List ObjectCall) :
    runCalls object (call :: calls) =
      ((runCalls (call.run object).1 calls).1, (call.run object).2 :: (runCalls (call.run object).1 calls).2) :=
  rfl

/-- What a call asks a dictionary for. A value that is in a container already is none to be
put, and a string that is no UTF-8 has no value. -/
def ObjectCall.request : ObjectCall → Request CString JsonValue
  | .setValue name value hasParent => if hasParent then .void else .put name value
  | .setString name string => match jsonValueInitString string with
    | some value => .put name value
    | none => .void
  | .setNumber name number => .put name (.number number)
  | .setBoolean name boolean => .put name (.boolean boolean)
  | .setNull name => .put name .null
  | .remove name => .drop name
  | .clear => .clear

/-- The status by which a call says whether it was granted. -/
def statusOf (granted : Bool) : JsonStatus := if granted then .success else .failure

/-! ## Room -/

/-- The capacity that can be reached by doubling. -/
def limit (capacity : Nat) : Nat :=
  if max (capacity * 2) startingCapacity ≤ objectMaxCapacity then
    limit (max (capacity * 2) startingCapacity)
  else capacity
termination_by objectMaxCapacity - capacity
decreasing_by
  unfold startingCapacity objectMaxCapacity at *
  omega

theorem le_limit (capacity : Nat) : capacity ≤ limit capacity := by
  induction capacity using limit.induct with
  | case1 capacity hroom ih =>
    rw [limit, if_pos hroom]
    omega
  | case2 capacity hfull => rw [limit, if_neg hfull]

theorem hasRoom_iff {object : JsonObject JsonValue} (h : object.entries.length ≤ object.capacity) :
    HasRoom object ↔ object.entries.length < limit object.capacity := by
  have hle := le_limit object.capacity
  constructor
  · rintro (hfree | hroom)
    · omega
    · have hdoubled := le_limit (max (object.capacity * 2) startingCapacity)
      rw [limit, if_pos hroom]
      unfold startingCapacity at hdoubled ⊢
      omega
  · intro hlt
    by_cases hroom : max (object.capacity * 2) startingCapacity ≤ objectMaxCapacity
    · exact .inr hroom
    · rw [limit, if_neg hroom] at hlt
      exact .inl hlt

/-- A new name is appended; the capacity grows at most to what it can be doubled to. -/
theorem jsonObjectAdd_room {object : JsonObject JsonValue} {name : CString} (value : JsonValue)
    (hname : name ∉ keys object.entries) (hroom : HasRoom object) :
    ∃ capacity, jsonObjectAdd object name value = (⟨object.entries ++ [(name, value)], capacity⟩, .success) ∧
      limit capacity = limit object.capacity ∧
      (object.entries.length ≤ object.capacity → object.entries.length + 1 ≤ capacity) := by
  have hget : ¬ (jsonObjectGetValue object name).isSome = true :=
    fun hs => hname ((getKey_isSome_iff _ _).mp hs)
  unfold jsonObjectAdd jsonObjectGetCount
  rw [if_neg hget]
  by_cases hfull : object.entries.length ≥ object.capacity
  · have hdouble := hroom.resolve_left (Nat.not_lt.mpr hfull)
    have hpos : max (object.capacity * 2) startingCapacity ≠ 0 := by
      unfold startingCapacity
      omega
    refine ⟨max (object.capacity * 2) startingCapacity, ?_, ?_, ?_⟩
    · simp only [if_pos hfull, if_neg (Nat.not_lt.mpr hdouble), jsonObjectResize_success object hpos,
        jsonObjectAppend]
    · rw [limit.eq_1 object.capacity, if_pos hdouble]
    · unfold startingCapacity
      omega
  · refine ⟨object.capacity, ?_, rfl, fun _ => Nat.lt_of_not_le hfull⟩
    rw [if_neg hfull, jsonObjectAppend]

/-! ## The dictionary -/

/-- The object holds the dictionary, with room for `bound` names. -/
structure Represents (bound : Nat) (object : JsonObject JsonValue) (d : Dictionary CString JsonValue) :
    Prop where
  nodup : (keys object.entries).Nodup
  fits : object.entries.length ≤ object.capacity
  room : limit object.capacity = bound
  lookup : ∀ name, jsonObjectGetValue object name = d.lookup name

section Steps

variable {bound : Nat} {object : JsonObject JsonValue} {d : Dictionary CString JsonValue}
  (h : Represents bound object d)
include h

theorem Represents.mem_names (name : CString) : name ∈ d.names ↔ name ∈ keys object.entries := by
  rw [d.mem_names, ← h.lookup]
  exact getKey_isSome_iff object.entries name

theorem Represents.card_names : d.names.card = object.entries.length := by
  have hnames : d.names = (keys object.entries).toFinset := by
    ext name
    rw [h.mem_names, List.mem_toFinset]
  rw [hnames, List.toFinset_card_of_nodup h.nodup, keys, List.length_map]

theorem Represents.put (name : CString) (value : JsonValue) :
    (jsonObjectSetValue object name value).2 = statusOf (serve bound d (.put name value)).2 ∧
      Represents bound (jsonObjectSetValue object name value).1 (serve bound d (.put name value)).1 := by
  by_cases hname : name ∈ keys object.entries
  · rw [jsonObjectSetValue_of_mem object value hname, serve_put_granted (.inl ((h.mem_names name).mpr hname))]
    refine ⟨rfl, ?_, ?_, h.room, fun other => ?_⟩
    · rw [keys_replaceKey]
      exact h.nodup
    · rw [length_replaceKey]
      exact h.fits
    · show getKey (replaceKey object.entries name value) other = Function.update d.lookup name (some value) other
      by_cases hother : other = name
      · rw [hother, getKey_replaceKey_self hname, Function.update_self]
      · rw [getKey_replaceKey_of_ne _ hother, Function.update_of_ne hother]
        exact h.lookup other
  · have hnew : name ∉ d.names := fun hmem => hname ((h.mem_names name).mp hmem)
    rw [jsonObjectSetValue_of_not_mem object value hname]
    by_cases hroom : HasRoom object
    · have hlt : d.names.card < bound := by
        rw [h.card_names, ← h.room]
        exact (hasRoom_iff h.fits).mp hroom
      obtain ⟨capacity, hadd, hlimit, hfits⟩ := jsonObjectAdd_room value hname hroom
      rw [hadd, serve_put_granted (.inr hlt)]
      refine ⟨rfl, ?_, ?_, hlimit.trans h.room, fun other => ?_⟩
      · rw [keys_append, List.nodup_append]
        refine ⟨h.nodup, List.nodup_singleton name, ?_⟩
        intro key hkey other hother heq
        obtain rfl : other = name := List.mem_singleton.mp hother
        exact hname (heq ▸ hkey)
      · simpa using hfits h.fits
      · show getKey (object.entries ++ [(name, value)]) other = Function.update d.lookup name (some value) other
        rw [getKey_concat]
        by_cases hother : other = name
        · rw [if_pos hother, hother, (getKey_eq_none_iff _ _).mpr hname, Option.none_or, Function.update_self]
        · rw [if_neg hother, Option.or_none, Function.update_of_ne hother]
          exact h.lookup other
    · have hfull : ¬ d.names.card < bound := by
        rw [h.card_names, ← h.room]
        exact fun hlt => hroom ((hasRoom_iff h.fits).mpr hlt)
      rw [(jsonObjectAdd_of_not_mem object value hname).2 hroom, serve_put_refused hnew hfull]
      exact ⟨rfl, h⟩

theorem Represents.drop (name : CString) :
    (jsonObjectRemove object name).2 = statusOf (serve bound d (.drop name)).2 ∧
      Represents bound (jsonObjectRemove object name).1 (serve bound d (.drop name)).1 := by
  by_cases hname : name ∈ keys object.entries
  · obtain ⟨old, hold⟩ := Option.isSome_iff_exists.mp ((getKey_isSome_iff _ _).mpr hname)
    have hremove : jsonObjectRemove object name =
        ({ object with entries := removeKey object.entries name }, .success) := by
      simp only [jsonObjectRemove, jsonObjectGetValue, hold]
    have hserve : serve bound d (.drop name) = (d.drop name, true) := if_pos ((h.mem_names name).mpr hname)
    rw [hremove, hserve]
    refine ⟨rfl, keys_removeKey_nodup h.nodup name, ?_, h.room, fun other => ?_⟩
    · exact le_trans (length_removeKey_le object.entries name) h.fits
    · show getKey (removeKey object.entries name) other = Function.update d.lookup name none other
      rw [getKey_removeKey h.nodup]
      by_cases hother : other = name
      · rw [if_pos hother, hother, Function.update_self]
      · rw [if_neg hother, Function.update_of_ne hother]
        exact h.lookup other
  · have hremove : jsonObjectRemove object name = (object, .failure) := by
      simp only [jsonObjectRemove, jsonObjectGetValue, (getKey_eq_none_iff _ _).mpr hname]
    have hserve : serve bound d (.drop name) = (d, false) :=
      if_neg fun hmem => hname ((h.mem_names name).mp hmem)
    rw [hremove, hserve]
    exact ⟨rfl, h⟩

/-- One call. -/
theorem Represents.call (call : ObjectCall) :
    (call.run object).2 = statusOf (serve bound d call.request).2 ∧
      Represents bound (call.run object).1 (serve bound d call.request).1 := by
  cases call with
  | setValue name value hasParent =>
    cases hasParent with
    | true => exact ⟨rfl, h⟩
    | false => exact h.put name value
  | setNumber name number => exact h.put name (.number number)
  | setBoolean name boolean => exact h.put name (.boolean boolean)
  | setNull name => exact h.put name .null
  | remove name => exact h.drop name
  | setString name string =>
    cases hvalue : jsonValueInitString string with
    | some value =>
      simp only [ObjectCall.run, ObjectCall.request, jsonObjectSetString, hvalue]
      exact h.put name value
    | none =>
      simp only [ObjectCall.run, ObjectCall.request, jsonObjectSetString, hvalue]
      exact ⟨rfl, h⟩
  | clear =>
    refine ⟨rfl, List.nodup_nil, Nat.zero_le _, h.room, fun name => rfl⟩

end Steps

/-- The dictionary an object with distinct names holds. -/
def dictionaryOf (object : JsonObject JsonValue) : Dictionary CString JsonValue where
  lookup := jsonObjectGetValue object
  names := (keys object.entries).toFinset
  mem_names name := by
    rw [List.mem_toFinset]
    exact (getKey_isSome_iff object.entries name).symm

/-- Any sequence of calls on an object with distinct names is answered, call for call, as
the dictionary it holds would answer it, and holds what that dictionary then holds. -/
theorem calls_refine {object : JsonObject JsonValue} (hnodup : (keys object.entries).Nodup)
    (hfits : object.entries.length ≤ object.capacity) (calls : List ObjectCall) :
    let answered := serveAll (limit object.capacity) (dictionaryOf object) (calls.map ObjectCall.request)
    (runCalls object calls).2 = answered.2.map statusOf ∧
      Represents (limit object.capacity) (runCalls object calls).1 answered.1 := by
  have hstart : Represents (limit object.capacity) object (dictionaryOf object) :=
    ⟨hnodup, hfits, rfl, fun _ => rfl⟩
  generalize limit object.capacity = bound at hstart ⊢
  generalize dictionaryOf object = d at hstart ⊢
  induction calls generalizing object d with
  | nil => exact ⟨rfl, hstart⟩
  | cons call calls ih =>
    obtain ⟨hstatus, hnext⟩ := hstart.call call
    obtain ⟨hstatuses, hlast⟩ := ih hnext.nodup hnext.fits _ hnext
    rw [runCalls_cons, List.map_cons, serveAll_cons]
    refine ⟨?_, hlast⟩
    rw [List.map_cons, hstatus, hstatuses]

/-- A fresh object takes 960 names. -/
theorem limit_init : limit (jsonObjectInit : JsonObject JsonValue).capacity = objectMaxCapacity := by
  show limit 0 = objectMaxCapacity
  simp [limit, startingCapacity, objectMaxCapacity]

/-- Set, overwritten, given a value of another container, removed, and removed once more. -/
def briefUse : List ObjectCall :=
  [.setNumber ['a'] 1, .setValue ['a'] .null false, .setValue ['b'] .null true, .remove ['a'],
    .remove ['a']]

theorem calls_refine_init :
    let answered := serveAll objectMaxCapacity (dictionaryOf jsonObjectInit) (briefUse.map ObjectCall.request)
    (runCalls jsonObjectInit briefUse).2 = answered.2.map statusOf ∧
      Represents objectMaxCapacity (runCalls jsonObjectInit briefUse).1 answered.1 := by
  have hnodup : (keys (jsonObjectInit : JsonObject JsonValue).entries).Nodup := List.nodup_nil
  rw [← limit_init]
  exact calls_refine hnodup (Nat.le_refl 0) briefUse

end DynamicPartitions.Parson.Containers
