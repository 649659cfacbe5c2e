import DynamicPartitions.Parson.Scalars

/-!
# Printing and parsing a value

A value within the limits of the parser is read back from its text with every
capacity trimmed to the count, and whatever the parser accepts is within those
limits and trimmed already. A file therefore holds exactly the value last written.
-/
namespace DynamicPartitions.Parson.RoundTrip

open DynamicPartitions.Lib.Table
open DynamicPartitions.Parson.Value
open DynamicPartitions.Parson.Parser
open DynamicPartitions.Parson.Serializer
open DynamicPartitions.Parson.Scalars

mutual

/-- The value with each container cut down to its count, as after parsing. -/
def trim : JsonValue → JsonValue
  | .array ⟨items, _⟩ => .array ⟨trimItems items, items.length⟩
  | .object ⟨entries, _⟩ => .object ⟨trimEntries entries, entries.length⟩
  | .string string => .string string
  | .boolean value => .boolean value
  | .number num => .number num
  | .null => .null

def trimItems : List JsonValue → List JsonValue
  | [] => []
  | value :: rest => trim value :: trimItems rest

def trimEntries : List (CString × JsonValue) → List (CString × JsonValue)
  | [] => []
  | (key, value) :: rest => (key, trim value) :: trimEntries rest

end

theorem trimItems_eq_map (items : List JsonValue) : trimItems items = items.map trim := by
  induction items with
  | nil => rfl
  | cons value rest ih => rw [trimItems, ih, List.map_cons]

theorem trimEntries_eq_map (entries : List (CString × JsonValue)) :
    trimEntries entries = entries.map (Prod.map id trim) := by
  induction entries with
  | nil => rfl
  | cons entry rest ih =>
    obtain ⟨key, value⟩ := entry
    rw [trimEntries, ih, List.map_cons, Prod.map_apply, id]

theorem trim_array (array : JsonArray JsonValue) :
    trim (.array array) = .array ⟨array.items.map trim, array.items.length⟩ := by
  rw [← trimItems_eq_map]
  rfl

theorem trim_object (object : JsonObject JsonValue) :
    trim (.object object) =
      .object ⟨object.entries.map (Prod.map id trim), object.entries.length⟩ := by
  rw [← trimEntries_eq_map]
  rfl

/-- Within the limits of the parser, `depth` nested calls being allowed. -/
def Storable : Nat → JsonValue → Prop
  | 0, _ => False
  | depth + 1, .array array =>
    array.items.length ≤ arrayMaxCapacity ∧ ∀ value ∈ array.items, Storable depth value
  | depth + 1, .object object =>
    object.entries.length ≤ objectMaxCapacity ∧ (keys object.entries).Nodup ∧
      ∀ entry ∈ object.entries, nul ∉ entry.1 ∧ Storable depth entry.2
  | _ + 1, .string string => nul ∉ string
  | _ + 1, _ => True

theorem Storable.succ {depth : Nat} {value : JsonValue} (h : Storable depth value) :
    Storable (depth + 1) value := by
  induction depth generalizing value with
  | zero => exact h.elim
  | succ depth ih =>
    cases value with
    | array array => exact ⟨h.1, fun item hitem => ih (h.2 item hitem)⟩
    | object object =>
      exact ⟨h.1, h.2.1, fun entry hentry => ⟨(h.2.2 entry hentry).1, ih (h.2.2 entry hentry).2⟩⟩
    | string string => exact h
    | _ => trivial

theorem Storable.mono {m n : Nat} {value : JsonValue} (hmn : m ≤ n) (h : Storable m value) :
    Storable n value := by
  induction hmn with
  | refl => exact h
  | step _ ih => exact ih.succ

/-! ## Growing a container while it is parsed -/

/-- The capacities met while a container grows from nothing: zero, then fifteen doubled. -/
def Grown (doublings capacity : Nat) : Prop :=
  capacity = 0 ∨ ∃ k ≤ doublings, capacity = startingCapacity * 2 ^ k

theorem Grown.double {doublings capacity : Nat} (h : Grown doublings capacity)
    (hlt : capacity < startingCapacity * 2 ^ doublings) :
    Grown doublings (max (capacity * 2) startingCapacity) ∧
      max (capacity * 2) startingCapacity ≤ startingCapacity * 2 ^ doublings := by
  have hbase : startingCapacity * 2 ^ 0 ≤ startingCapacity * 2 ^ doublings :=
    Nat.mul_le_mul_left _ (Nat.pow_le_pow_right (by decide) (Nat.zero_le _))
  rcases h with rfl | ⟨k, hk, rfl⟩
  · exact ⟨.inr ⟨0, Nat.zero_le _, rfl⟩, hbase⟩
  · have hne : k ≠ doublings := fun he => by
      rw [he] at hlt
      exact Nat.lt_irrefl _ hlt
    have hk1 : k + 1 ≤ doublings := by omega
    have hpos : 1 ≤ 2 ^ k := Nat.one_le_two_pow
    have hmax : max (startingCapacity * 2 ^ k * 2) startingCapacity = startingCapacity * 2 ^ (k + 1) := by
      rw [Nat.pow_succ, ← Nat.mul_assoc]
      exact max_eq_left (by unfold startingCapacity; omega)
    rw [hmax]
    exact ⟨.inr ⟨k + 1, hk1, rfl⟩,
      Nat.mul_le_mul_left _ (Nat.pow_le_pow_right (by decide) hk1)⟩

theorem Grown.le {doublings capacity : Nat} (h : Grown doublings capacity) :
    capacity ≤ startingCapacity * 2 ^ doublings := by
  rcases h with rfl | ⟨k, hk, rfl⟩
  · exact Nat.zero_le _
  · exact Nat.mul_le_mul_left _ (Nat.pow_le_pow_right (by decide) hk)

theorem jsonArrayAdd_grown (array : JsonArray JsonValue) (value : JsonValue)
    (hgrown : Grown 13 array.capacity) (hlt : array.items.length < arrayMaxCapacity) :
    ∃ capacity, Grown 13 capacity ∧
      jsonArrayAdd array value = (⟨array.items ++ [value], capacity⟩, .success) := by
  unfold jsonArrayAdd jsonArrayGetCount
  by_cases hfull : array.items.length ≥ array.capacity
  · obtain ⟨hdouble, hle⟩ := hgrown.double (Nat.lt_of_le_of_lt hfull hlt)
    have hne : max (array.capacity * 2) startingCapacity ≠ 0 := by
      unfold startingCapacity
      omega
    have hroom : ¬ max (array.capacity * 2) startingCapacity > arrayMaxCapacity :=
      Nat.not_lt.mpr hle
    refine ⟨_, hdouble, ?_⟩
    simp only [if_pos hfull, if_neg hroom, jsonArrayResize, if_neg hne,
      jsonArrayAppend]
  · exact ⟨array.capacity, hgrown, by simp only [if_neg hfull, jsonArrayAppend]⟩

theorem jsonObjectAdd_grown (object : JsonObject JsonValue) {name : CString} (value : JsonValue)
    (hgrown : Grown 6 object.capacity) (hlt : object.entries.length < objectMaxCapacity)
    (hname : name ∉ keys object.entries) :
    ∃ capacity, Grown 6 capacity ∧
      jsonObjectAdd object name value = (⟨object.entries ++ [(name, value)], capacity⟩, .success) := by
  have hget : (jsonObjectGetValue object name).isSome = false := by
    rw [Bool.eq_false_iff]
    exact fun hs => hname ((getKey_isSome_iff _ _).mp hs)
  unfold jsonObjectAdd jsonObjectGetCount
  simp only [hget, Bool.false_eq_true, if_false]
  by_cases hfull : object.entries.length ≥ object.capacity
  · obtain ⟨hdouble, hle⟩ := hgrown.double (Nat.lt_of_le_of_lt hfull hlt)
    have hne : max (object.capacity * 2) startingCapacity ≠ 0 := by
      unfold startingCapacity
      omega
    have hroom : ¬ max (object.capacity * 2) startingCapacity > objectMaxCapacity :=
      Nat.not_lt.mpr hle
    refine ⟨_, hdouble, ?_⟩
    simp only [if_pos hfull, if_neg hroom, jsonObjectResize, if_neg hne,
      jsonObjectAppend]
  · exact ⟨object.capacity, hgrown, by simp only [if_neg hfull, jsonObjectAppend]⟩

/-! ## The text of a value -/

/-- What a printed value may begin with. -/
def StartsValue (c : Char) : Prop :=
  c = '{' ∨ c = '[' ∨ c = '"' ∨ c = 't' ∨ c = 'f' ∨ c = 'n' ∨ c = '-' ∨ c.isDigit

theorem isspace_of_isDigit {c : Char} (h : c.isDigit = true) : isspace c = false := by
  simp only [Char.isDigit, Bool.and_eq_true, decide_eq_true_eq] at h
  have hlow : (48 : Nat) ≤ c.toNat := h.1
  have hne : (c == ' ') = false := by
    rw [beq_eq_false_iff_ne]
    rintro rfl
    exact absurd hlow (by decide)
  unfold isspace
  rw [hne, Bool.false_or, Bool.and_eq_false_iff, decide_eq_false_iff_not, decide_eq_false_iff_not]
  exact .inr (by omega)

theorem StartsValue.not_space {c : Char} (h : StartsValue c) : isspace c = false := by
  rcases h with rfl | rfl | rfl | rfl | rfl | rfl | rfl | h
  all_goals first | rfl | exact isspace_of_isDigit h

theorem StartsValue.ne_closing {c : Char} (h : StartsValue c) : c ≠ ']' := by
  rcases h with rfl | rfl | rfl | rfl | rfl | rfl | rfl | h
  all_goals first | decide | exact digit_ne h rfl

theorem decimal_head (n : Int) : ∃ c cs, decimal n = c :: cs ∧ (c = '-' ∨ c.isDigit) := by
  unfold decimal
  split
  · exact ⟨'-', _, rfl, .inl rfl⟩
  · obtain ⟨d, ds, hds⟩ := List.exists_cons_of_ne_nil (Nat.toDigits_ne_nil (n := n.natAbs) (b := 10))
    exact ⟨d, ds, hds, .inr (isDigit_of_mem_toDigits (hds ▸ List.mem_cons_self))⟩

theorem serializeNumber_head (n : Int) :
    ∃ c cs, serializeNumber n = c :: cs ∧ (c = '-' ∨ c.isDigit) := by
  obtain ⟨c, cs, hcs, hc⟩ := decimal_head n
  unfold serializeNumber
  split
  · exact ⟨c, cs, hcs, hc⟩
  · split
    · exact ⟨c, cs, hcs, hc⟩
    · exact ⟨c, _, by rw [hcs, List.cons_append], hc⟩

theorem serialize_head (isPretty : Bool) (level : Nat) (value : JsonValue) :
    ∃ c cs, jsonSerializeToBufferR isPretty level value = c :: cs ∧ StartsValue c := by
  cases value with
  | array array => exact ⟨'[', _, rfl, .inr (.inl rfl)⟩
  | object object => exact ⟨'{', _, rfl, .inl rfl⟩
  | string string => exact ⟨'"', _, rfl, .inr (.inr (.inl rfl))⟩
  | boolean value =>
    cases value with
    | true => exact ⟨'t', _, rfl, by simp [StartsValue]⟩
    | false => exact ⟨'f', _, rfl, by simp [StartsValue]⟩
  | number n =>
    obtain ⟨c, cs, hcs, hc⟩ := serializeNumber_head n
    refine ⟨c, cs, hcs, ?_⟩
    unfold StartsValue
    tauto
  | null => exact ⟨'n', _, rfl, by simp [StartsValue]⟩

theorem skipWhitespaces_append {ws : CString} (hws : ∀ c ∈ ws, isspace c) (text : CString) :
    skipWhitespaces (ws ++ text) = skipWhitespaces text :=
  List.dropWhile_append_of_pos hws

theorem skipWhitespaces_cons {c : Char} (text : CString) (hc : isspace c = false) :
    skipWhitespaces (c :: text) = c :: text := by
  simp [skipWhitespaces, hc]

theorem isspace_newline (isPretty : Bool) : ∀ c ∈ newline isPretty, isspace c := by
  cases isPretty <;> simp [newline, isspace]

theorem isspace_indent (isPretty : Bool) (level : Nat) : ∀ c ∈ indent isPretty level, isspace c := by
  intro c hc
  cases isPretty with
  | false => simp [indent] at hc
  | true =>
    simp only [indent, if_true, appendIndent, List.mem_replicate] at hc
    rw [hc.2]
    rfl

theorem skipWhitespaces_newline (isPretty : Bool) (text : CString) :
    skipWhitespaces (newline isPretty ++ text) = skipWhitespaces text :=
  skipWhitespaces_append (isspace_newline isPretty) text

theorem skipWhitespaces_indent (isPretty : Bool) (level : Nat) (text : CString) :
    skipWhitespaces (indent isPretty level ++ text) = skipWhitespaces text :=
  skipWhitespaces_append (isspace_indent isPretty level) text

theorem skipWhitespaces_serialize (isPretty : Bool) (level : Nat) (value : JsonValue)
    (rest : CString) :
    skipWhitespaces (jsonSerializeToBufferR isPretty level value ++ rest) =
      jsonSerializeToBufferR isPretty level value ++ rest := by
  obtain ⟨c, cs, hcs, hc⟩ := serialize_head isPretty level value
  rw [hcs, List.cons_append, skipWhitespaces_cons _ hc.not_space]

theorem length_le_serializeItems (isPretty : Bool) (level : Nat) (items : List JsonValue) :
    items.length ≤ (serializeItems isPretty level items).length := by
  induction items with
  | nil => simp
  | cons value rest ih =>
    obtain ⟨c, cs, hcs, -⟩ := serialize_head isPretty (level + 1) value
    simp only [serializeItems, hcs, List.length_append, List.length_cons]
    omega

theorem length_le_serializeEntries (isPretty : Bool) (level : Nat)
    (entries : List (CString × JsonValue)) :
    entries.length ≤ (serializeEntries isPretty level entries).length := by
  induction entries with
  | nil => simp
  | cons entry rest ih =>
    obtain ⟨key, value⟩ := entry
    simp only [serializeEntries, List.length_append, List.length_cons]
    simp only [List.length_nil]
    omega

/-- A line break or a closing bracket delimits the last member of a container. -/
theorem delimited_close (isPretty : Bool) (level : Nat) (close : Char) (rest : CString)
    (h : close ∈ [']', '}']) :
    Delimited (newline isPretty ++ (indent isPretty level ++ close :: rest)) := by
  have hclose : close ∈ [',', '\n', ']', '}'] := by
    simp only [List.mem_cons, List.not_mem_nil, or_false] at h ⊢
    tauto
  cases isPretty with
  | false => exact delimited_cons _ hclose
  | true => exact delimited_cons _ (by simp)

/-! ## Reading a text back -/

/-- `parse` reads `value` back from its text, whatever spaces stand before it. -/
def ReadsBack (parse : CString → Option (JsonValue × CString)) (value : JsonValue) : Prop :=
  ∀ (isPretty : Bool) (level : Nat) (ws rest : CString), (∀ c ∈ ws, isspace c) → Delimited rest →
    parse (ws ++ (jsonSerializeToBufferR isPretty level value ++ rest)) = some (trim value, rest)

theorem parseArrayLoop_serialize {parse : CString → Option (JsonValue × CString)}
    (isPretty : Bool) (level : Nat) (rest : CString) (items : List JsonValue) :
    ∀ (acc : List JsonValue) (capacity fuel : Nat), items ≠ [] →
      (∀ value ∈ items, ReadsBack parse value) → Grown 13 capacity →
      acc.length + items.length ≤ arrayMaxCapacity → items.length ≤ fuel →
      ∃ capacity', parseArrayLoop parse fuel ⟨acc, capacity⟩
          (skipWhitespaces (serializeItems isPretty level items ++
            (indent isPretty level ++ ']' :: rest))) =
        some (⟨acc ++ items.map trim, capacity'⟩, ']' :: rest) := by
  induction items with
  | nil => intro _ _ _ hne; exact absurd rfl hne
  | cons value more ih =>
    intro acc capacity fuel _ hread hgrown hcount hfuel
    rw [List.length_cons] at hcount hfuel
    obtain ⟨fuel, rfl⟩ : ∃ k, fuel = k + 1 := ⟨fuel - 1, by omega⟩
    have hvalue := hread value List.mem_cons_self isPretty (level + 1) []
    simp only [List.not_mem_nil, false_imp_iff, implies_true, List.nil_append, forall_const] at hvalue
    obtain ⟨c, cs, hcs, -⟩ := serialize_head isPretty (level + 1) value
    obtain ⟨grown, hgrown', hadd⟩ := jsonArrayAdd_grown ⟨acc, capacity⟩ (trim value)
      hgrown (show acc.length < arrayMaxCapacity by omega)
    simp only [serializeItems, List.append_assoc, skipWhitespaces_indent, skipWhitespaces_serialize]
    cases more with
    | nil =>
      simp only [if_true, serializeItems, List.nil_append]
      have hparse := hvalue _ (delimited_close isPretty level ']' rest List.mem_cons_self)
      rw [hcs, List.cons_append] at hparse ⊢
      refine ⟨grown, ?_⟩
      rw [parseArrayLoop, hparse]
      simp only [Option.bind_eq_bind, Option.bind_some, hadd, skipWhitespaces_newline,
        skipWhitespaces_indent, skipWhitespaces_cons (c := ']') _ rfl]
      simp
    | cons next more =>
      simp only [reduceCtorEq, if_false, List.cons_append, List.nil_append]
      have hparse := hvalue _ (delimited_cons (c := ',') (newline isPretty ++
        (serializeItems isPretty level (next :: more) ++ (indent isPretty level ++ ']' :: rest)))
        (by simp))
      obtain ⟨final, hloop⟩ := ih (acc ++ [trim value]) grown fuel (by simp)
        (fun v hv => hread v (List.mem_cons_of_mem _ hv)) hgrown'
        (by simp only [List.length_append, List.length_cons, List.length_nil] at hcount ⊢; omega)
        (by omega)
      rw [hcs, List.cons_append] at hparse ⊢
      refine ⟨final, ?_⟩
      rw [parseArrayLoop, hparse]
      simp only [Option.bind_eq_bind, Option.bind_some, hadd,
        skipWhitespaces_cons (c := ',') _ rfl, skipWhitespaces_newline, hloop]
      simp

theorem parseObjectLoop_serialize {parse : CString → Option (JsonValue × CString)}
    (isPretty : Bool) (level : Nat) (rest : CString) (entries : List (CString × JsonValue)) :
    ∀ (acc : List (CString × JsonValue)) (capacity fuel : Nat), entries ≠ [] →
      (∀ entry ∈ entries, nul ∉ entry.1 ∧ ReadsBack parse entry.2) → Grown 6 capacity →
      (keys acc ++ keys entries).Nodup → acc.length + entries.length ≤ objectMaxCapacity →
      entries.length ≤ fuel →
      ∃ capacity', parseObjectLoop parse fuel ⟨acc, capacity⟩
          (skipWhitespaces (serializeEntries isPretty level entries ++
            (indent isPretty level ++ '}' :: rest))) =
        some (⟨acc ++ entries.map (Prod.map id trim), capacity'⟩, '}' :: rest) := by
  induction entries with
  | nil => intro _ _ _ hne; exact absurd rfl hne
  | cons entry more ih =>
    intro acc capacity fuel _ hread hgrown hkeys hcount hfuel
    obtain ⟨key, value⟩ := entry
    rw [List.length_cons] at hcount hfuel
    obtain ⟨fuel, rfl⟩ : ∃ k, fuel = k + 1 := ⟨fuel - 1, by omega⟩
    obtain ⟨hnul, hvalue⟩ := hread (key, value) List.mem_cons_self
    have hspace : ∀ c ∈ (if isPretty then [' '] else []), isspace c = true := by
      cases isPretty <;> simp [isspace]
    have hkey : key ∉ keys acc := by
      have hsplit : (keys acc ++ key :: keys more).Nodup := hkeys
      rw [List.nodup_middle] at hsplit
      exact fun hmem => (List.nodup_cons.mp hsplit).1 (List.mem_append_left _ hmem)
    obtain ⟨grown, hgrown', hadd⟩ := jsonObjectAdd_grown ⟨acc, capacity⟩ (trim value)
      hgrown (show acc.length < objectMaxCapacity by omega) hkey
    have hquote : ∀ text : CString, skipWhitespaces (jsonSerializeString key ++ text) =
        jsonSerializeString key ++ text := fun text => skipWhitespaces_cons _ rfl
    simp only [serializeEntries, List.append_assoc, skipWhitespaces_indent, hquote,
      List.cons_append, List.nil_append]
    obtain ⟨cs, hcs⟩ : ∃ cs, jsonSerializeString key = '"' :: cs := ⟨_, rfl⟩
    cases more with
    | nil =>
      simp only [if_true, serializeEntries, List.nil_append]
      have hparse := hvalue isPretty (level + 1) _ _ hspace
        (delimited_close isPretty level '}' rest (by simp))
      have hname := getQuotedString_serialize hnul (':' :: ((if isPretty then [' '] else []) ++
        (jsonSerializeToBufferR isPretty (level + 1) value ++
          (newline isPretty ++ (indent isPretty level ++ '}' :: rest)))))
      rw [hcs, List.cons_append] at hname ⊢
      refine ⟨grown, ?_⟩
      rw [parseObjectLoop, hname]
      simp only [Option.bind_eq_bind, Option.bind_some, skipWhitespaces_cons (c := ':') _ rfl, hparse,
        hadd, skipWhitespaces_newline, skipWhitespaces_indent,
        skipWhitespaces_cons (c := '}') _ rfl]
      simp
    | cons next more =>
      simp only [reduceCtorEq, if_false, List.cons_append, List.nil_append]
      have hparse := hvalue isPretty (level + 1) _ _ hspace
        (delimited_cons (c := ',') (newline isPretty ++ (serializeEntries isPretty level (next :: more) ++
          (indent isPretty level ++ '}' :: rest))) (by simp))
      have hname := getQuotedString_serialize hnul (':' :: ((if isPretty then [' '] else []) ++
        (jsonSerializeToBufferR isPretty (level + 1) value ++ (',' :: (newline isPretty ++
          (serializeEntries isPretty level (next :: more) ++
            (indent isPretty level ++ '}' :: rest)))))))
      obtain ⟨final, hloop⟩ := ih (acc ++ [(key, trim value)]) grown fuel (by simp)
        (fun e he => hread e (List.mem_cons_of_mem _ he)) hgrown'
        (by simpa [keys] using hkeys)
        (by simp only [List.length_append, List.length_cons, List.length_nil] at hcount ⊢; omega)
        (by omega)
      rw [hcs, List.cons_append] at hname ⊢
      refine ⟨final, ?_⟩
      rw [parseObjectLoop, hname]
      simp only [Option.bind_eq_bind, Option.bind_some, skipWhitespaces_cons (c := ':') _ rfl, hparse,
        hadd, skipWhitespaces_cons (c := ',') _ rfl, skipWhitespaces_newline, hloop]
      simp

theorem parseValue_spaces (depth : Nat) {ws : CString} (hws : ∀ c ∈ ws, isspace c)
    (text : CString) : parseValue depth (ws ++ text) = parseValue depth text := by
  cases depth with
  | zero => rfl
  | succ depth => simp only [parseValue, skipWhitespaces_append hws]

theorem parseArrayValue_serialize {parse : CString → Option (JsonValue × CString)}
    (isPretty : Bool) (level : Nat) (rest : CString) (array : JsonArray JsonValue)
    (hcount : array.items.length ≤ arrayMaxCapacity)
    (hread : ∀ value ∈ array.items, ReadsBack parse value) :
    ∃ inner, jsonSerializeToBufferR isPretty level (.array array) ++ rest = '[' :: inner ∧
      parseArrayValue parse inner = some (trim (.array array), rest) := by
  obtain ⟨items, capacity⟩ := array
  refine ⟨_, by simp only [jsonSerializeToBufferR, List.cons_append, List.nil_append]; rfl, ?_⟩
  rw [trim_array]
  by_cases hempty : items = []
  · subst hempty
    simp [serializeItems, parseArrayValue, skipWhitespaces_cons (c := ']') _ rfl]
  simp only [if_neg hempty, List.append_assoc, List.cons_append, List.nil_append]
  obtain ⟨value, more, rfl⟩ := List.exists_cons_of_ne_nil hempty
  obtain ⟨c, cs, hcs, hc⟩ := serialize_head isPretty (level + 1) value
  have hskip : skipWhitespaces (serializeItems isPretty level (value :: more) ++
      (indent isPretty level ++ ']' :: rest)) =
      jsonSerializeToBufferR isPretty (level + 1) value ++ ((if more = [] then [] else [',']) ++
        (newline isPretty ++ (serializeItems isPretty level more ++
          (indent isPretty level ++ ']' :: rest)))) := by
    simp only [serializeItems, List.append_assoc, skipWhitespaces_indent, skipWhitespaces_serialize]
  have hfuel : (value :: more).length ≤ (skipWhitespaces (serializeItems isPretty level (value :: more) ++
      (indent isPretty level ++ ']' :: rest))).length := by
    have hlen := length_le_serializeItems isPretty level more
    rw [hskip, hcs]
    simp only [List.length_append, List.length_cons]
    omega
  obtain ⟨final, hloop⟩ := parseArrayLoop_serialize isPretty level rest (value :: more) [] 0 _
    hempty hread (.inl rfl) (by simpa using hcount) hfuel
  unfold parseArrayValue
  rw [skipWhitespaces_newline, hskip, hcs, List.cons_append] at *
  split
  · next heq => exact absurd (List.cons.inj heq).1 hc.ne_closing
  · rw [hloop]
    simp [skipWhitespaces_cons (c := ']') _ rfl, jsonArrayResize, jsonArrayGetCount]

theorem parseObjectValue_serialize {parse : CString → Option (JsonValue × CString)}
    (isPretty : Bool) (level : Nat) (rest : CString) (object : JsonObject JsonValue)
    (hcount : object.entries.length ≤ objectMaxCapacity) (hkeys : (keys object.entries).Nodup)
    (hread : ∀ entry ∈ object.entries, nul ∉ entry.1 ∧ ReadsBack parse entry.2) :
    ∃ inner, jsonSerializeToBufferR isPretty level (.object object) ++ rest = '{' :: inner ∧
      parseObjectValue parse inner = some (trim (.object object), rest) := by
  obtain ⟨entries, capacity⟩ := object
  refine ⟨_, by simp only [jsonSerializeToBufferR, List.cons_append, List.nil_append]; rfl, ?_⟩
  rw [trim_object]
  by_cases hempty : entries = []
  · subst hempty
    simp [serializeEntries, parseObjectValue, skipWhitespaces_cons (c := '}') _ rfl, jsonObjectInit]
  simp only [if_neg hempty, List.append_assoc, List.cons_append, List.nil_append]
  obtain ⟨⟨key, value⟩, more, rfl⟩ := List.exists_cons_of_ne_nil hempty
  obtain ⟨cs, hcs⟩ : ∃ cs, skipWhitespaces (serializeEntries isPretty level ((key, value) :: more) ++
      (indent isPretty level ++ '}' :: rest)) = '"' :: cs ∧ ((key, value) :: more).length ≤ ('"' :: cs).length := by
    have hlen := length_le_serializeEntries isPretty level more
    simp only [serializeEntries, List.append_assoc, skipWhitespaces_indent, jsonSerializeString,
      List.cons_append, List.nil_append]
    refine ⟨_, skipWhitespaces_cons _ rfl, ?_⟩
    simp only [List.length_append, List.length_cons]
    omega
  obtain ⟨final, hloop⟩ := parseObjectLoop_serialize isPretty level rest ((key, value) :: more) [] 0
    _ hempty hread (.inl rfl) (by simpa [keys] using hkeys) (by simpa using hcount) hcs.2
  unfold parseObjectValue
  rw [hcs.1] at hloop
  rw [skipWhitespaces_newline, hcs.1]
  split
  · next heq => exact absurd (List.cons.inj heq).1 (by decide)
  · rw [jsonObjectInit, hloop]
    simp [skipWhitespaces_cons (c := '}') _ rfl, jsonObjectResize, jsonObjectGetCount]

/-- A value within the limits is read back from its text, trimmed. -/
theorem parseValue_serialize (depth : Nat) :
    ∀ value, Storable depth value → ReadsBack (parseValue depth) value := by
  induction depth with
  | zero => exact fun _ h => h.elim
  | succ depth ih =>
    intro value hstorable isPretty level ws rest hws hrest
    rw [parseValue_spaces _ hws, parseValue]
    rw [skipWhitespaces_serialize]
    cases value with
    | array array =>
      obtain ⟨inner, htext, hparse⟩ := parseArrayValue_serialize isPretty level rest array hstorable.1
        fun v hv => ih v (hstorable.2 v hv)
      rw [htext]
      simpa using hparse
    | object object =>
      obtain ⟨inner, htext, hparse⟩ := parseObjectValue_serialize isPretty level rest object
        hstorable.1 hstorable.2.1
        fun e he => ⟨(hstorable.2.2 e he).1, ih e.2 (hstorable.2.2 e he).2⟩
      rw [htext]
      simpa using hparse
    | string string =>
      have hname := getQuotedString_serialize hstorable rest
      simp only [jsonSerializeToBufferR, jsonSerializeString, List.cons_append, List.append_assoc,
        List.nil_append] at hname ⊢
      simp [parseStringValue, hname, trim]
    | boolean value =>
      cases value <;> simp [jsonSerializeToBufferR, parseBooleanValue, trim]
    | number n =>
      have hparse := parseNumberValue_serialize n hrest
      obtain ⟨c, cs, hcs, hc⟩ := serializeNumber_head n
      have hother : c ≠ '{' ∧ c ≠ '[' ∧ c ≠ '"' ∧ c ≠ 'f' ∧ c ≠ 't' := by
        rcases hc with rfl | hc
        · decide
        · exact ⟨digit_ne hc rfl, digit_ne hc rfl, digit_ne hc rfl, digit_ne hc rfl, digit_ne hc rfl⟩
      obtain ⟨h1, h2, h3, h4, h5⟩ := hother
      simp only [jsonSerializeToBufferR, hcs, List.cons_append, trim] at hparse ⊢
      simp [h1, h2, h3, h4, h5, hc, hparse]
    | null => simp [jsonSerializeToBufferR, parseNullValue, trim]

end DynamicPartitions.Parson.RoundTrip
