import Mathlib

/-!
# Association tables that remove by swapping in the last entry

A table is a list of key and value pairs. Overwriting keeps the place of an
entry; removing fills the hole with the last entry, so the order of a table
depends on its history while its contents, as a multiset, do not. Nothing here
depends on what the keys and the values are.
-/
namespace DynamicPartitions.Lib.Table

variable {α K V K' V' : Type*} [DecidableEq K] [DecidableEq K']

/-- Delete position `i` by moving the last element into it. -/
def swapRemove (l : List α) (i : Nat) : List α :=
  match l.getLast? with
  | none => []
  | some last => (l.set i last).dropLast

def keys (entries : List (K × V)) : List K := entries.map Prod.fst

/-- The value of the first entry under the key. -/
def getKey (entries : List (K × V)) (key : K) : Option V := entries.lookup key

/-- Overwrite the value of the first entry under the key. -/
def replaceKey (entries : List (K × V)) (key : K) (value : V) : List (K × V) :=
  match entries with
  | [] => []
  | entry :: rest =>
    if entry.1 = key then (entry.1, value) :: rest else entry :: replaceKey rest key value

/-- Delete the first entry under the key, if there is one. -/
def removeKey (entries : List (K × V)) (key : K) : List (K × V) :=
  match entries.findIdx? (fun entry => entry.1 = key) with
  | none => entries
  | some i => swapRemove entries i

/-! ## Swapping in the last element -/

theorem swapRemove_perm (l : List α) {i : Nat} (hi : i < l.length) :
    (swapRemove l i).Perm (l.eraseIdx i) := by
  have hne : l ≠ [] := by rintro rfl; simp at hi
  obtain ⟨init, last, rfl⟩ := List.eq_nil_or_concat l |>.resolve_left hne
  rw [List.concat_eq_append] at hi ⊢
  simp only [swapRemove, List.getLast?_append, List.getLast?_singleton, Option.some_or]
  by_cases hlast : i = init.length
  · subst hlast
    simp [List.eraseIdx_append_of_length_le]
  · have hlt : i < init.length := by simp at hi; omega
    rw [List.set_append_left i last hlt, List.dropLast_append_cons, List.dropLast_singleton,
      List.append_nil, List.eraseIdx_append_of_lt_length hlt]
    exact (List.set_perm_cons_eraseIdx hlt last).trans (List.perm_append_singleton last _).symm

theorem swapRemove_length (l : List α) {i : Nat} (hi : i < l.length) :
    (swapRemove l i).length = l.length - 1 := by
  rw [(swapRemove_perm l hi).length_eq, List.length_eraseIdx_of_lt hi]

theorem map_swapRemove {β : Type*} (f : α → β) (l : List α) (i : Nat) :
    (swapRemove l i).map f = swapRemove (l.map f) i := by
  unfold swapRemove
  rw [List.getLast?_map]
  cases l.getLast? with
  | none => rfl
  | some last => simp [List.map_dropLast, List.map_set]

/-! ## Keys -/

omit [DecidableEq K] in
@[simp] theorem keys_nil : keys ([] : List (K × V)) = [] := rfl

omit [DecidableEq K] in
@[simp] theorem keys_cons (entry : K × V) (rest : List (K × V)) :
    keys (entry :: rest) = entry.1 :: keys rest := rfl

omit [DecidableEq K] in
@[simp] theorem keys_append (l₁ l₂ : List (K × V)) : keys (l₁ ++ l₂) = keys l₁ ++ keys l₂ :=
  List.map_append

omit [DecidableEq K] in
theorem mem_keys_of_mem {entries : List (K × V)} {entry : K × V} (h : entry ∈ entries) :
    entry.1 ∈ keys entries :=
  List.mem_map_of_mem h

@[simp] theorem getKey_nil (key : K) : getKey ([] : List (K × V)) key = none := rfl

theorem getKey_cons (entry : K × V) (rest : List (K × V)) (key : K) :
    getKey (entry :: rest) key = if key = entry.1 then some entry.2 else getKey rest key := by
  unfold getKey
  rw [List.lookup_cons]
  by_cases h : key = entry.1
  · simp [h]
  · simp only [beq_eq_false_iff_ne.mpr h, if_neg h]

theorem getKey_isSome_iff (entries : List (K × V)) (key : K) :
    (getKey entries key).isSome ↔ key ∈ keys entries := by
  rw [getKey, List.lookup_isSome_iff, keys, List.mem_map]
  simp only [beq_iff_eq]
  exact exists_congr fun _ => and_congr_right fun _ => eq_comm

theorem getKey_eq_none_iff (entries : List (K × V)) (key : K) :
    getKey entries key = none ↔ key ∉ keys entries := by
  rw [← getKey_isSome_iff, Option.not_isSome_iff_eq_none]

theorem mem_of_getKey {entries : List (K × V)} {key : K} {value : V}
    (h : getKey entries key = some value) : (key, value) ∈ entries := by
  induction entries with
  | nil => cases h
  | cons entry rest ih =>
    rw [getKey_cons] at h
    split at h
    · next hk => rw [hk, ← Option.some.inj h]; exact List.mem_cons_self
    · exact List.mem_cons_of_mem _ (ih h)

theorem getKey_of_mem {entries : List (K × V)} (hnodup : (keys entries).Nodup) {key : K} {value : V}
    (h : (key, value) ∈ entries) : getKey entries key = some value := by
  induction entries with
  | nil => simp at h
  | cons entry rest ih =>
    rw [keys_cons, List.nodup_cons] at hnodup
    rw [getKey_cons]
    rcases List.mem_cons.mp h with rfl | hmem
    · simp
    · have hne : key ≠ entry.1 := fun he => hnodup.1 (he ▸ mem_keys_of_mem hmem)
      rw [if_neg hne, ih hnodup.2 hmem]

/-! ## Overwriting -/

@[simp] theorem keys_replaceKey (entries : List (K × V)) (key : K) (value : V) :
    keys (replaceKey entries key value) = keys entries := by
  induction entries with
  | nil => rfl
  | cons entry rest ih =>
    rw [replaceKey]
    split
    · rfl
    · simp [ih]

theorem length_replaceKey (entries : List (K × V)) (key : K) (value : V) :
    (replaceKey entries key value).length = entries.length := by
  have h := congrArg List.length (keys_replaceKey entries key value)
  simpa [keys] using h

/-- With distinct keys, overwriting acts on each entry by itself. -/
theorem replaceKey_eq_map {entries : List (K × V)} (hnodup : (keys entries).Nodup) (key : K)
    (value : V) :
    replaceKey entries key value =
      entries.map fun entry => if entry.1 = key then (entry.1, value) else entry := by
  induction entries with
  | nil => rfl
  | cons entry rest ih =>
    rw [keys_cons, List.nodup_cons] at hnodup
    rw [replaceKey, List.map_cons]
    by_cases hk : entry.1 = key
    · simp only [hk, if_true, List.cons.injEq, true_and]
      refine ((List.map_congr_left fun other hother => ?_).trans (List.map_id _)).symm
      have hmem : other.1 ∈ keys rest := mem_keys_of_mem hother
      exact if_neg fun he => hnodup.1 (by rwa [hk, ← he])
    · rw [if_neg hk, if_neg hk, ih hnodup.2]

theorem getKey_replaceKey_self {entries : List (K × V)} {key : K} (h : key ∈ keys entries)
    (value : V) : getKey (replaceKey entries key value) key = some value := by
  induction entries with
  | nil => cases h
  | cons entry rest ih =>
    rw [replaceKey]
    by_cases hk : entry.1 = key
    · rw [if_pos hk, getKey_cons, if_pos hk.symm]
    · have hrest : key ∈ keys rest :=
        (List.mem_cons.mp h).resolve_left fun he => hk he.symm
      rw [if_neg hk, getKey_cons, if_neg (Ne.symm hk), ih hrest]

theorem getKey_replaceKey_of_ne (entries : List (K × V)) {key k : K} (h : k ≠ key) (value : V) :
    getKey (replaceKey entries key value) k = getKey entries k := by
  induction entries with
  | nil => rfl
  | cons entry rest ih =>
    rw [replaceKey]
    by_cases hk : entry.1 = key
    · rw [if_pos hk, getKey_cons, getKey_cons, hk, if_neg h, if_neg h]
    · rw [if_neg hk, getKey_cons, getKey_cons, ih]

/-- Overwriting a value with itself changes nothing. -/
theorem replaceKey_of_getKey {entries : List (K × V)} {key : K} {value : V}
    (h : getKey entries key = some value) : replaceKey entries key value = entries := by
  induction entries with
  | nil => rfl
  | cons entry rest ih =>
    rw [getKey_cons] at h
    rw [replaceKey]
    by_cases hkey : entry.1 = key
    · rw [if_pos hkey.symm] at h
      rw [if_pos hkey, ← Option.some.inj h]
    · rw [if_neg (Ne.symm hkey)] at h
      rw [if_neg hkey, ih h]

theorem mem_replaceKey {entries : List (K × V)} {key : K} {value : V} {entry : K × V}
    (h : entry ∈ replaceKey entries key value) : entry ∈ entries ∨ entry = (key, value) := by
  induction entries with
  | nil => cases h
  | cons first rest ih =>
    rw [replaceKey] at h
    split at h
    · next hk =>
      rcases List.mem_cons.mp h with rfl | hrest
      · exact .inr (Prod.ext hk rfl)
      · exact .inl (List.mem_cons_of_mem _ hrest)
    · rcases List.mem_cons.mp h with rfl | hrest
      · exact .inl List.mem_cons_self
      · exact (ih hrest).imp_left (List.mem_cons_of_mem _)

/-! ## Removing -/

theorem findIdx?_key_eq_none {entries : List (K × V)} {key : K} :
    entries.findIdx? (fun entry => entry.1 = key) = none ↔ key ∉ keys entries := by
  rw [List.findIdx?_eq_none_iff]
  simp only [decide_eq_false_iff_not, keys, List.mem_map, not_exists, not_and]

theorem removeKey_of_not_mem {entries : List (K × V)} {key : K} (h : key ∉ keys entries) :
    removeKey entries key = entries := by
  unfold removeKey
  rw [findIdx?_key_eq_none.mpr h]

/-- Removing a key takes its entry out of the contents and nothing else. -/
theorem coe_removeKey {entries : List (K × V)} (hnodup : (keys entries).Nodup) (key : K) :
    (removeKey entries key : Multiset (K × V)) =
      (entries : Multiset (K × V)).filter fun entry => entry.1 ≠ key := by
  rw [Multiset.filter_coe, Multiset.coe_eq_coe]
  unfold removeKey
  cases h : entries.findIdx? (fun entry => entry.1 = key) with
  | none =>
    have hall : ∀ entry ∈ entries, decide (entry.1 ≠ key) = true := by
      intro entry hentry
      have hne := List.findIdx?_eq_none_iff.mp h entry hentry
      simpa using hne
    rw [List.filter_eq_self.mpr hall]
  | some i =>
    obtain ⟨hi, hkey, hbefore⟩ := List.findIdx?_eq_some_iff_getElem.mp h
    simp only [decide_eq_true_eq] at hkey
    refine (swapRemove_perm entries hi).trans ?_
    have hsplit : entries = entries.take i ++ entries[i] :: entries.drop (i+1) := by
      rw [← List.drop_eq_getElem_cons hi, List.take_append_drop]
    have hfilter : ∀ rest : List (K × V), (∀ entry ∈ rest, entry.1 ≠ entries[i].1) →
        rest.filter (fun entry => decide (entry.1 ≠ key)) = rest := by
      intro rest hrest
      refine List.filter_eq_self.mpr fun entry hentry => ?_
      simpa [← hkey] using hrest entry hentry
    have hkeys : (keys (entries.take i ++ entries[i] :: entries.drop (i+1))).Nodup := hsplit ▸ hnodup
    rw [keys_append, keys_cons, List.nodup_append, List.nodup_cons] at hkeys
    obtain ⟨-, ⟨hafter, -⟩, hdisjoint⟩ := hkeys
    rw [List.eraseIdx_eq_take_drop_succ]
    conv_rhs => rw [hsplit, List.filter_append, List.filter_cons]
    rw [hfilter, hfilter]
    · simp [hkey]
    · exact fun entry hentry he => hafter (he ▸ mem_keys_of_mem hentry)
    · exact fun entry hentry => hdisjoint _ (mem_keys_of_mem hentry) _ (by simp)

theorem mem_removeKey {entries : List (K × V)} (hnodup : (keys entries).Nodup) {key : K}
    {entry : K × V} : entry ∈ removeKey entries key ↔ entry ∈ entries ∧ entry.1 ≠ key := by
  rw [← Multiset.mem_coe, coe_removeKey hnodup, Multiset.mem_filter, Multiset.mem_coe]

theorem keys_removeKey_nodup {entries : List (K × V)} (hnodup : (keys entries).Nodup) (key : K) :
    (keys (removeKey entries key)).Nodup := by
  have hperm : (removeKey entries key).Perm (entries.filter fun entry => entry.1 ≠ key) := by
    rw [← Multiset.coe_eq_coe, coe_removeKey hnodup, Multiset.filter_coe]
  exact (hperm.map Prod.fst).nodup_iff.mpr ((List.filter_sublist.map Prod.fst).nodup hnodup)

theorem length_removeKey_le (entries : List (K × V)) (key : K) :
    (removeKey entries key).length ≤ entries.length := by
  unfold removeKey
  cases h : entries.findIdx? (fun entry => entry.1 = key) with
  | none => exact Nat.le_refl _
  | some i =>
    obtain ⟨hi, -⟩ := List.findIdx?_eq_some_iff_getElem.mp h
    simp only
    rw [swapRemove_length entries hi]
    omega

theorem mem_keys_removeKey {entries : List (K × V)} (hnodup : (keys entries).Nodup) {key k : K} :
    k ∈ keys (removeKey entries key) ↔ k ∈ keys entries ∧ k ≠ key := by
  simp only [keys, List.mem_map, mem_removeKey hnodup]
  constructor
  · rintro ⟨entry, ⟨hmem, hne⟩, rfl⟩
    exact ⟨⟨entry, hmem, rfl⟩, hne⟩
  · rintro ⟨⟨entry, hmem, rfl⟩, hne⟩
    exact ⟨entry, ⟨hmem, hne⟩, rfl⟩

/-- Looking a key up after one has been removed. -/
theorem getKey_removeKey {entries : List (K × V)} (hnodup : (keys entries).Nodup) (key k : K) :
    getKey (removeKey entries key) k = if k = key then none else getKey entries k := by
  by_cases hk : k = key
  · rw [if_pos hk, getKey_eq_none_iff, mem_keys_removeKey hnodup]
    exact fun h => h.2 hk
  · rw [if_neg hk]
    cases hget : getKey entries k with
    | none =>
      rw [getKey_eq_none_iff] at hget ⊢
      exact fun h => hget ((mem_keys_removeKey hnodup).mp h).1
    | some value =>
      exact getKey_of_mem (keys_removeKey_nodup hnodup key)
        ((mem_removeKey hnodup).mpr ⟨mem_of_getKey hget, hk⟩)

/-! ## A table that takes no new key once it is full -/

/-- Enter a value under a key, or overwrite the one there; a table with more than `bound`
entries takes no new key. -/
def enterKey (bound : Nat) (entries : List (K × V)) (key : K) (value : V) : List (K × V) :=
  if key ∈ keys entries then replaceKey entries key value
  else if entries.length ≤ bound then entries ++ [(key, value)]
  else entries

theorem enterKey_of_not_mem (bound : Nat) {entries : List (K × V)} {key : K}
    (h : key ∉ keys entries) (value : V) :
    enterKey bound entries key value =
      if entries.length ≤ bound then entries ++ [(key, value)] else entries :=
  if_neg h

theorem length_enterKey_le_max (bound : Nat) (entries : List (K × V)) (key : K) (value : V) :
    (enterKey bound entries key value).length ≤ max entries.length (bound + 1) := by
  unfold enterKey
  split
  · rw [length_replaceKey]
    exact Nat.le_max_left ..
  · split
    · rw [List.length_append, List.length_singleton]
      omega
    · exact Nat.le_max_left ..

theorem length_enterKey_le (bound : Nat) (entries : List (K × V)) (key : K) (value : V)
    (h : entries.length ≤ bound + 1) : (enterKey bound entries key value).length ≤ bound + 1 :=
  (length_enterKey_le_max bound entries key value).trans (max_le h le_rfl)

theorem keys_enterKey_nodup (bound : Nat) {entries : List (K × V)} (hnodup : (keys entries).Nodup)
    (key : K) (value : V) : (keys (enterKey bound entries key value)).Nodup := by
  unfold enterKey
  split
  · rwa [keys_replaceKey]
  · next hnew =>
    split
    · rw [keys_append, List.nodup_append]
      refine ⟨hnodup, List.nodup_singleton key, fun k hk other hother he => hnew ?_⟩
      have hkey : other = key := by simpa [keys] using hother
      rw [← hkey, ← he]
      exact hk
    · exact hnodup

theorem getKey_concat (entries : List (K × V)) (key k : K) (value : V) :
    getKey (entries ++ [(key, value)]) k =
      (getKey entries k).or (if k = key then some value else none) := by
  induction entries with
  | nil => rw [List.nil_append, getKey_cons, getKey_nil, Option.none_or]
  | cons entry rest ih =>
    rw [List.cons_append, getKey_cons, getKey_cons, ih]
    split <;> rfl

/-- Entering a key leaves the other keys alone. -/
theorem getKey_enterKey_of_ne (bound : Nat) (entries : List (K × V)) {key k : K} (h : k ≠ key)
    (value : V) : getKey (enterKey bound entries key value) k = getKey entries k := by
  unfold enterKey
  split
  · exact getKey_replaceKey_of_ne entries h value
  · split
    · rw [getKey_concat, if_neg h, Option.or_none]
    · rfl

/-- With room the key is there afterwards. -/
theorem getKey_enterKey_self {bound : Nat} {entries : List (K × V)} (h : entries.length ≤ bound)
    (key : K) (value : V) : getKey (enterKey bound entries key value) key = some value := by
  unfold enterKey
  split
  · next hmem => exact getKey_replaceKey_self hmem value
  · next hnew =>
    rw [getKey_concat, (getKey_eq_none_iff _ _).mpr hnew, Option.none_or, if_pos rfl]

/-- Whatever is in the table afterwards was there before or has been entered. -/
theorem mem_enterKey {bound : Nat} {entries : List (K × V)} {key : K} {value : V} {entry : K × V}
    (h : entry ∈ enterKey bound entries key value) : entry ∈ entries ∨ entry = (key, value) := by
  unfold enterKey at h
  split at h
  · exact mem_replaceKey h
  · split at h
    · simpa using h
    · exact .inl h

/-! ## Tables under another spelling of their keys -/

section Map

variable {f : K → K'} (hf : Function.Injective f) (g : V → V')
include hf

theorem getKey_map (entries : List (K × V)) (key : K) :
    getKey (entries.map (Prod.map f g)) (f key) = (getKey entries key).map g := by
  induction entries with
  | nil => rfl
  | cons entry rest ih =>
    rw [List.map_cons, getKey_cons, getKey_cons, Prod.map_fst, Prod.map_snd, ih]
    simp only [hf.eq_iff]
    split <;> rfl

theorem map_removeKey (entries : List (K × V)) (key : K) :
    removeKey (entries.map (Prod.map f g)) (f key) = (removeKey entries key).map (Prod.map f g) := by
  have hidx : (entries.map (Prod.map f g)).findIdx? (fun entry => entry.1 = f key) =
      entries.findIdx? (fun entry => entry.1 = key) := by
    rw [List.findIdx?_map]
    congr 1
    funext entry
    simp [hf.eq_iff]
  unfold removeKey
  rw [hidx]
  cases entries.findIdx? (fun entry => entry.1 = key) with
  | none => rfl
  | some i => exact (map_swapRemove _ _ _).symm

theorem map_replaceKey (entries : List (K × V)) (key : K) (value : V) :
    replaceKey (entries.map (Prod.map f g)) (f key) (g value) =
      (replaceKey entries key value).map (Prod.map f g) := by
  induction entries with
  | nil => rfl
  | cons entry rest ih =>
    simp only [List.map_cons, replaceKey, Prod.map_fst, hf.eq_iff]
    split
    · rfl
    · rw [ih, List.map_cons]

theorem map_enterKey (bound : Nat) (entries : List (K × V)) (key : K) (value : V) :
    enterKey bound (entries.map (Prod.map f g)) (f key) (g value) =
      (enterKey bound entries key value).map (Prod.map f g) := by
  have hmem : f key ∈ keys (entries.map (Prod.map f g)) ↔ key ∈ keys entries := by
    simp [keys, hf.eq_iff]
  unfold enterKey
  simp only [hmem, List.length_map]
  split_ifs
  · exact map_replaceKey hf g entries key value
  · rw [List.map_append]
    rfl
  · rfl

end Map

end DynamicPartitions.Lib.Table
