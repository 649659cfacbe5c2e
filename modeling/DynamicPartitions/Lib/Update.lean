import Mathlib

/-!
# Changing one element of a list

A system of numbered components changes one component at a time. These lemmas
say what such a change does to the collection some of the components
contribute to, and to a property of all components.
-/
namespace DynamicPartitions.Lib.Update

variable {α β : Type*}

theorem coe_filterMap_cons (f : α → Option β) (a : α) (l : List α) :
    ((a :: l).filterMap f : Multiset β) = (l.filterMap f : Multiset β) + ((f a).toList : Multiset β) := by
  rw [List.filterMap_cons]
  cases f a with
  | none => simp
  | some r => rw [Option.toList_some, Multiset.coe_singleton, add_comm, Multiset.singleton_add,
      Multiset.cons_coe]

/-- Replacing one component exchanges its contribution and nothing else. -/
theorem coe_filterMap_set (f : α → Option β) {l : List α} {i : Nat} {a : α} (h : l[i]? = some a)
    (b : α) :
    ((l.set i b).filterMap f : Multiset β) + ((f a).toList : Multiset β) =
      (l.filterMap f : Multiset β) + ((f b).toList : Multiset β) := by
  obtain ⟨hi, rfl⟩ := List.getElem?_eq_some_iff.mp h
  have hnew := (List.set_perm_cons_eraseIdx hi b).filterMap f
  have hold := (List.getElem_cons_eraseIdx_perm hi).filterMap f
  rw [← Multiset.coe_eq_coe.mpr hold, Multiset.coe_eq_coe.mpr hnew, coe_filterMap_cons,
    coe_filterMap_cons, add_right_comm]

theorem coe_filterMap_set_same (f : α → Option β) {l : List α} {i : Nat} {a b : α}
    (h : l[i]? = some a) (hsame : f b = f a) :
    ((l.set i b).filterMap f : Multiset β) = (l.filterMap f : Multiset β) := by
  have hset := coe_filterMap_set f h b
  rw [hsame] at hset
  exact add_right_cancel hset

/-- Exchanging one summand. -/
theorem sum_map_set {M : Type*} [AddCommMonoid M] (f : α → M) {l : List α} {i : Nat} {a : α}
    (h : l[i]? = some a) (b : α) : ((l.set i b).map f).sum + f a = (l.map f).sum + f b := by
  obtain ⟨hi, rfl⟩ := List.getElem?_eq_some_iff.mp h
  have hnew := ((List.set_perm_cons_eraseIdx hi b).map f).sum_eq
  have hold := ((List.getElem_cons_eraseIdx_perm hi).map f).sum_eq
  rw [List.map_cons, List.sum_cons] at hnew hold
  rw [hnew, ← hold, add_right_comm, add_assoc, add_comm, add_assoc]

/-- Looking a component up after one has been added. -/
theorem getElem?_concat_cases {l : List α} {i : Nat} {b c : α} (h : (l ++ [b])[i]? = some c) :
    l[i]? = some c ∨ (i = l.length ∧ c = b) := by
  rcases Nat.lt_or_ge i l.length with hlt | hge
  · rw [List.getElem?_append_left hlt] at h
    exact .inl h
  · rw [List.getElem?_append_right hge] at h
    cases hk : i - l.length with
    | zero =>
      rw [hk] at h
      exact .inr ⟨by omega, (Option.some.inj h).symm⟩
    | succ k => simp [hk] at h

/-- Looking a component up after a change. -/
theorem getElem?_set_cases {l : List α} {i j : Nat} {b c : α} (h : (l.set i b)[j]? = some c) :
    (j = i ∧ c = b) ∨ (j ≠ i ∧ l[j]? = some c) := by
  rw [List.getElem?_set] at h
  by_cases hij : i = j
  · simp only [hij, if_true] at h
    split at h
    · exact .inl ⟨hij.symm, (Option.some.inj h).symm⟩
    · cases h
  · rw [if_neg hij] at h
    exact .inr ⟨fun he => hij he.symm, h⟩

theorem getElem?_set_self_of_some {l : List α} {i : Nat} {a : α} (h : l[i]? = some a) (b : α) :
    (l.set i b)[i]? = some b := by
  obtain ⟨hi, -⟩ := List.getElem?_eq_some_iff.mp h
  exact List.getElem?_set_self hi

/-- Some component has a property: this one, or another. -/
theorem exists_mem_iff {l : List α} {i : Nat} {a : α} (hi : l[i]? = some a) (P : α → Prop) :
    (∃ x ∈ l, P x) ↔ P a ∨ ∃ j x, j ≠ i ∧ l[j]? = some x ∧ P x := by
  constructor
  · rintro ⟨x, hx, hP⟩
    obtain ⟨j, hj⟩ := List.mem_iff_getElem?.mp hx
    by_cases hij : j = i
    · subst hij
      obtain rfl := Option.some.inj (hi.symm.trans hj)
      exact .inl hP
    · exact .inr ⟨j, x, hij, hj, hP⟩
  · rintro (hP | ⟨j, x, -, hj, hP⟩)
    · exact ⟨a, List.mem_of_getElem? hi, hP⟩
    · exact ⟨x, List.mem_of_getElem? hj, hP⟩

theorem exists_mem_set_iff {l : List α} {i : Nat} {a : α} (hi : l[i]? = some a) (b : α)
    (P : α → Prop) :
    (∃ x ∈ l.set i b, P x) ↔ P b ∨ ∃ j x, j ≠ i ∧ l[j]? = some x ∧ P x := by
  rw [exists_mem_iff (getElem?_set_self_of_some hi b) P]
  refine or_congr Iff.rfl (exists_congr fun j => exists_congr fun x => and_congr_right fun hne => ?_)
  rw [List.getElem?_set_ne (Ne.symm hne)]

/-- Two components with a property are counted twice. -/
theorem two_le_countP {p : α → Bool} {l : List α} {i j : Nat} {a b : α} (hij : i ≠ j)
    (hi : l[i]? = some a) (hj : l[j]? = some b) (ha : p a = true) (hb : p b = true) :
    2 ≤ l.countP p := by
  induction l generalizing i j with
  | nil => simp at hi
  | cons x l ih =>
    have hone : ∀ {k : Nat} {c : α}, l[k]? = some c → p c = true → 1 ≤ l.countP p := fun hk hc =>
      List.countP_pos_iff.mpr ⟨_, List.mem_of_getElem? hk, hc⟩
    rw [List.countP_cons]
    cases i with
    | zero =>
      cases j with
      | zero => exact absurd rfl hij
      | succ j =>
        obtain rfl := Option.some.inj hi
        have := hone (by simpa using hj) hb
        rw [if_pos ha]
        omega
    | succ i =>
      cases j with
      | zero =>
        obtain rfl := Option.some.inj hj
        have := hone (by simpa using hi) ha
        rw [if_pos hb]
        omega
      | succ j =>
        have hi' : l[i]? = some a := by simpa using hi
        have := ih (fun he => hij (congrArg Nat.succ he)) hi' (by simpa using hj)
        omega

/-- If one component alone contributes, its contribution is all there is. -/
theorem filterMap_eq_of_unique {f : α → Option β} {l : List α} {i : Nat} {a : α}
    (hi : l[i]? = some a) (h : ∀ j b, l[j]? = some b → j ≠ i → f b = none) :
    l.filterMap f = (f a).toList := by
  induction l generalizing i with
  | nil => simp at hi
  | cons x l ih =>
    rw [List.filterMap_cons]
    cases i with
    | zero =>
      obtain rfl := Option.some.inj hi
      have hrest : l.filterMap f = [] := by
        rw [List.filterMap_eq_nil_iff]
        intro b hb
        obtain ⟨j, hj⟩ := List.mem_iff_getElem?.mp hb
        exact h (j + 1) b (by simpa using hj) (by omega)
      rw [hrest]
      cases f x <;> rfl
    | succ i =>
      have hx : f x = none := h 0 x rfl (by omega)
      rw [hx, ih (by simpa using hi) fun j b hj hne => h (j + 1) b (by simpa using hj) (by omega)]

/-- Exchanging a component that contributes nothing for another one leaves the list of
contributions as it is. -/
theorem filterMap_set_none {f : α → Option β} {l : List α} {i : Nat} {a b : α}
    (hi : l[i]? = some a) (ha : f a = none) (hb : f b = none) :
    (l.set i b).filterMap f = l.filterMap f := by
  induction l generalizing i with
  | nil => simp at hi
  | cons x l ih =>
    cases i with
    | zero =>
      obtain rfl := Option.some.inj hi
      simp [ha, hb]
    | succ i =>
      rw [List.set_cons_succ, List.filterMap_cons, List.filterMap_cons,
        ih (by simpa using hi)]

/-- A history of changes, each at its own position, acts on every position by itself. -/
theorem getElem?_foldl_modify {γ : Type*} (position : γ → Nat) (act : γ → α → α) (changes : List γ)
    (l : List α) (i : Nat) :
    (changes.foldl (fun l c => l.modify (position c) (act c)) l)[i]? =
      l[i]?.map fun a => (changes.filter fun c => position c = i).foldl (fun a c => act c a) a := by
  induction changes generalizing l with
  | nil => simp
  | cons c changes ih =>
    rw [List.foldl_cons, ih, List.getElem?_modify, List.filter_cons]
    by_cases hi : position c = i
    · simp [hi, Function.comp_def]
    · simp [hi]

theorem length_foldl_modify {γ : Type*} (position : γ → Nat) (act : γ → α → α) (changes : List γ)
    (l : List α) :
    (changes.foldl (fun l c => l.modify (position c) (act c)) l).length = l.length := by
  induction changes generalizing l with
  | nil => rfl
  | cons c changes ih => rw [List.foldl_cons, ih, List.length_modify]

/-! ## A component that is assigned again and again -/

section Assignments

variable {γ δ : Type*} {act : γ → α → γ}

/-- The last assignment stands. -/
theorem get_foldl_assign (get : γ → δ) (assigned : α → Option δ) {l : List α}
    (h : ∀ a ∈ l, ∀ s, get (act s a) = (assigned a).getD (get s)) (s : γ) :
    get (l.foldl act s) = (l.filterMap assigned).getLast?.getD (get s) := by
  induction l generalizing s with
  | nil => rfl
  | cons a l ih =>
    have hrest := ih fun b hb => h b (List.mem_cons_of_mem a hb)
    rw [List.foldl_cons, hrest, h a List.mem_cons_self, List.filterMap_cons]
    cases assigned a with
    | none => rfl
    | some value =>
      rw [List.getLast?_cons]
      cases (l.filterMap assigned).getLast? <;> rfl

/-- A flag that is only ever raised. -/
theorem foldl_raise_iff {P : γ → Prop} {Q : α → Prop} {l : List α}
    (h : ∀ a ∈ l, ∀ s, P (act s a) ↔ P s ∨ Q a) (s : γ) :
    P (l.foldl act s) ↔ P s ∨ ∃ a ∈ l, Q a := by
  induction l generalizing s with
  | nil => simp
  | cons a l ih =>
    have hrest := ih fun b hb => h b (List.mem_cons_of_mem a hb)
    rw [List.foldl_cons, hrest, h a List.mem_cons_self, List.exists_mem_cons_iff, or_assoc]

end Assignments

end DynamicPartitions.Lib.Update
