import Mathlib

/-!
# The leading index

Among the indices below a bound that qualify, the one with the least key, and the first
of those. A search finds it by taking the indices in order and keeping one of them.
-/
namespace DynamicPartitions.Lib.Selection

variable {α : Type*} [LinearOrder α] {P : Nat → Prop} {key : Nat → α}

/-- `k` qualifies below the bound with the least key, before all others of that key. -/
structure Leading (P : Nat → Prop) (key : Nat → α) (bound k : Nat) : Prop where
  lt : k < bound
  holds : P k
  least : ∀ j < bound, P j → key k ≤ key j
  first : ∀ j < bound, P j → key j = key k → k ≤ j

/-- What a search below the bound has found. -/
def Found (P : Nat → Prop) (key : Nat → α) (bound : Nat) : Option Nat → Prop
  | none => ∀ k < bound, ¬ P k
  | some k => Leading P key bound k

theorem found_zero : Found P key 0 none := by
  intro k hk
  omega

variable {bound k : Nat}

/-- An index that does not qualify changes nothing. -/
theorem Found.skip {index : Option Nat} (h : Found P key bound index) (hnot : ¬ P bound) :
    Found P key (bound + 1) index := by
  have hbelow : ∀ j < bound + 1, P j → j < bound := by
    intro j hj hP
    have hne : j ≠ bound := fun he => hnot (he ▸ hP)
    omega
  cases index with
  | none => exact fun j hj hP => h j (hbelow j hj hP) hP
  | some k =>
    obtain ⟨hlt, hholds, hleast, hfirst⟩ := h
    constructor
    · omega
    · exact hholds
    · exact fun j hj hP => hleast j (hbelow j hj hP) hP
    · exact fun j hj hP => hfirst j (hbelow j hj hP) hP

/-- The first index that qualifies is kept. -/
theorem Found.start (h : Found P key bound none) (hP : P bound) :
    Found P key (bound + 1) (some bound) := by
  have honly : ∀ j < bound + 1, P j → j = bound := by
    intro j hj hj'
    have hge : ¬ j < bound := fun hlt => h j hlt hj'
    omega
  constructor
  · omega
  · exact hP
  · intro j hj hj'
    rw [honly j hj hj']
  · intro j hj hj' _
    have hsame := honly j hj hj'
    omega

/-- A later index is not better unless its key is less. -/
theorem Found.keep (h : Found P key bound (some k)) (hkey : key k ≤ key bound) :
    Found P key (bound + 1) (some k) := by
  obtain ⟨hlt, hholds, hleast, hfirst⟩ := h
  constructor
  · omega
  · exact hholds
  · intro j hj hP
    rcases Nat.lt_succ_iff_lt_or_eq.mp hj with hbelow | rfl
    · exact hleast j hbelow hP
    · exact hkey
  · intro j hj hP hsame
    rcases Nat.lt_succ_iff_lt_or_eq.mp hj with hbelow | rfl
    · exact hfirst j hbelow hP hsame
    · omega

theorem Found.replace (h : Found P key bound (some k)) (hP : P bound) (hkey : key bound < key k) :
    Found P key (bound + 1) (some bound) := by
  obtain ⟨hlt, hholds, hleast, hfirst⟩ := h
  constructor
  · omega
  · exact hP
  · intro j hj hj'
    rcases Nat.lt_succ_iff_lt_or_eq.mp hj with hbelow | rfl
    · exact (hkey.trans_le (hleast j hbelow hj')).le
    · exact le_refl _
  · intro j hj hj' hsame
    rcases Nat.lt_succ_iff_lt_or_eq.mp hj with hbelow | rfl
    · exact absurd hsame (hkey.trans_le (hleast j hbelow hj')).ne'
    · exact Nat.le_refl _

/-- Where all keys agree, nothing after the index found can lead. -/
theorem Found.extend (h : Found P key bound (some k)) (hkeys : ∀ i j, key i = key j) {bound' : Nat}
    (hle : bound ≤ bound') : Found P key bound' (some k) := by
  obtain ⟨hlt, hholds, -, hfirst⟩ := h
  constructor
  · omega
  · exact hholds
  · exact fun j _ _ => (hkeys k j).le
  · intro j _ hP hsame
    by_cases hbelow : j < bound
    · exact hfirst j hbelow hP hsame
    · omega

end DynamicPartitions.Lib.Selection
