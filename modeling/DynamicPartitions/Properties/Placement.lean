import DynamicPartitions.Lib.Selection
import DynamicPartitions.Program.Algorithms

/-!
# The placement policies

`search_index` returns the leading index among the partitions with room: the first of
them, the first of the smallest or the first of the largest.
-/
namespace DynamicPartitions.Properties.Placement

open DynamicPartitions.Lib.Selection
open DynamicPartitions.Parson.Value
open DynamicPartitions.Program.Algorithms

/-- By what a policy orders the partitions. -/
def policyKey (algorithm : Algorithm) (freeSpace : Nat → Int) (i : Nat) : Int :=
  match algorithm with
  | .bestFit => freeSpace i
  | .firstFit => 0
  | .worstFit => - freeSpace i

section Search

variable {algorithm : Algorithm} {freeSpace : Nat → Int} {processSize : Int}

/-- A round at a partition with room keeps the leading one. First fit never comes here
with an index. -/
theorem found_searchRound {i : Nat} {index : Option Nat}
    (h : Found (processSize ≤ freeSpace ·) (policyKey algorithm freeSpace) i index)
    (hfits : processSize ≤ freeSpace i) (hfirst : algorithm = .firstFit → index = none) :
    Found (processSize ≤ freeSpace ·) (policyKey algorithm freeSpace) (i + 1)
      (searchRound algorithm freeSpace i index).1 := by
  cases index with
  | none => cases algorithm <;> exact h.start hfits
  | some old =>
    cases algorithm with
    | firstFit => exact absurd (hfirst rfl) (by simp)
    | bestFit =>
      simp only [searchRound]
      split
      · next hless => exact h.replace hfits hless
      · next hmore => exact h.keep (Int.not_lt.mp hmore)
    | worstFit =>
      simp only [searchRound]
      split
      · next hmore => exact h.replace hfits (Int.neg_lt_neg hmore)
      · next hless => exact h.keep (Int.neg_le_neg (Int.not_lt.mp hless))

theorem found_searchLoop (remaining : Nat) : ∀ {i : Nat} {index : Option Nat},
    Found (processSize ≤ freeSpace ·) (policyKey algorithm freeSpace) i index →
    (algorithm = .firstFit → index = none) →
    Found (processSize ≤ freeSpace ·) (policyKey algorithm freeSpace) (i + remaining)
      (searchLoop algorithm freeSpace processSize remaining i index) := by
  induction remaining with
  | zero => exact fun h _ => h
  | succ remaining ih =>
    intro i index h hfirst
    have hbound : i + (remaining + 1) = i + 1 + remaining := by omega
    rw [searchLoop, hbound]
    split
    · next hfits =>
      have hround := found_searchRound h hfits hfirst
      cases algorithm with
      | firstFit => exact hround.extend (fun _ _ => rfl) (Nat.le_add_right _ _)
      | bestFit => cases index <;> exact ih hround (by simp)
      | worstFit => cases index <;> exact ih hround (by simp)
    · next hshort => exact ih (h.skip hshort) hfirst

end Search

/-- What a result of `search_index` has to be, by the free space of the partitions that
may be chosen. -/
def Implements (algorithm : Algorithm) (freeSpace : Nat → Int) (may : Nat → Prop) :
    Option Nat → Prop
  | none => ∀ k, ¬ may k
  | some k => may k ∧
    match algorithm with
    | .firstFit => ∀ j, may j → k ≤ j
    | .bestFit => (∀ j, may j → freeSpace k ≤ freeSpace j) ∧
        ∀ j, may j → freeSpace j = freeSpace k → k ≤ j
    | .worstFit => (∀ j, may j → freeSpace j ≤ freeSpace k) ∧
        ∀ j, may j → freeSpace j = freeSpace k → k ≤ j

theorem implements_of_found {algorithm : Algorithm} {freeSpace : Nat → Int} {processSize : Int}
    {n : Nat} {index : Option Nat}
    (h : Found (processSize ≤ freeSpace ·) (policyKey algorithm freeSpace) n index) :
    Implements algorithm freeSpace (fun k => k < n ∧ processSize ≤ freeSpace k) index := by
  cases index with
  | none => exact fun k hk => h k hk.1 hk.2
  | some k =>
    obtain ⟨hlt, hfits, hleast, hfirst⟩ := h
    refine ⟨⟨hlt, hfits⟩, ?_⟩
    cases algorithm with
    | firstFit => exact fun j hj => hfirst j hj.1 hj.2 rfl
    | bestFit =>
      constructor
      · exact fun j hj => hleast j hj.1 hj.2
      · exact fun j hj hsame => hfirst j hj.1 hj.2 hsame
    | worstFit =>
      constructor
      · intro j hj
        have hneg : - freeSpace k ≤ - freeSpace j := hleast j hj.1 hj.2
        omega
      · exact fun j hj hsame => hfirst j hj.1 hj.2 (congrArg (- ·) hsame)

/-- The free space of a partition as `search_index` reads it. -/
def freeSpaceOf (memArr : Option (JsonArray JsonValue)) (i : Nat) : Int :=
  jsonObjectGetNumber (jsonArrayGetObject memArr i) freeSpaceName

/-- The partitions with room for the process. -/
def HasRoom (memArr : Option (JsonArray JsonValue)) (processSize : Int) (k : Nat) : Prop :=
  k < (memArr.map jsonArrayGetCount).getD 0 ∧ processSize ≤ freeSpaceOf memArr k

/-- `search_index` implements the three policies. -/
theorem search_index_implements (memArr : Option (JsonArray JsonValue)) (processSize : Int)
    (algorithm : Algorithm) :
    Implements algorithm (freeSpaceOf memArr) (HasRoom memArr processSize)
      (searchIndex memArr processSize algorithm) := by
  have hfound : Found (processSize ≤ freeSpaceOf memArr ·) (policyKey algorithm (freeSpaceOf memArr))
      (0 + (memArr.map jsonArrayGetCount).getD 0) (searchIndex memArr processSize algorithm) :=
    found_searchLoop _ found_zero fun _ => rfl
  rw [Nat.zero_add] at hfound
  exact implements_of_found hfound

end DynamicPartitions.Properties.Placement
