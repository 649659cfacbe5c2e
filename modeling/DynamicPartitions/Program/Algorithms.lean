import DynamicPartitions.Parson.Value

/-!
# Placement algorithms

`search_index` of `include/algorithms.c`. The index -1 is `none`.
-/
namespace DynamicPartitions.Program.Algorithms

open DynamicPartitions.Parson.Value

/-- `algorithm_t`. -/
inductive Algorithm where
  | bestFit
  | firstFit
  | worstFit
deriving DecidableEq, Repr

def freeSpaceName : CString := "free_space".toList

/-- One round of the loop of `search_index` at a partition that fits: the new index
and whether the loop breaks. -/
def searchRound (algorithm : Algorithm) (freeSpace : Nat → Int) (i : Nat) (index : Option Nat) :
    Option Nat × Bool :=
  match algorithm, index with
  | .bestFit, none => (some i, false)
  | .bestFit, some old => (if freeSpace old > freeSpace i then some i else some old, false)
  | .worstFit, none => (some i, false)
  | .worstFit, some old => (if freeSpace old < freeSpace i then some i else some old, false)
  | .firstFit, _ => (some i, true)

/-- The loop of `search_index` over the `remaining` partitions from `i` on. -/
def searchLoop (algorithm : Algorithm) (freeSpace : Nat → Int) (processSize : Int) :
    Nat → Nat → Option Nat → Option Nat
  | 0, _, index => index
  | remaining + 1, i, index =>
    if freeSpace i ≥ processSize then
      match searchRound algorithm freeSpace i index with
      | (index, true) => index
      | (index, false) => searchLoop algorithm freeSpace processSize remaining (i + 1) index
    else searchLoop algorithm freeSpace processSize remaining (i + 1) index

/-- `search_index`. -/
def searchIndex (memArr : Option (JsonArray JsonValue)) (processSize : Int)
    (algorithm : Algorithm) : Option Nat :=
  let n := (memArr.map jsonArrayGetCount).getD 0
  let freeSpace := fun i => jsonObjectGetNumber (jsonArrayGetObject memArr i) freeSpaceName
  searchLoop algorithm freeSpace processSize n 0 none

/-! ## What the search finds -/

/-- The index is a partition below the bound with room for the process. -/
def Fits (freeSpace : Nat → Int) (processSize : Int) (bound : Nat) (index : Option Nat) : Prop :=
  ∀ k ∈ index, k < bound ∧ processSize ≤ freeSpace k

theorem fits_searchRound (algorithm : Algorithm) {freeSpace : Nat → Int} {processSize : Int}
    {i : Nat} {index : Option Nat} (h : Fits freeSpace processSize i index)
    (hfits : processSize ≤ freeSpace i) :
    Fits freeSpace processSize (i + 1) (searchRound algorithm freeSpace i index).1 := by
  have hnew : Fits freeSpace processSize (i + 1) (some i) := by
    intro k hk
    obtain rfl := Option.mem_some_iff.mp hk
    exact ⟨Nat.lt_succ_self _, hfits⟩
  have hold : Fits freeSpace processSize (i + 1) index := fun k hk =>
    ⟨Nat.lt_succ_of_lt (h k hk).1, (h k hk).2⟩
  cases algorithm <;> cases index <;> simp only [searchRound]
  case bestFit.some old => split <;> assumption
  case worstFit.some old => split <;> assumption
  all_goals exact hnew

theorem fits_searchLoop (algorithm : Algorithm) {freeSpace : Nat → Int} {processSize : Int}
    (remaining : Nat) : ∀ {i : Nat} {index : Option Nat}, Fits freeSpace processSize i index →
    Fits freeSpace processSize (i + remaining)
      (searchLoop algorithm freeSpace processSize remaining i index) := by
  induction remaining with
  | zero => exact fun h => h
  | succ remaining ih =>
    intro i index h
    have hbound : i + (remaining + 1) = i + 1 + remaining := by omega
    rw [searchLoop, hbound]
    split
    · next hfits =>
      have hround := fits_searchRound algorithm h hfits
      split
      · next found heq =>
        rw [heq] at hround
        exact fun k hk => ⟨Nat.lt_of_lt_of_le (hround k hk).1 (Nat.le_add_right _ _), (hround k hk).2⟩
      · next found heq =>
        rw [heq] at hround
        exact ih hround
    · exact ih fun k hk => ⟨Nat.lt_succ_of_lt (h k hk).1, (h k hk).2⟩

end DynamicPartitions.Program.Algorithms
