import DynamicPartitions.Lib.Table

/-!
# The waiting list, abstractly

A roster lists each id at most once and takes a new one only while it holds at most
`bound` of them. It cannot be built otherwise.
-/
namespace DynamicPartitions.Abstract.Rosters

open DynamicPartitions.Lib.Table

variable {Id : Type} [DecidableEq Id] {bound : Nat}

structure Roster (Id : Type) [DecidableEq Id] (bound : Nat) where
  entries : List (Id × Unit)
  nodup : (keys entries).Nodup
  length_le : entries.length ≤ bound + 1

namespace Roster

/-- Nobody is listed. -/
def empty : Roster Id bound := ⟨[], List.nodup_nil, Nat.zero_le _⟩

def ids (r : Roster Id bound) : List Id := keys r.entries

def enlist (r : Roster Id bound) (id : Id) : Roster Id bound :=
  ⟨enterKey bound r.entries id (), keys_enterKey_nodup bound r.nodup id (),
    length_enterKey_le bound r.entries id () r.length_le⟩

def strike (r : Roster Id bound) (id : Id) : Roster Id bound :=
  ⟨removeKey r.entries id, keys_removeKey_nodup r.nodup id,
    (length_removeKey_le r.entries id).trans r.length_le⟩

@[simp] theorem ids_empty : (empty : Roster Id bound).ids = [] := rfl

theorem length_ids (r : Roster Id bound) : r.ids.length = r.entries.length := by simp [ids, keys]

/-- A roster with room takes the id. -/
theorem mem_enlist {r : Roster Id bound} (hroom : r.entries.length ≤ bound) (id other : Id) :
    other ∈ (r.enlist id).ids ↔ other ∈ r.ids ∨ other = id := by
  unfold ids enlist enterKey
  by_cases hid : id ∈ keys r.entries
  · simp only [if_pos hid, keys_replaceKey]
    constructor
    · exact Or.inl
    · rintro (hother | rfl)
      · exact hother
      · exact hid
  · simp [if_neg hid, if_pos hroom]

theorem mem_strike (r : Roster Id bound) (id other : Id) :
    other ∈ (r.strike id).ids ↔ other ∈ r.ids ∧ other ≠ id :=
  mem_keys_removeKey r.nodup

end Roster

end DynamicPartitions.Abstract.Rosters
