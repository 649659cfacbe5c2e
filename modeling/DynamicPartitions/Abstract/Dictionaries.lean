import Mathlib

/-!
# Bounded dictionaries

A finite map that answers requests one after the other. It takes a new name as long as it
holds fewer than it has room for; what it does not grant leaves it as it is.
-/
namespace DynamicPartitions.Abstract.Dictionaries

structure Dictionary (K V : Type) where
  lookup : K → Option V
  names : Finset K
  mem_names : ∀ key, key ∈ names ↔ (lookup key).isSome = true

/-- What a dictionary is asked for; `void` is a request without a value. -/
inductive Request (K V : Type) where
  | put (key : K) (value : V)
  | drop (key : K)
  | clear
  | void

variable {K V : Type}

def Dictionary.empty : Dictionary K V := ⟨fun _ => none, ∅, by simp⟩

section Requests

variable [DecidableEq K]

def Dictionary.put (d : Dictionary K V) (key : K) (value : V) : Dictionary K V where
  lookup := Function.update d.lookup key (some value)
  names := insert key d.names
  mem_names k := by
    by_cases hk : k = key
    · simp [hk]
    · simp [hk, d.mem_names]

def Dictionary.drop (d : Dictionary K V) (key : K) : Dictionary K V where
  lookup := Function.update d.lookup key none
  names := d.names.erase key
  mem_names k := by
    by_cases hk : k = key
    · simp [hk]
    · simp [hk, d.mem_names]

/-- The dictionary after a request, and whether it was granted. -/
def serve (bound : Nat) (d : Dictionary K V) : Request K V → Dictionary K V × Bool
  | .put key value => if key ∈ d.names ∨ d.names.card < bound then (d.put key value, true) else (d, false)
  | .drop key => if key ∈ d.names then (d.drop key, true) else (d, false)
  | .clear => (.empty, true)
  | .void => (d, false)

def serveAll (bound : Nat) : Dictionary K V → List (Request K V) → Dictionary K V × List Bool
  | d, [] => (d, [])
  | d, request :: requests =>
    let (next, granted) := serve bound d request
    let (last, answers) := serveAll bound next requests
    (last, granted :: answers)

theorem serve_put_granted {bound : Nat} {d : Dictionary K V} {key : K}
    (h : key ∈ d.names ∨ d.names.card < bound) (value : V) :
    serve bound d (.put key value) = (d.put key value, true) := if_pos h

theorem serve_put_refused {bound : Nat} {d : Dictionary K V} {key : K} (hkey : key ∉ d.names)
    (hfull : ¬ d.names.card < bound) (value : V) : serve bound d (.put key value) = (d, false) :=
  if_neg (by simp [hkey, hfull])

theorem serveAll_cons (bound : Nat) (d : Dictionary K V) (request : Request K V)
    (requests : List (Request K V)) : serveAll bound d (request :: requests) =
      ((serveAll bound (serve bound d request).1 requests).1,
        (serve bound d request).2 :: (serveAll bound (serve bound d request).1 requests).2) := rfl

end Requests

end DynamicPartitions.Abstract.Dictionaries
