import Mathlib

/-!
# Objects under names

A system keeps objects and links names to some of them. Whoever has found an object
by its name goes on using it after the name is gone: removing a name takes the link
away and leaves the object to those who hold it. Files under their paths and shared
segments under their keys are of this kind.
-/
namespace DynamicPartitions.Lib.Naming

/-- The objects in the order of their creation, and the one each name is linked to. -/
structure Catalog (Name Object : Type*) where
  link : Name → Option Nat
  objects : List Object
  linked : ∀ name index, link name = some index → index < objects.length

variable {Name Object : Type*}

namespace Catalog

/-- Replace an object. -/
def store (catalog : Catalog Name Object) (index : Nat) (object : Object) : Catalog Name Object where
  link := catalog.link
  objects := catalog.objects.set index object
  linked name other h := by
    rw [List.length_set]
    exact catalog.linked name other h

@[simp] theorem link_store (catalog : Catalog Name Object) (index : Nat) (object : Object) :
    (catalog.store index object).link = catalog.link := rfl

@[simp] theorem objects_store (catalog : Catalog Name Object) (index : Nat) (object : Object) :
    (catalog.store index object).objects = catalog.objects.set index object := rfl

theorem getElem?_store_of_ne (catalog : Catalog Name Object) {index other : Nat} (h : other ≠ index)
    (object : Object) : (catalog.store index object).objects[other]? = catalog.objects[other]? :=
  List.getElem?_set_ne h.symm

section Naming

variable [DecidableEq Name]

/-- Take a name away. -/
def remove (catalog : Catalog Name Object) (name : Name) : Catalog Name Object where
  link := Function.update catalog.link name none
  objects := catalog.objects
  linked other index h := by
    by_cases hname : other = name
    · rw [hname, Function.update_self] at h
      cases h
    · rw [Function.update_of_ne hname] at h
      exact catalog.linked other index h

@[simp] theorem link_remove_self (catalog : Catalog Name Object) (name : Name) :
    (catalog.remove name).link name = none := Function.update_self ..

theorem link_remove_of_ne (catalog : Catalog Name Object) {name other : Name} (h : other ≠ name) :
    (catalog.remove name).link other = catalog.link other := Function.update_of_ne h ..

/-- Put a new object under a name. -/
def add (catalog : Catalog Name Object) (name : Name) (object : Object) : Catalog Name Object where
  link := Function.update catalog.link name (some catalog.objects.length)
  objects := catalog.objects ++ [object]
  linked other index h := by
    rw [List.length_append, List.length_singleton]
    by_cases hname : other = name
    · rw [hname, Function.update_self] at h
      obtain rfl := Option.some.inj h
      exact Nat.lt_succ_self _
    · rw [Function.update_of_ne hname] at h
      exact Nat.lt_succ_of_lt (catalog.linked other index h)

/-- Find the object under a name, creating it where there is none. -/
def acquire (catalog : Catalog Name Object) (name : Name) (object : Object) :
    Nat × Catalog Name Object :=
  match catalog.link name with
  | some index => (index, catalog)
  | none => (catalog.objects.length, catalog.add name object)

theorem acquire_of_linked {catalog : Catalog Name Object} {name : Name} {index : Nat}
    (h : catalog.link name = some index) (object : Object) :
    catalog.acquire name object = (index, catalog) := by
  rw [Catalog.acquire, h]

theorem acquire_of_unlinked {catalog : Catalog Name Object} {name : Name}
    (h : catalog.link name = none) (object : Object) :
    catalog.acquire name object = (catalog.objects.length, catalog.add name object) := by
  rw [Catalog.acquire, h]

/-- Afterwards the name stands for the object that was acquired. -/
theorem link_acquire_self (catalog : Catalog Name Object) (name : Name) (object : Object) :
    (catalog.acquire name object).2.link name = some (catalog.acquire name object).1 := by
  cases h : catalog.link name with
  | some index =>
    rw [acquire_of_linked h]
    exact h
  | none =>
    rw [acquire_of_unlinked h]
    exact Function.update_self ..

theorem link_acquire_of_ne (catalog : Catalog Name Object) {name other : Name} (hne : other ≠ name)
    (object : Object) : (catalog.acquire name object).2.link other = catalog.link other := by
  cases h : catalog.link name with
  | some index => rw [acquire_of_linked h]
  | none =>
    rw [acquire_of_unlinked h]
    exact Function.update_of_ne hne ..

/-- What is there afterwards was there before, or is the new object. -/
theorem getElem?_of_acquire {catalog : Catalog Name Object} {name : Name} {object found : Object}
    {index : Nat} (h : (catalog.acquire name object).2.objects[index]? = some found) :
    catalog.objects[index]? = some found ∨ found = object := by
  cases hlink : catalog.link name with
  | some other =>
    rw [acquire_of_linked hlink] at h
    exact .inl h
  | none =>
    rw [acquire_of_unlinked hlink, add, List.getElem?_append] at h
    split at h
    · exact .inl h
    · exact .inr (List.mem_singleton.mp (List.mem_of_getElem? h))

end Naming

end Catalog

end DynamicPartitions.Lib.Naming
