import Mathlib

/-!
# Documents

What a JSON value says, apart from how it is kept: a scalar, a list, or a record, which is
a map from names to documents without order. A path of names leads into nested records.
-/
namespace DynamicPartitions.Abstract.Documents

variable {N S : Type}

inductive Document (N S : Type) where
  | scalar (value : S)
  | list (items : List (Document N S))
  | record (fields : N → Option (Document N S))

namespace Document

/-- A record without fields. -/
def empty : Document N S := .record fun _ => none

def field : Document N S → N → Option (Document N S)
  | .record fields, name => fields name
  | _, _ => none

end Document

open Document

/-- The document at the end of a path. -/
def find : List N → Document N S → Option (Document N S)
  | [], document => some document
  | name :: path, document => (document.field name).bind (find path)

/-- Every document a path leads through is a record, as far as there are any. -/
def Passable : List N → Document N S → Prop
  | [], _ => True
  | name :: path, document => (∃ fields, document = .record fields) ∧
    ∀ inner, document.field name = some inner → Passable path inner

theorem passable_empty (path : List N) : Passable path (empty : Document N S) := by
  cases path with
  | nil => trivial
  | cons name path => exact ⟨⟨_, rfl⟩, fun inner h => absurd h (Option.some_ne_none inner).symm⟩

theorem Passable.inner {name : N} {path : List N} {document : Document N S}
    (h : Passable (name :: path) document) : Passable path ((document.field name).getD empty) := by
  cases hfield : document.field name with
  | none => exact passable_empty path
  | some inner => exact h.2 inner hfield

theorem find_empty {path : List N} (h : path ≠ []) : find path (empty : Document N S) = none := by
  obtain ⟨name, path, rfl⟩ := List.exists_cons_of_ne_nil h
  rfl

/-! ## Edits -/

section Edit

variable [DecidableEq N]

/-- The record with another field, or without one; what is not a record stays as it is. -/
def Document.setField (document : Document N S) (name : N) (value : Option (Document N S)) :
    Document N S :=
  match document with
  | .record fields => .record (Function.update fields name value)
  | document => document

/-- A document put at the end of a path, through new records where none are on the way. -/
def put (new : Document N S) : List N → Document N S → Document N S
  | [], _ => new
  | name :: path, document =>
    document.setField name (some (put new path ((document.field name).getD empty)))

/-- What stands at the end of a path, taken out. -/
def erase : List N → Document N S → Document N S
  | [], document => document
  | [name], document => document.setField name none
  | name :: path, document => document.setField name ((document.field name).map (erase path))

theorem put_cons (new : Document N S) (name : N) (path : List N) (document : Document N S) :
    put new (name :: path) document =
      document.setField name (some (put new path ((document.field name).getD empty))) := rfl

theorem field_setField_self (fields : N → Option (Document N S)) (name : N)
    (value : Option (Document N S)) :
    ((Document.record fields).setField name value).field name = value := by
  show Function.update fields name value name = value
  exact Function.update_self name value fields

theorem field_setField_of_ne {name other : N} (h : other ≠ name) (document : Document N S)
    (value : Option (Document N S)) : (document.setField name value).field other = document.field other := by
  cases document with
  | record fields =>
    show Function.update fields name value other = fields other
    exact Function.update_of_ne h value fields
  | _ => rfl

theorem setField_setField (document : Document N S) (name : N) (first second : Option (Document N S)) :
    (document.setField name first).setField name second = document.setField name second := by
  cases document with
  | record fields =>
    show Document.record (Function.update (Function.update fields name first) name second) = _
    rw [Function.update_idem]
    rfl
  | _ => rfl

theorem setField_field (document : Document N S) (name : N) :
    document.setField name (document.field name) = document := by
  cases document with
  | record fields =>
    show Document.record (Function.update fields name (fields name)) = _
    rw [Function.update_eq_self]
  | _ => rfl

theorem find_put_self (new : Document N S) (path : List N) : ∀ {document : Document N S},
    Passable path document → find path (put new path document) = some new := by
  induction path with
  | nil => exact fun _ => rfl
  | cons name path ih =>
    intro document h
    have hinner := ih h.inner
    obtain ⟨⟨fields, rfl⟩, -⟩ := h
    rw [put, find, field_setField_self]
    exact hinner

theorem find_put_of_apart (new : Document N S) (path : List N) :
    ∀ {other : List N} {document : Document N S}, ¬ path <+: other → ¬ other <+: path →
      find other (put new path document) = find other document := by
  induction path with
  | nil => exact fun h => absurd List.nil_prefix h
  | cons name path ih =>
    intro other document h h'
    cases other with
    | nil => exact absurd List.nil_prefix h'
    | cons name' other =>
      rw [put, find, find]
      by_cases hname : name' = name
      · subst hname
        rw [List.cons_prefix_cons] at h h'
        replace h : ¬ path <+: other := fun hp => h ⟨rfl, hp⟩
        replace h' : ¬ other <+: path := fun hp => h' ⟨rfl, hp⟩
        cases document with
        | record fields =>
          rw [field_setField_self, Option.bind_some, ih h h']
          cases (Document.record fields).field name' with
          | none => exact find_empty fun hnil => h' (hnil ▸ List.nil_prefix)
          | some inner => rfl
        | _ => rfl
      · rw [field_setField_of_ne hname]

theorem find_erase_self (path : List N) : ∀ document : Document N S, path ≠ [] →
    find path (erase path document) = none := by
  induction path with
  | nil => exact fun _ h => absurd rfl h
  | cons name path ih =>
    intro document _
    cases document with
    | record fields =>
      cases path with
      | nil =>
        rw [erase, find, field_setField_self]
        rfl
      | cons next path =>
        rw [erase, find, field_setField_self]
        · cases (Document.record fields).field name with
          | none => rfl
          | some inner => exact ih inner (List.cons_ne_nil next path)
        · exact List.cons_ne_nil next path
    | _ => cases path <;> rfl

theorem find_erase_of_apart (path : List N) : ∀ {other : List N} {document : Document N S},
    ¬ path <+: other → ¬ other <+: path → find other (erase path document) = find other document := by
  induction path with
  | nil => exact fun h => absurd List.nil_prefix h
  | cons name path ih =>
    intro other document h h'
    cases other with
    | nil => exact absurd List.nil_prefix h'
    | cons name' other =>
      by_cases hname : name' = name
      · subst hname
        rw [List.cons_prefix_cons] at h h'
        replace h : ¬ path <+: other := fun hp => h ⟨rfl, hp⟩
        replace h' : ¬ other <+: path := fun hp => h' ⟨rfl, hp⟩
        cases path with
        | nil => exact absurd List.nil_prefix h
        | cons next path =>
          cases document with
          | record fields =>
            rw [erase, find, find, field_setField_self]
            · cases (Document.record fields).field name' with
              | none => rfl
              | some inner => exact ih h h'
            · exact List.cons_ne_nil next path
          | _ => rfl
      · cases path with
        | nil => rw [erase, find, find, field_setField_of_ne hname]
        | cons next path =>
          rw [erase, find, find, field_setField_of_ne hname]
          exact List.cons_ne_nil next path

end Edit

end DynamicPartitions.Abstract.Documents
