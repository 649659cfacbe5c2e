import Mathlib

/-!
# Runs of a transition system

A run keeps the label of each step and the state it was taken in; what every step
preserves holds at its end. An abstract object has sequential executions, lists of
operations taken one after the other, and a history is read entry by entry.
-/
namespace DynamicPartitions.Lib.Transition

variable {State Op Abstract : Type*}

/-! ## Labelled runs -/

/-- A run, with each step's label and the state it was taken in. -/
inductive Run {Label : Type*} (step : State → Label → State → Prop) (s : State) :
    List (State × Label) → State → Prop
  | nil : Run step s [] s
  | snoc {entries : List (State × Label)} {t u : State} {label : Label} :
      Run step s entries t → step t label u → Run step s (entries ++ [(t, label)]) u

theorem Run.append {Label : Type*} {step : State → Label → State → Prop} {s t u : State}
    {entries more : List (State × Label)} (hfirst : Run step s entries t)
    (hsecond : Run step t more u) : Run step s (entries ++ more) u := by
  induction hsecond with
  | nil => rwa [List.append_nil]
  | snoc _ hlast ih =>
    rw [← List.append_assoc]
    exact ih.snoc hlast

/-- What every step preserves holds at the end of a run. -/
theorem Run.holds {Label : Type*} {step : State → Label → State → Prop} {P : State → Prop}
    (hstep : ∀ s label t, P s → step s label t → P t) {s t : State}
    {entries : List (State × Label)} (hrun : Run step s entries t) (hs : P s) : P t := by
  induction hrun with
  | nil => exact hs
  | snoc _ hlast ih => exact hstep _ _ _ ih hlast

/-- A condition on the steps of a run, one step longer. -/
theorem forall_mem_snoc {α : Type*} {P : α → Prop} {entries : List α} {last : α} :
    (∀ entry ∈ entries ++ [last], P entry) ↔ (∀ entry ∈ entries, P entry) ∧ P last := by
  simp only [List.forall_mem_append, List.forall_mem_singleton]

/-! ## Sequential executions of an abstract object -/

/-- The abstract object takes the listed operations one after the other. -/
inductive Executes (act : Abstract → Op → Abstract → Prop) : Abstract → List Op → Abstract → Prop
  | nil (a : Abstract) : Executes act a [] a
  | snoc {a b c : Abstract} {ops : List Op} {op : Op} :
      Executes act a ops b → act b op c → Executes act a (ops ++ [op]) c

theorem Executes.append {act : Abstract → Op → Abstract → Prop} {a b c : Abstract}
    {ops more : List Op} (hfirst : Executes act a ops b) (hsecond : Executes act b more c) :
    Executes act a (ops ++ more) c := by
  induction hsecond with
  | nil => rwa [List.append_nil]
  | snoc _ hlast ih =>
    rw [← List.append_assoc]
    exact ih.snoc hlast

theorem Executes.single {act : Abstract → Op → Abstract → Prop} {a b : Abstract} {op : Op}
    (h : act a op b) : Executes act a [op] b := (Executes.nil a).snoc h

theorem Executes.nil_inv {act : Abstract → Op → Abstract → Prop} {a b : Abstract}
    (h : Executes act a [] b) : b = a := by
  generalize hops : ([] : List Op) = ops at h
  cases h with
  | nil => rfl
  | snoc hfirst hlast => simp at hops

theorem Executes.single_inv {act : Abstract → Op → Abstract → Prop} {a b : Abstract} {op : Op}
    (h : Executes act a [op] b) : act a op b := by
  generalize hops : [op] = ops at h
  cases h with
  | nil => simp at hops
  | @snoc middle _ before last hfirst hlast =>
    cases before with
    | nil =>
      obtain rfl := hfirst.nil_inv
      obtain rfl := (List.cons.inj hops).1
      exact hlast
    | cons first rest => simp at hops

/-! ## Histories -/

/-- Every entry of a history satisfies `P` of what came before it. -/
def EachAfter (P : List Op → Op → Prop) (history : List Op) : Prop :=
  ∀ before entry after, history = before ++ entry :: after → P before entry

theorem eachAfter_nil (P : List Op → Op → Prop) : EachAfter P [] := fun _ _ _ h => by simp at h

theorem EachAfter.append {P : List Op → Op → Prop} {history more : List Op}
    (h : EachAfter P history) (hmore : EachAfter (fun before => P (history ++ before)) more) :
    EachAfter P (history ++ more) := by
  intro before entry after heq
  rcases List.append_eq_append_iff.mp heq with ⟨rest, rfl, hrest⟩ | ⟨rest, hbefore, hrest⟩
  · exact hmore rest entry after hrest
  · cases rest with
    | nil =>
      rw [List.append_nil] at hbefore
      rw [← hbefore]
      simpa using hmore [] entry after hrest.symm
    | cons first rest =>
      obtain ⟨rfl, -⟩ := List.cons.inj hrest
      exact h before entry rest hbefore

end DynamicPartitions.Lib.Transition
