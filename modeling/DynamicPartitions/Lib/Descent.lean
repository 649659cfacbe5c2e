import Mathlib

/-!
# Steps that use something up

When every step lowers a measure, a run is no longer than the measure of the state it
starts in, and every state leads to one in which nothing can happen any more.
-/
namespace DynamicPartitions.Lib.Descent

open Relation (ReflTransGen)

variable {State : Type*}

/-- A number of steps in a row. -/
inductive Steps (step : State → State → Prop) (s : State) : Nat → State → Prop
  | zero : Steps step s 0 s
  | succ {n : Nat} {t u : State} : Steps step s n t → step t u → Steps step s (n + 1) u

/-- Nothing can happen any more. -/
def Stuck (step : State → State → Prop) (s : State) : Prop := ∀ t, ¬ step s t

variable {step : State → State → Prop} {measure : State → Nat}

theorem Steps.run {s t : State} {n : Nat} (h : Steps step s n t) : ReflTransGen step s t := by
  induction h with
  | zero => exact .refl
  | succ _ hlast ih => exact ih.tail hlast

/-- A measure lowered by every step from the states that satisfy `P`, a property of whole
runs, bounds their number. -/
theorem Steps.add_measure_le {P : State → Prop} (hkeeps : ∀ s t, P s → step s t → P t)
    (hlowers : ∀ s t, P s → step s t → measure t < measure s) {s t : State} {n : Nat} (hs : P s)
    (h : Steps step s n t) : P t ∧ n + measure t ≤ measure s := by
  induction h with
  | zero => exact ⟨hs, by omega⟩
  | @succ n t u _ hlast ih =>
    obtain ⟨ht, hle⟩ := ih
    have hlt := hlowers t u ht hlast
    exact ⟨hkeeps t u ht hlast, by omega⟩

/-- Going on as long as possible comes to an end. -/
theorem exists_stuck {P : State → Prop} (hkeeps : ∀ s t, P s → step s t → P t)
    (hlowers : ∀ s t, P s → step s t → measure t < measure s) (n : Nat) :
    ∀ s, P s → measure s ≤ n → ∃ t, ReflTransGen step s t ∧ P t ∧ Stuck step t := by
  induction n with
  | zero =>
    intro s hs hle
    refine ⟨s, .refl, hs, fun t hstep => ?_⟩
    have hlt := hlowers s t hs hstep
    omega
  | succ n ih =>
    intro s hs hle
    by_cases hstuck : Stuck step s
    · exact ⟨s, .refl, hs, hstuck⟩
    · simp only [Stuck, not_forall, not_not] at hstuck
      obtain ⟨t, hstep⟩ := hstuck
      have hlt := hlowers s t hs hstep
      obtain ⟨u, hrun, hu, hend⟩ := ih t (hkeeps s t hs hstep) (by omega)
      exact ⟨u, .head hstep hrun, hu, hend⟩

end DynamicPartitions.Lib.Descent
