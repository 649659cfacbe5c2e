import Mathlib

/-!
# Random sizes, delays and pauses

`random_number` of `include/random.c`, on the value `rand()` has returned. It draws from
the closed interval between its arguments exactly when they are given in ascending order.
-/
namespace DynamicPartitions.Program.Random

/-- What C leaves undefined in `int` arithmetic. -/
inductive Undefined where
  | overflow
  | divisionByZero
deriving DecidableEq, Repr

def intMin : Int := -2147483648
def intMax : Int := 2147483647

/-- A result of type `int`. -/
def checked (n : Int) : Except Undefined Int :=
  if intMin ≤ n ∧ n ≤ intMax then .ok n else .error .overflow

/-- `%`, which rounds towards zero. -/
def remainder (a b : Int) : Except Undefined Int :=
  if b = 0 then .error .divisionByZero else checked (Int.tmod a b)

/-- `low_num` and `hi_num`. -/
def bounds (minNum maxNum : Int) : Except Undefined (Int × Int) :=
  if minNum < maxNum then (checked (maxNum + 1)).map fun hiNum => (minNum, hiNum)
  else (checked (maxNum + 1)).map fun lowNum => (lowNum, minNum)

/-- `random_number`. -/
def randomNumber (rand minNum maxNum : Int) : Except Undefined Int := do
  let (lowNum, hiNum) ← bounds minNum maxNum
  let span ← checked (hiNum - lowNum)
  let offset ← remainder rand span
  checked (offset + lowNum)

theorem checked_of_range {n : Int} (hlow : -2147483648 ≤ n) (hhigh : n ≤ 2147483647) :
    checked n = .ok n := if_pos ⟨hlow, hhigh⟩

theorem eq_of_checked {n m : Int} (h : checked n = .ok m) : m = n := by
  unfold checked at h
  split at h
  · exact (Except.ok.inj h).symm
  · cases h

theorem ok_of_bind {ε α β : Type} {x : Except ε α} {f : α → Except ε β} {b : β}
    (h : (x >>= f) = .ok b) : ∃ a, x = .ok a ∧ f a = .ok b := by
  cases x with
  | error e => cases h
  | ok a => exact ⟨a, rfl, h⟩

/-- In ascending order nothing overflows, and `rand()` is reduced modulo the number of
values between the arguments. -/
theorem randomNumber_ascending {rand minNum maxNum : Int} (hlt : minNum < maxNum)
    (hmin : intMin ≤ minNum) (hmax : maxNum < intMax) (hspan : maxNum - minNum + 1 ≤ intMax)
    (hrand : 0 ≤ rand) :
    randomNumber rand minNum maxNum = .ok (Int.tmod rand (maxNum + 1 - minNum) + minNum) := by
  have hlow := Int.tmod_nonneg (maxNum + 1 - minNum) hrand
  have hhigh := Int.tmod_lt_of_pos rand (show 0 < maxNum + 1 - minNum by omega)
  have hne : maxNum + 1 - minNum ≠ 0 := by omega
  unfold intMin at hmin
  unfold intMax at hmax hspan
  have hbound : checked (maxNum + 1) = .ok (maxNum + 1) :=
    checked_of_range (by omega) (by omega)
  have hdifference : checked (maxNum + 1 - minNum) = .ok (maxNum + 1 - minNum) :=
    checked_of_range (by omega) (by omega)
  have hoffset : checked (Int.tmod rand (maxNum + 1 - minNum)) =
      .ok (Int.tmod rand (maxNum + 1 - minNum)) := checked_of_range (by omega) (by omega)
  rw [randomNumber, bounds, if_pos hlt, hbound]
  show (checked (maxNum + 1 - minNum) >>= _) = _
  rw [hdifference]
  show (remainder rand (maxNum + 1 - minNum) >>= _) = _
  rw [remainder, if_neg hne, hoffset]
  exact checked_of_range (by omega) (by omega)

/-- In descending order the inclusive bound is corrected at the wrong end: the larger
argument is never drawn. -/
theorem randomNumber_descending {rand minNum maxNum result : Int} (hge : ¬ minNum < maxNum)
    (h : randomNumber rand minNum maxNum = .ok result) : result ≠ minNum := by
  obtain ⟨⟨lowNum, hiNum⟩, hbounds, h⟩ := ok_of_bind h
  obtain ⟨span, hspan, h⟩ := ok_of_bind h
  obtain ⟨offset, hoffset, hresult⟩ := ok_of_bind h
  obtain rfl := eq_of_checked hspan
  obtain rfl := eq_of_checked hresult
  have hends : lowNum = maxNum + 1 ∧ hiNum = minNum := by
    rw [bounds, if_neg hge] at hbounds
    cases hbound : checked (maxNum + 1) with
    | error e => simp [hbound, Except.map] at hbounds
    | ok bound =>
      simp only [hbound, Except.map, Except.ok.injEq, Prod.mk.injEq] at hbounds
      exact ⟨hbounds.1.symm.trans (eq_of_checked hbound), hbounds.2.symm⟩
  obtain ⟨rfl, rfl⟩ := hends
  unfold remainder at hoffset
  split at hoffset
  · cases hoffset
  · next hne =>
    obtain rfl := eq_of_checked hoffset
    -- a divisor of -1 gives 0, a positive one a smaller remainder
    by_cases hequal : hiNum - (maxNum + 1) = -1
    · rw [hequal, Int.tmod_neg, Int.tmod_one]
      omega
    · have hsmall := Int.tmod_lt_of_pos rand (show 0 < hiNum - (maxNum + 1) by omega)
      omega

/-! ## The interval -/

/-- For every value of `rand()` the result lies between the arguments, and every integer
there is the result for some value. -/
structure DrawsInterval (minNum maxNum : Int) : Prop where
  inside : ∀ rand, 0 ≤ rand → ∃ result, randomNumber rand minNum maxNum = .ok result ∧
    result ∈ Set.Icc (min minNum maxNum) (max minNum maxNum)
  onto : ∀ n ∈ Set.Icc (min minNum maxNum) (max minNum maxNum), ∃ rand, 0 ≤ rand ∧
    randomNumber rand minNum maxNum = .ok n

theorem draws_interval_iff {minNum maxNum : Int} (hmin : intMin ≤ minNum) (hmax : maxNum < intMax)
    (hspan : maxNum - minNum + 1 ≤ intMax) : DrawsInterval minNum maxNum ↔ minNum < maxNum := by
  constructor
  · intro h
    by_contra hge
    have hlargest : minNum ∈ Set.Icc (min minNum maxNum) (max minNum maxNum) :=
      ⟨min_le_left _ _, le_max_left _ _⟩
    obtain ⟨rand, hrand, hresult⟩ := h.onto minNum hlargest
    exact randomNumber_descending hge hresult rfl
  · intro hlt
    have hascending : ∀ rand, 0 ≤ rand → randomNumber rand minNum maxNum =
        .ok (Int.tmod rand (maxNum + 1 - minNum) + minNum) :=
      fun _ hrand => randomNumber_ascending hlt hmin hmax hspan hrand
    have hlow := min_eq_left hlt.le
    have hhigh := max_eq_right hlt.le
    constructor
    · intro rand hrand
      refine ⟨_, hascending rand hrand, ?_, ?_⟩
      · have hnonneg := Int.tmod_nonneg (maxNum + 1 - minNum) hrand
        omega
      · have hless := Int.tmod_lt_of_pos rand (show 0 < maxNum + 1 - minNum by omega)
        omega
    · rintro n ⟨hge, hle⟩
      have hrand : 0 ≤ n - minNum := by omega
      refine ⟨n - minNum, hrand, ?_⟩
      rw [hascending _ hrand, Int.tmod_eq_of_lt hrand (by omega), Int.sub_add_cancel]

/-- The sizes a worker draws. -/
theorem draws_interval_sizes : DrawsInterval 1 10 :=
  (draws_interval_iff (by decide) (by decide) (by decide)).mpr (by decide)

/-- With equal arguments the result is one too large. -/
theorem draws_outside :
    ¬ ∀ minNum maxNum : Int, intMin ≤ minNum → minNum < intMax → intMin ≤ maxNum → maxNum < intMax →
      maxNum - minNum + 1 ≤ intMax → DrawsInterval minNum maxNum := by
  intro hclaim
  obtain ⟨result, hresult, hinside⟩ := (hclaim 5 5 (by decide) (by decide) (by decide) (by decide)
    (by decide)).inside 0 (by decide)
  have hsix : randomNumber 0 5 5 = .ok 6 := by decide
  rw [hsix] at hresult
  obtain rfl := Except.ok.inj hresult
  exact absurd hinside.2 (by decide)

end DynamicPartitions.Program.Random
