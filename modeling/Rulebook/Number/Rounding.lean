/-
  Number/Rounding.lean --- quotients of natural numbers rounded to whole numbers.

  `Tie.round` gives the whole number nearest to a quotient.  Only a quotient
  halfway between two of them leaves a choice, and that choice is the `Tie`: it is
  made by the format that rounds, and `round_eq_of_lt` and `round_eq_succ_of_lt`
  say that nothing else depends on it.
-/
set_option autoImplicit false

namespace Rulebook

/-- Which of two equally near whole numbers is taken. -/
inductive Tie where
  /-- The even one. -/
  | toEven
  /-- The larger one. -/
  | awayFromZero
deriving DecidableEq, Repr

namespace Tie

/-- The whole number nearest to `num / den`. -/
def round (tie : Tie) (num den : Nat) : Nat :=
  let q := num / den
  match compare (2 * (num % den)) den, tie with
  | .lt, _ => q
  | .gt, _ => q + 1
  | .eq, .toEven => q + q % 2
  | .eq, .awayFromZero => q + 1

/-- Below the half the quotient is cut. -/
theorem round_eq_of_lt (tie : Tie) {num den : Nat} (h : 2 * (num % den) < den) :
    tie.round num den = num / den := by
  simp [round, Nat.compare_eq_lt.mpr h]

/-- Above the half it is raised. -/
theorem round_eq_succ_of_lt (tie : Tie) {num den : Nat} (h : den < 2 * (num % den)) :
    tie.round num den = num / den + 1 := by
  simp [round, Nat.compare_eq_gt.mpr h]

/-- At the half the even neighbour is taken. -/
theorem round_toEven_of_eq {num den : Nat} (h : 2 * (num % den) = den) :
    toEven.round num den = num / den + num / den % 2 := by
  simp [round, Nat.compare_eq_eq.mpr h]

/-- At the half the larger neighbour is taken. -/
theorem round_awayFromZero_of_eq {num den : Nat} (h : 2 * (num % den) = den) :
    awayFromZero.round num den = num / den + 1 := by
  simp [round, Nat.compare_eq_eq.mpr h]

end Tie

end Rulebook
