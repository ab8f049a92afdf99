/-
  Proofs/Number/Grid.lean --- the exact values of doubles.

  A magnitude stands for a whole number of units of `2 ^ -1074` (`units`).  Within a binade
  the points lie a power of two apart, and a step out of it lands on the next one
  (`units_place`), so the points rise with the magnitude.  The signed magnitude therefore
  orders the exact values (`value_lt_iff`), and it takes every whole number up to the two
  infinities.  An infinity has the value of the first point behind the largest number,
  where both the order and rounding see it.
-/
import Mathlib.Algebra.Order.Field.Power
import Mathlib.Algebra.Order.Ring.Rat
import Mathlib.Order.Monotone.Basic
import Mathlib.Tactic.Ring
import Rulebook.Proofs.Number.Binary64

set_option autoImplicit false

namespace Rulebook

namespace Binary64

/-! ## The points of the magnitudes -/

/-- How many units of `2 ^ -1074` are one. -/
def unitsPerOne : Nat := 2 ^ 1074

theorem two_pow_mul_unitsPerOne (n : Nat) : 2 ^ n * unitsPerOne = 2 ^ (n + 1074) := by
  rw [Nat.pow_add, unitsPerOne]

theorem unitsPerOne_eq_mul {m n : Nat} (h : m + n = 1074) : unitsPerOne = 2 ^ m * 2 ^ n := by
  rw [← Nat.pow_add, h, unitsPerOne]

theorem cast_unitsPerOne : (unitsPerOne : ℚ) = 2 ^ (1074 : Int) := by
  rw [unitsPerOne, Nat.cast_pow, Nat.cast_ofNat, ← zpow_natCast]
  rfl

-- The number is never to be computed.
attribute [irreducible] unitsPerOne

theorem unitsPerOne_pos : 0 < unitsPerOne := by
  have h : (0 : ℚ) < unitsPerOne := by
    rw [cast_unitsPerOne]
    exact zpow_pos two_pos 1074
  exact_mod_cast h

/-- The value of a magnitude in units of `2 ^ -1074`. -/
def units (magnitude : Nat) : Nat :=
  significandOf magnitude * 2 ^ (exponentOf magnitude + 1074).toNat

/-- The point of a significand in its binade.  The significand may run up to the end of the
binade, which is the first point of the next one. -/
theorem units_place {p s : Nat} (hp : p = 0 ∨ binadeWeight ≤ s) (hs : s ≤ 2 * binadeWeight) :
    units (p * binadeWeight + s) = s * 2 ^ p := by
  have hpos : 0 < binadeWeight := by decide
  rcases Nat.lt_or_ge s binadeWeight with hlow | hlow
  · obtain rfl := hp.resolve_right (Nat.not_le.mpr hlow)
    simp [units, significandOf, exponentOf, Nat.div_eq_of_lt hlow]
  rcases Nat.lt_or_eq_of_le hs with hfull | rfl
  · have hdiv : (p * binadeWeight + s) / binadeWeight = p + 1 := by
      unfold binadeWeight at *
      omega
    have hmod : (p * binadeWeight + s) % binadeWeight = s - binadeWeight := by
      unfold binadeWeight at *
      omega
    have hexponent : (((p + 1 : Nat) : Int) - 1075 + 1074).toNat = p := by omega
    rw [units, significandOf, exponentOf, hdiv, hmod, if_neg p.succ_ne_zero, if_neg p.succ_ne_zero,
      hexponent, Nat.sub_add_cancel hlow]
  · have hdiv : (p * binadeWeight + 2 * binadeWeight) / binadeWeight = p + 2 := by
      unfold binadeWeight
      omega
    have hmod : (p * binadeWeight + 2 * binadeWeight) % binadeWeight = 0 := by
      unfold binadeWeight
      omega
    have hexponent : (((p + 2 : Nat) : Int) - 1075 + 1074).toNat = p + 1 := by omega
    rw [units, significandOf, exponentOf, hdiv, hmod, if_neg (p + 1).succ_ne_zero,
      if_neg (p + 1).succ_ne_zero, hexponent, Nat.zero_add, Nat.pow_succ']
    ring

/-- Every magnitude is a significand in its binade. -/
theorem exists_place (magnitude : Nat) :
    ∃ p s, magnitude = p * binadeWeight + s ∧ (p = 0 ∨ binadeWeight ≤ s) ∧ s < 2 * binadeWeight := by
  refine ⟨magnitude / binadeWeight - 1, magnitude - (magnitude / binadeWeight - 1) * binadeWeight,
    ?_, ?_, ?_⟩ <;> unfold binadeWeight <;> omega

/-- From one point to the next it is the unit of the binade. -/
theorem exists_units_succ (magnitude : Nat) : ∃ p s, magnitude = p * binadeWeight + s ∧
    units magnitude = s * 2 ^ p ∧ units (magnitude + 1) = (s + 1) * 2 ^ p := by
  obtain ⟨p, s, rfl, hp, hs⟩ := exists_place magnitude
  refine ⟨p, s, rfl, units_place hp hs.le, ?_⟩
  rw [Nat.add_assoc, units_place (hp.imp_right (Nat.le_succ_of_le ·)) hs]

theorem units_strictMono : StrictMono units := by
  refine strictMono_nat_of_lt_succ fun magnitude => ?_
  obtain ⟨p, s, -, hpoint, hnext⟩ := exists_units_succ magnitude
  rw [hpoint, hnext]
  exact Nat.mul_lt_mul_of_pos_right s.lt_succ_self (Nat.two_pow_pos p)

theorem units_zero : units 0 = 0 := by
  simp [units, significandOf]

/-- Every whole number of at most fifty-three bits is a point, however far it is shifted. -/
theorem exists_units_eq (p : Nat) {s : Nat} (hs : s ≤ 2 * binadeWeight) :
    ∃ m ≤ p * binadeWeight + s, units m = s * 2 ^ p := by
  induction p generalizing s with
  | zero => exact ⟨s, by omega, by simpa using units_place (.inl rfl) hs⟩
  | succ p ih =>
      rcases Nat.lt_or_ge s binadeWeight with hlow | hlow
      · -- The significand is too small for the binade, but not twice itself for the one before.
        obtain ⟨m, hm, hpoint⟩ := ih (s := 2 * s) (by omega)
        have hweight : (p + 1) * binadeWeight = p * binadeWeight + binadeWeight := Nat.succ_mul _ _
        refine ⟨m, by omega, ?_⟩
        rw [hpoint, Nat.pow_succ']
        ring
      · exact ⟨_, le_rfl, units_place (.inr hlow) hs⟩

/-! ## Signed points -/

/-- The point of a signed magnitude. -/
def signedUnits : Int → Int
  | .ofNat n => units n
  | .negSucc n => -(units (n + 1) : Int)

theorem signedUnits_neg (r : Int) : signedUnits (-r) = -signedUnits r := by
  rcases r with (_ | n) | n
  · simp [signedUnits, units_zero]
  · rfl
  · exact (Int.neg_neg _).symm

theorem signedUnits_lt_iff {i j : Int} : signedUnits i < signedUnits j ↔ i < j := by
  have hmono : StrictMono signedUnits := by
    refine strictMono_int_of_lt_succ fun r => ?_
    cases r with
    | ofNat n => exact Int.ofNat_lt.mpr (units_strictMono n.lt_succ_self)
    | negSucc n =>
        have hnext : Int.negSucc n + 1 = -(n : Int) := by omega
        rw [hnext, signedUnits_neg]
        exact Int.neg_lt_neg (Int.ofNat_lt.mpr (units_strictMono n.lt_succ_self))
  exact hmono.lt_iff_lt

/-! ## Values -/

/-- The exact value of a double other than NaN. -/
def value (x : Binary64) : ℚ :=
  (if x.negative then -1 else 1) * significandOf x.magnitude * (2 : ℚ) ^ exponentOf x.magnitude

theorem units_eq (magnitude : Nat) : (units magnitude : ℚ) =
    significandOf magnitude * (2 : ℚ) ^ exponentOf magnitude * unitsPerOne := by
  have hexponent : 0 ≤ exponentOf magnitude + 1074 := by
    unfold exponentOf binadeWeight
    split <;> omega
  have hpow : ((2 : ℚ) ^ (exponentOf magnitude + 1074).toNat) =
      (2 : ℚ) ^ exponentOf magnitude * unitsPerOne := by
    rw [← zpow_natCast, Int.toNat_of_nonneg hexponent, zpow_add₀ two_ne_zero, cast_unitsPerOne]
  rw [units, Nat.cast_mul, Nat.cast_pow, Nat.cast_ofNat, hpow, mul_assoc]

theorem value_mul (x : Binary64) : x.value * unitsPerOne = signedUnits x.rank := by
  have hpoint : signedUnits (x.magnitude : Int) = units x.magnitude := rfl
  unfold value rank
  cases x.negative with
  | false => rw [if_neg Bool.false_ne_true, if_neg Bool.false_ne_true, one_mul, ← units_eq, hpoint,
      Int.cast_natCast]
  | true => rw [if_pos rfl, if_pos rfl, neg_one_mul, neg_mul, neg_mul, ← units_eq, signedUnits_neg,
      hpoint, Int.cast_neg, Int.cast_natCast]

theorem value_eq (x : Binary64) : x.value = signedUnits x.rank / unitsPerOne :=
  eq_div_of_mul_eq (Nat.cast_ne_zero.mpr unitsPerOne_pos.ne') x.value_mul

theorem value_lt_iff {x y : Binary64} : x.value < y.value ↔ x.rank < y.rank := by
  rw [value_eq, value_eq, div_lt_div_iff_of_pos_right (Nat.cast_pos.mpr unitsPerOne_pos),
    Int.cast_lt]
  exact signedUnits_lt_iff

theorem value_eq_iff {x y : Binary64} : x.value = y.value ↔ x.rank = y.rank := by
  constructor
  · intro h
    have hlt : ¬ x.rank < y.rank := fun hlt => (value_lt_iff.mpr hlt).ne h
    have hgt : ¬ y.rank < x.rank := fun hgt => (value_lt_iff.mpr hgt).ne' h
    omega
  · intro h
    rw [value_eq, value_eq, h]

/-- The order of doubles is the order of their values. -/
theorem compare?_eq {x y : Binary64} (hx : x.isNaN = false) (hy : y.isNaN = false) :
    x.compare? y = some (compare x.value y.value) := by
  have hrank : compare x.rank y.rank = compare x.value y.value := by
    rcases lt_trichotomy x.rank y.rank with h | h | h
    · rw [compare_lt_iff_lt.mpr h, compare_lt_iff_lt.mpr (value_lt_iff.mpr h)]
    · rw [compare_eq_iff_eq.mpr h, compare_eq_iff_eq.mpr (value_eq_iff.mpr h)]
    · rw [compare_gt_iff_gt.mpr h, compare_gt_iff_gt.mpr (value_lt_iff.mpr h)]
  simp [compare?, hx, hy, hrank]

/-! ## The double of a signed magnitude -/

theorem rank_ofMagnitude {negative : Bool} {magnitude : Nat} (h : magnitude ≤ infiniteMagnitude) :
    (ofMagnitude negative magnitude).rank = if negative then -(magnitude : Int) else magnitude := by
  rw [rank, magnitude_ofMagnitude h, negative_ofMagnitude h]

theorem natAbs_rank (x : Binary64) : x.rank.natAbs = x.magnitude := by
  unfold rank
  split <;> simp

/-- Every whole number up to the infinities is the signed magnitude of a double. -/
theorem exists_rank_eq {r : Int} (h : r.natAbs ≤ infiniteMagnitude) :
    ∃ x : Binary64, x.isNaN = false ∧ x.rank = r := by
  refine ⟨ofMagnitude (r < 0) r.natAbs, isNaN_ofMagnitude h, ?_⟩
  rw [rank_ofMagnitude h]
  rcases lt_or_ge r 0 with hneg | hpos
  · rw [decide_eq_true hneg, if_pos rfl]
    omega
  · rw [decide_eq_false (not_lt.mpr hpos), if_neg Bool.false_ne_true]
    omega

theorem magnitude_le {x : Binary64} (h : x.isNaN = false) : x.magnitude ≤ infiniteMagnitude :=
  Nat.not_lt.mp (of_decide_eq_false h)

theorem natAbs_rank_le {x : Binary64} (h : x.isNaN = false) : x.rank.natAbs ≤ infiniteMagnitude :=
  x.natAbs_rank.trans_le (magnitude_le h)

/-! ## The other sign -/

theorem magnitude_neg {x : Binary64} (h : x.isNaN = false) : x.neg.magnitude = x.magnitude :=
  magnitude_ofMagnitude (magnitude_le h)

theorem isNaN_neg {x : Binary64} (h : x.isNaN = false) : x.neg.isNaN = false :=
  isNaN_ofMagnitude (magnitude_le h)

theorem rank_neg {x : Binary64} (h : x.isNaN = false) : x.neg.rank = -x.rank := by
  rw [neg, rank_ofMagnitude (magnitude_le h), rank]
  cases x.negative <;> simp

theorem value_neg {x : Binary64} (h : x.isNaN = false) : x.neg.value = -x.value := by
  rw [value_eq, value_eq, rank_neg h, signedUnits_neg, Int.cast_neg, neg_div]

theorem ofMagnitude_true {magnitude : Nat} (h : magnitude ≤ infiniteMagnitude) :
    ofMagnitude true magnitude = (ofMagnitude false magnitude).neg := by
  rw [neg, magnitude_ofMagnitude h, negative_ofMagnitude h, Bool.not_false]

end Binary64

end Rulebook
