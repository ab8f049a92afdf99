/-
  Proofs/Number/Whole.lean --- doubles that are whole numbers.

  A double is read as a whole number if and only if that is its value (`toInt?_eq_some_iff`),
  and a pattern is finite if and only if its value lies before that of infinity
  (`isFinite_iff`), so a value of 64 bits is all that a double needs to be taken for it
  (`integral?_eq_some_iff`).  Whole numbers of at most fifty-three bits are doubles
  (`value_ofInt`).
-/
import Mathlib.Data.Nat.Cast.Field
import Rulebook.Binding.Coercion
import Rulebook.Proofs.Number.Decimal
import Rulebook.Proofs.Number.Nearest

set_option autoImplicit false

namespace Rulebook

namespace Binary64

/-! ## Finite patterns -/

theorem abs_value (x : Binary64) : |x.value| = units x.magnitude / unitsPerOne := by
  have hpow : (0 : ℚ) < 2 ^ exponentOf x.magnitude := zpow_pos two_pos _
  rw [units_eq, mul_div_cancel_right₀ _ (Nat.cast_ne_zero.mpr unitsPerOne_pos.ne'), value, abs_mul,
    abs_mul, Nat.abs_cast, abs_of_pos hpow]
  cases x.negative <;> simp

theorem isFinite_iff {x : Binary64} : x.isFinite = true ↔ |x.value| < infinity.value := by
  rw [abs_value, infinity, value_ofMagnitude le_rfl,
    div_lt_div_iff_of_pos_right (Nat.cast_pos.mpr unitsPerOne_pos), Nat.cast_lt,
    units_strictMono.lt_iff_lt, isFinite, decide_eq_true_eq]

theorem abs_cast_le {n : Int} (h : n.natAbs ≤ 2 ^ 64) : |(n : ℚ)| ≤ 2 ^ (64 : Int) := by
  rw [← Int.cast_abs, ← Int.natCast_natAbs, Int.cast_natCast]
  exact_mod_cast h

/-- A value of 64 bits is far from infinity. -/
theorem isFinite_of_value_eq {x : Binary64} {n : Int} (h : x.value = n) (hn : n.natAbs ≤ 2 ^ 64) :
    x.isFinite = true := by
  rw [isFinite_iff, value_infinity, h]
  exact (abs_cast_le hn).trans_lt (zpow_lt_zpow_right₀ one_lt_two (by decide))

/-- So is what a whole number of 64 bits is rounded to, since zero is not nearer to it. -/
theorem isFinite_ofInt {n : Int} (h : n.natAbs ≤ UInt64.size) : (ofInt n).isFinite = true := by
  have hn : |(n : ℚ)| ≤ 2 ^ (64 : Int) := abs_cast_le h
  have hzero : (ofMagnitude false 0).value = 0 := by
    rw [value_ofMagnitude (Nat.zero_le _), units_zero, Nat.cast_zero, zero_div]
  have hnearest := (rounds_ofInt n).nearest (ofMagnitude false 0)
    (isNaN_ofMagnitude (Nat.zero_le _))
  have htriangle := abs_sub_abs_le_abs_sub (ofInt n).value n
  rw [hzero, sub_zero] at hnearest
  rw [abs_sub_comm] at htriangle
  rw [isFinite_iff, value_infinity]
  calc |(ofInt n).value| ≤ 2 * |(n : ℚ)| := by linarith
    _ ≤ 2 * 2 ^ (64 : Int) := mul_le_mul_of_nonneg_left hn zero_le_two
    _ = 2 ^ (65 : Int) := (zpow_one_add₀ two_ne_zero 64).symm
    _ < 2 ^ (1024 : Int) := zpow_lt_zpow_right₀ one_lt_two (by decide)

/-! ## Reading a whole number -/

theorem ratio_spec (x : Binary64) : 0 < x.ratio.2 ∧
    x.value = signFactor x.negative * (x.ratio.1 / x.ratio.2 : ℚ) := by
  unfold ratio value signFactor
  dsimp only
  rw [mul_assoc]
  split
  · rename_i hexponent
    obtain ⟨n, hn⟩ := Int.eq_ofNat_of_zero_le hexponent
    refine ⟨Nat.one_pos, ?_⟩
    rw [hn, Int.toNat_natCast, zpow_natCast, Nat.cast_one, div_one, Nat.cast_mul, Nat.pow_eq,
      Nat.cast_pow, Nat.cast_ofNat]
  · rename_i hexponent
    obtain ⟨n, hn⟩ := Int.eq_ofNat_of_zero_le (show 0 ≤ -exponentOf x.magnitude by omega)
    have hneg : exponentOf x.magnitude = -n := by omega
    refine ⟨Nat.two_pow_pos _, ?_⟩
    rw [hn, hneg, Int.toNat_natCast, zpow_neg, zpow_natCast, Nat.pow_eq, Nat.cast_pow,
      Nat.cast_ofNat, div_eq_mul_inv]

/-- A double is read as the whole number that it is. -/
theorem toInt?_eq_some_iff {x : Binary64} {n : Int} :
    x.toInt? = some n ↔ x.isFinite = true ∧ x.value = n := by
  obtain ⟨hden, hvalue⟩ := ratio_spec x
  have hpos : (x.ratio.2 : ℚ) ≠ 0 := Nat.cast_ne_zero.mpr hden.ne'
  unfold toInt?
  cases x.isFinite with
  | false => simp
  | true =>
      rw [if_pos rfl]
      dsimp only
      by_cases hdvd : x.ratio.1 % x.ratio.2 = 0
      · have hquotient : (x.ratio.1 / x.ratio.2 : ℚ) = ((x.ratio.1 / x.ratio.2 : Nat) : ℚ) :=
          (Nat.cast_div (Nat.dvd_of_mod_eq_zero hdvd) hpos).symm
        rw [if_pos hdvd, hvalue, hquotient, signFactor]
        cases x.negative with
        | false =>
            simp only [Bool.false_eq_true, if_false, Option.some.injEq, true_and, one_mul]
            rw [← Int.cast_inj (α := ℚ), Int.cast_natCast]
        | true =>
            simp only [if_true, Option.some.injEq, true_and, neg_one_mul]
            exact_mod_cast Iff.rfl
      · rw [if_neg hdvd]
        constructor
        · intro h
          cases h
        · rintro ⟨-, h⟩
          have hfactor : |signFactor x.negative| = 1 := by
            unfold signFactor
            split <;> simp
          have habs : (x.ratio.1 / x.ratio.2 : ℚ) = (n.natAbs : ℚ) := by
            rw [Nat.cast_natAbs, Int.cast_abs, ← h, hvalue, abs_mul, hfactor, one_mul,
              abs_of_nonneg (by positivity)]
          rw [div_eq_iff hpos] at habs
          have hmul : x.ratio.1 = n.natAbs * x.ratio.2 := by exact_mod_cast habs
          exact absurd (by rw [hmul, Nat.mul_mod_left]) hdvd

/-! ## Whole numbers of fifty-three bits -/

theorem exists_value_eq {n : Int} (hn : n.natAbs ≤ 2 ^ 53) :
    ∃ x : Binary64, x.isNaN = false ∧ x.value = n := by
  obtain ⟨m, hm, hpoint⟩ := exists_units_eq 1074 (s := n.natAbs) hn
  have hbound : m ≤ infiniteMagnitude := by
    have : 1074 * binadeWeight + 2 ^ 53 ≤ infiniteMagnitude := by decide
    omega
  have hvalue : (ofMagnitude false m).value = (n.natAbs : ℚ) := by
    have hpow : units m = n.natAbs * unitsPerOne := by
      rw [hpoint, unitsPerOne_eq_mul (Nat.zero_add 1074), Nat.pow_zero, Nat.one_mul]
    rw [value_ofMagnitude hbound, hpow, Nat.cast_mul,
      mul_div_cancel_right₀ _ (Nat.cast_ne_zero.mpr unitsPerOne_pos.ne')]
  have hnumber : (ofMagnitude false m).isNaN = false := isNaN_ofMagnitude hbound
  obtain ⟨k, rfl | rfl⟩ := Int.eq_nat_or_neg n
  · exact ⟨_, hnumber, by rw [hvalue, Int.natAbs_natCast, Int.cast_natCast]⟩
  · exact ⟨_, isNaN_neg hnumber, by
      rw [value_neg hnumber, hvalue, Int.natAbs_neg, Int.natAbs_natCast, Int.cast_neg,
        Int.cast_natCast]⟩

/-- Whole numbers of at most fifty-three bits keep their value. -/
theorem value_ofInt {n : Int} (hn : n.natAbs ≤ 2 ^ 53) : (ofInt n).value = n := by
  obtain ⟨x, hx, hvalue⟩ := exists_value_eq hn
  have hself := rounds_value hx
  rw [hvalue] at hself
  exact ((rounds_ofInt n).value_unique hself).trans hvalue

end Binary64

/-! ## 64 bits -/

/-- A whole number fits into 64 bits as the 64-bit number that it is. -/
theorem Value.int64?_eq_some_iff {m : Int} {n : Int64} : int64? m = some n ↔ m = n.toInt := by
  refine ⟨fun h => ?_, fun h => h ▸ int64?_toInt n⟩
  unfold int64? at h
  split at h
  · rename_i hrange
    obtain ⟨hlow, hhigh⟩ := (Bool.and_eq_true _ _).mp hrange
    obtain rfl := Option.some.inj h
    exact (Int64.toInt_ofInt_of_le (of_decide_eq_true hlow)
      (Int.lt_add_one_of_le (of_decide_eq_true hhigh))).symm
  · cases h

/-- A double is taken for the 64-bit number that it is. -/
theorem Coercion.integral?_eq_some_iff {x : Binary64} {n : Int64} :
    integral? x = some n ↔ x.value = n.toInt := by
  simp only [integral?, Option.bind_eq_some_iff, Binary64.toInt?_eq_some_iff,
    Value.int64?_eq_some_iff]
  constructor
  · rintro ⟨_, ⟨-, hvalue⟩, rfl⟩
    exact hvalue
  · intro hvalue
    have hbound : n.toInt.natAbs ≤ 2 ^ 64 := by
      have := n.toInt_lt
      have := n.le_toInt
      omega
    exact ⟨_, ⟨Binary64.isFinite_of_value_eq hvalue hbound, hvalue⟩, rfl⟩

end Rulebook
