/-
  Proofs/Number/Nearest.lean --- rounding to doubles is correct.

  A magnitude covers the quotients between the midpoints to its two neighbours, and the
  midpoints themselves if it is even (`Covers`).  Rounding a quotient to a significand of the
  binade it lies in gives the magnitude that covers it (`exists_covers`).  So a rounded
  quotient is the nearest double, of two equally near ones the even one (`rounds_ofRatio`).
  Being nearest settles the rest by itself: one value only (`Rounds.value_unique`), the rise
  of the rounded values with the numbers (`Rounds.value_mono`), and a double for itself
  (`rounds_value`).  Decimals far out of the range of doubles, whose power of ten is not
  formed, are rounded in the same way (`Numeral.rounds_toBinary64`).
-/
import Mathlib.Tactic.Linarith
import Mathlib.Tactic.Positivity
import Rulebook.Proofs.Number.Grid

set_option autoImplicit false

namespace Rulebook

/-! ## Quotients rounded to whole numbers -/

namespace Tie

/-- A whole number is nearest to a quotient: it is at most a half off, and exactly a half
only if it is even. -/
structure Nearest (num den n : Nat) : Prop where
  above : 2 * num ≤ 2 * (n * den) + den
  aboveTie : 2 * num = 2 * (n * den) + den → n % 2 = 0
  below : 2 * (n * den) ≤ 2 * num + den
  belowTie : 2 * (n * den) = 2 * num + den → n % 2 = 0

theorem nearest_round (num : Nat) {den : Nat} (hden : 0 < den) :
    Nearest num den (toEven.round num den) := by
  have hsplit : num / den * den + num % den = num := Nat.div_add_mod' num den
  have hrest : num % den < den := Nat.mod_lt num hden
  have hnext : (num / den + 1) * den = num / den * den + den := Nat.succ_mul _ _
  rcases lt_trichotomy (2 * (num % den)) den with h | h | h
  · rw [round_eq_of_lt _ h]
    constructor <;> omega
  · rw [round_toEven_of_eq h]
    rcases Nat.mod_two_eq_zero_or_one (num / den) with heven | hodd
    · rw [heven, Nat.add_zero]
      constructor <;> omega
    · rw [hodd]
      constructor <;> omega
  · rw [round_eq_succ_of_lt _ h]
    constructor <;> omega

theorem round_mul (tie : Tie) (num den : Nat) {c : Nat} (hc : 0 < c) :
    tie.round (num * c) (den * c) = tie.round num den := by
  have hcompare : compare (2 * (num % den * c)) (den * c) = compare (2 * (num % den)) den := by
    rw [← Nat.mul_assoc]
    rcases lt_trichotomy (2 * (num % den)) den with h | h | h
    · rw [Nat.compare_eq_lt.mpr h, Nat.compare_eq_lt.mpr (Nat.mul_lt_mul_of_pos_right h hc)]
    · rw [Nat.compare_eq_eq.mpr h, Nat.compare_eq_eq.mpr (congrArg (· * c) h)]
    · rw [Nat.compare_eq_gt.mpr h, Nat.compare_eq_gt.mpr (Nat.mul_lt_mul_of_pos_right h hc)]
  unfold round
  rw [Nat.mul_div_mul_right _ _ hc, Nat.mul_mod_mul_right, hcompare]

end Tie

namespace Binary64

/-! ## The magnitude that covers a quotient -/

/-- A quotient of units lies between the midpoints to the two neighbours of a magnitude, and
on one of them only if the magnitude is even. -/
structure Covers (magnitude num den : Nat) : Prop where
  above : 2 * num ≤ (units magnitude + units (magnitude + 1)) * den
  aboveTie : 2 * num = (units magnitude + units (magnitude + 1)) * den → magnitude % 2 = 0
  below : ∀ k, magnitude = k + 1 → (units k + units magnitude) * den ≤ 2 * num
  belowTie : ∀ k, magnitude = k + 1 → (units k + units magnitude) * den = 2 * num →
    magnitude % 2 = 0

theorem even_place {p s : Nat} (h : s % 2 = 0) : (p * binadeWeight + s) % 2 = 0 := by
  unfold binadeWeight
  omega

/-- The next point is at least the unit of the binade away; behind its end it is two. -/
theorem le_units_succ {p s : Nat} (hp : p = 0 ∨ binadeWeight ≤ s) (hs : s ≤ 2 * binadeWeight) :
    (s + 1) * 2 ^ p ≤ units (p * binadeWeight + s + 1) := by
  rcases Nat.lt_or_eq_of_le hs with hlt | rfl
  · rw [Nat.add_assoc, units_place (hp.imp_right (Nat.le_succ_of_le ·)) hlt]
  · have hnext : p * binadeWeight + 2 * binadeWeight + 1 =
        (p + 1) * binadeWeight + (binadeWeight + 1) := by
      ring
    have hweight : binadeWeight + 1 ≤ 2 * binadeWeight := by decide
    rw [hnext, units_place (.inr (Nat.le_succ _)) hweight, Nat.pow_succ']
    nlinarith [Nat.two_pow_pos p]

/-- The point before is the unit of the binade away, or closer if it lies in the binade before. -/
theorem units_pred_place {p s k : Nat} (hp : p = 0 ∨ binadeWeight ≤ s) (hs : s ≤ 2 * binadeWeight)
    (hk : p * binadeWeight + s = k + 1) : units k + 2 ^ p = s * 2 ^ p ∨
      p ≠ 0 ∧ s = binadeWeight ∧ units k < s * 2 ^ p := by
  rcases Nat.eq_zero_or_pos s with rfl | hspos
  · have hweight : ¬ binadeWeight ≤ 0 := by decide
    obtain rfl := hp.resolve_right hweight
    omega
  · obtain ⟨s, rfl⟩ : ∃ n, s = n + 1 := ⟨s - 1, by omega⟩
    by_cases hplace : p = 0 ∨ binadeWeight ≤ s
    · obtain rfl : k = p * binadeWeight + s := by omega
      rw [units_place hplace (by omega), Nat.succ_mul]
      exact .inl rfl
    · obtain ⟨hpos, hlow⟩ := not_or.mp hplace
      have hfirst := hp.resolve_left hpos
      refine .inr ⟨hpos, by omega, ?_⟩
      rw [← units_place hp hs, hk]
      exact units_strictMono k.lt_succ_self

/-- The significand nearest to a quotient within its binade covers it. -/
theorem covers_place {p s num den : Nat} (hden : 0 < den) (hp : p = 0 ∨ binadeWeight ≤ s)
    (hs : s ≤ 2 * binadeWeight) (hbinade : p = 0 ∨ binadeWeight * (den * 2 ^ p) ≤ num)
    (hnearest : Tie.Nearest num (den * 2 ^ p) s) : Covers (p * binadeWeight + s) num den := by
  have hpoint : units (p * binadeWeight + s) = s * 2 ^ p := units_place hp hs
  have hnext : 2 * (s * (den * 2 ^ p)) + den * 2 ^ p ≤
      (units (p * binadeWeight + s) + units (p * binadeWeight + s + 1)) * den := by
    have hle := Nat.mul_le_mul_right den (le_units_succ hp hs)
    rw [hpoint]
    linarith
  -- In the binade before the points lie closer, but no quotient of this binade does.
  have hbelow : ∀ k, p * binadeWeight + s = k + 1 →
      (units k + units (p * binadeWeight + s)) * den < 2 * num ∨
        (units k + units (p * binadeWeight + s)) * den + den * 2 ^ p = 2 * (s * (den * 2 ^ p)) := by
    intro k hk
    rw [hpoint]
    rcases units_pred_place hp hs hk with hunit | ⟨hpos, hfirst, hlt⟩
    · have hsum : s * (den * 2 ^ p) = (units k + 2 ^ p) * den := by
        rw [hunit]
        ring
      exact .inr (by rw [hsum, ← hunit]; ring)
    · have hle := hbinade.resolve_left hpos
      rw [← hfirst] at hle
      exact .inl (by nlinarith)
  refine ⟨hnearest.above.trans hnext, fun htie => even_place (hnearest.aboveTie ?_), fun k hk => ?_,
    fun k hk htie => ?_⟩
  · exact le_antisymm hnearest.above (htie ▸ hnext)
  · have := hnearest.below
    rcases hbelow k hk with h | h <;> omega
  · rcases hbelow k hk with h | h
    · exact absurd htie h.ne
    · exact even_place (hnearest.belowTie (by omega))

/-! ## The binade of a quotient -/

theorem reached_iff {num den : Nat} (k : Int) :
    (if 0 ≤ k then den * Nat.pow 2 k.toNat ≤ num else den ≤ num * Nat.pow 2 (-k).toNat) ↔
      (den : ℚ) * 2 ^ k ≤ num := by
  split
  · rename_i hk
    obtain ⟨n, rfl⟩ := Int.eq_ofNat_of_zero_le hk
    rw [zpow_natCast]
    exact_mod_cast Iff.rfl
  · rename_i hk
    obtain ⟨n, hn⟩ := Int.eq_ofNat_of_zero_le (show 0 ≤ -k by omega)
    obtain rfl : k = -n := by omega
    rw [zpow_neg, zpow_natCast, ← div_eq_mul_inv, div_le_iff₀ (by positivity), Int.neg_neg,
      Int.toNat_natCast]
    exact_mod_cast Iff.rfl

theorem log2_spec {n : Nat} (h : n ≠ 0) :
    (2 : ℚ) ^ (n.log2 : Int) ≤ n ∧ (n : ℚ) < 2 ^ ((n.log2 : Int) + 1) := by
  have hlow : ((2 ^ n.log2 : Nat) : ℚ) ≤ n := Nat.cast_le.mpr (Nat.log2_self_le h)
  have hhigh : (n : ℚ) < ((2 ^ (n.log2 + 1) : Nat) : ℚ) := Nat.cast_lt.mpr Nat.lt_log2_self
  rw [zpow_natCast, zpow_add_one₀ two_ne_zero, zpow_natCast, ← pow_succ]
  exact ⟨by exact_mod_cast hlow, by exact_mod_cast hhigh⟩

/-- The logarithms of two numbers leave two candidates for that of their quotient. -/
theorem log2_sub_spec {num den : Nat} (hnum : num ≠ 0) (hden : den ≠ 0) :
    (den : ℚ) * 2 ^ ((num.log2 : Int) - den.log2 - 1) ≤ num ∧
      (num : ℚ) < den * 2 ^ ((num.log2 : Int) - den.log2 + 1) := by
  obtain ⟨hlow, hhigh⟩ := log2_spec hnum
  obtain ⟨hlow', hhigh'⟩ := log2_spec hden
  have hdown : (2 : ℚ) ^ ((den.log2 : Int) + 1) * 2 ^ ((num.log2 : Int) - den.log2 - 1) =
      2 ^ (num.log2 : Int) := by
    rw [← zpow_add₀ two_ne_zero]
    congr 1
    omega
  have hup : (2 : ℚ) ^ (den.log2 : Int) * 2 ^ ((num.log2 : Int) - den.log2 + 1) =
      2 ^ ((num.log2 : Int) + 1) := by
    rw [← zpow_add₀ two_ne_zero]
    congr 1
    omega
  constructor
  · calc (den : ℚ) * 2 ^ ((num.log2 : Int) - den.log2 - 1)
        ≤ 2 ^ ((den.log2 : Int) + 1) * 2 ^ ((num.log2 : Int) - den.log2 - 1) :=
          mul_le_mul_of_nonneg_right hhigh'.le (by positivity)
      _ ≤ num := hdown.trans_le hlow
  · calc (num : ℚ) < 2 ^ (den.log2 : Int) * 2 ^ ((num.log2 : Int) - den.log2 + 1) :=
          hhigh.trans_eq hup.symm
      _ ≤ den * 2 ^ ((num.log2 : Int) - den.log2 + 1) :=
          mul_le_mul_of_nonneg_right hlow' (by positivity)

theorem floorLog2_spec {num den : Nat} (hnum : num ≠ 0) (hden : den ≠ 0) :
    (den : ℚ) * 2 ^ floorLog2 num den ≤ num ∧ (num : ℚ) < den * 2 ^ (floorLog2 num den + 1) := by
  obtain ⟨hlower, hupper⟩ := log2_sub_spec hnum hden
  unfold floorLog2
  dsimp only
  by_cases h : (den : ℚ) * 2 ^ ((num.log2 : Int) - den.log2) ≤ num
  · rw [if_pos (by simpa using (reached_iff _).mpr h)]
    exact ⟨h, hupper⟩
  · rw [if_neg (by simpa using fun hreached => h ((reached_iff _).mp hreached)), Int.sub_add_cancel]
    exact ⟨hlower, not_le.mp h⟩

/-- The binade of a quotient of units. -/
theorem floorLog2_units {num den : Nat} (hnum : num ≠ 0) (hden : den ≠ 0) :
    (den : ℚ) * 2 ^ (floorLog2 num den + 1074) ≤ num * unitsPerOne ∧
      (num : ℚ) * unitsPerOne < den * 2 ^ (floorLog2 num den + 1 + 1074) := by
  obtain ⟨hreached, hpassed⟩ := floorLog2_spec hnum hden
  have hpos : (0 : ℚ) < unitsPerOne := Nat.cast_pos.mpr unitsPerOne_pos
  rw [zpow_add₀ two_ne_zero, zpow_add₀ two_ne_zero _ 1074, ← cast_unitsPerOne, ← mul_assoc,
    ← mul_assoc]
  exact ⟨mul_le_mul_of_nonneg_right hreached hpos.le, mul_lt_mul_of_pos_right hpassed hpos⟩

theorem cast_binadeWeight : (binadeWeight : ℚ) = (2 : ℚ) ^ (52 : Int) := by
  norm_num [binadeWeight]

/-- Rounding takes a quotient to the nearest significand of its binade. -/
theorem nearest_eq {num den : Nat} (hnum : num ≠ 0) (hden : 0 < den) : ∃ p s,
    nearest num den = min (p * binadeWeight + s) infiniteMagnitude ∧
      Tie.Nearest (num * unitsPerOne) (den * 2 ^ p) s ∧
      (p = 0 ∨ binadeWeight * (den * 2 ^ p) ≤ num * unitsPerOne) ∧
      num * unitsPerOne < 2 * binadeWeight * (den * 2 ^ p) := by
  obtain ⟨hreached, hpassed⟩ := floorLog2_units hnum hden.ne'
  generalize hexponent : max (floorLog2 num den - 52) (-1074) = e
  generalize hplace : (e + 1074).toNat = p
  have hp : (p : Int) = e + 1074 := by omega
  refine ⟨p, Tie.toEven.round (num * unitsPerOne) (den * 2 ^ p), ?_,
    Tie.nearest_round _ (Nat.mul_pos hden (Nat.two_pow_pos p)), ?_, ?_⟩
  · unfold nearest
    rw [if_neg hnum]
    dsimp only
    rw [hexponent, hplace]
    congr 2
    split
    · have hunit : den * 2 ^ p = den * Nat.pow 2 e.toNat * unitsPerOne := by
        rw [Nat.mul_assoc, Nat.pow_eq, two_pow_mul_unitsPerOne]
        congr 2
        omega
      rw [hunit, Tie.round_mul _ _ _ unitsPerOne_pos]
    · have hunit : num * unitsPerOne = num * Nat.pow 2 (-e).toNat * 2 ^ p := by
        rw [Nat.mul_assoc, Nat.pow_eq, ← unitsPerOne_eq_mul (by omega)]
      rw [hunit, Tie.round_mul _ _ _ (Nat.two_pow_pos p)]
  · by_cases hzero : p = 0
    · exact .inl hzero
    · have hbinade : floorLog2 num den + 1074 = 52 + p := by omega
      rw [hbinade, zpow_add₀ two_ne_zero, zpow_natCast, ← cast_binadeWeight,
        mul_left_comm] at hreached
      exact .inr (by exact_mod_cast hreached)
  · have hbinade : floorLog2 num den + 1 + 1074 ≤ 53 + p := by omega
    have hend : (2 : ℚ) ^ (53 + (p : Int)) = 2 * binadeWeight * 2 ^ p := by
      rw [zpow_add₀ two_ne_zero, zpow_natCast, cast_binadeWeight, ← zpow_one_add₀ two_ne_zero]
      rfl
    have hbound : (num : ℚ) * unitsPerOne < 2 * binadeWeight * (den * 2 ^ p) :=
      calc (num : ℚ) * unitsPerOne < den * 2 ^ (floorLog2 num den + 1 + 1074) := hpassed
        _ ≤ den * 2 ^ (53 + (p : Int)) := mul_le_mul_of_nonneg_left
          (zpow_le_zpow_right₀ one_le_two hbinade) (Nat.cast_nonneg den)
        _ = 2 * binadeWeight * (den * 2 ^ p) := by rw [hend, mul_left_comm]
    exact_mod_cast hbound

/-- Rounding gives the magnitude that covers the quotient, and infinity for those behind it. -/
theorem exists_covers (num : Nat) {den : Nat} (hden : 0 < den) : ∃ m,
    Covers m (num * unitsPerOne) den ∧ nearest num den = min m infiniteMagnitude := by
  by_cases hnum : num = 0
  · refine ⟨0, ⟨by simp [hnum], fun _ => rfl, fun k hk => by omega, fun k hk => by omega⟩, ?_⟩
    simp [nearest, hnum]
  · obtain ⟨p, s, hrounded, hnearest, hlow, hhigh⟩ := nearest_eq hnum hden
    have hunit : 0 < den * 2 ^ p := Nat.mul_pos hden (Nat.two_pow_pos p)
    have habove := hnearest.above
    have hbelow := hnearest.below
    have hs : s ≤ 2 * binadeWeight := by
      by_contra hgt
      have := Nat.mul_le_mul_right (den * 2 ^ p) (Nat.not_le.mp hgt)
      rw [Nat.succ_mul] at this
      omega
    have hp : p = 0 ∨ binadeWeight ≤ s := hlow.imp_right fun hle => by
      by_contra hlt
      have := Nat.mul_le_mul_right (den * 2 ^ p) (Nat.not_le.mp hlt)
      rw [Nat.succ_mul] at this
      omega
    exact ⟨_, covers_place hden hp hs hlow hnearest, hrounded⟩

/-! ## Nearest values -/

/-- A double is the one nearest to a number, of two equally near ones the even one.  An
infinity counts with its value, one step behind the largest double. -/
structure Rounds (q : ℚ) (x : Binary64) : Prop where
  number : x.isNaN = false
  nearest : ∀ y : Binary64, y.isNaN = false → |q - x.value| ≤ |q - y.value|
  even : ∀ y : Binary64, y.isNaN = false → |q - y.value| = |q - x.value| → y.value ≠ x.value →
    x.magnitude % 2 = 0

/-- Of two points the one on the side of their middle is nearer. -/
theorem lower_nearer_iff {t a b : ℚ} (hab : a < b) : |t - a| ≤ |t - b| ↔ 2 * t ≤ a + b := by
  rw [← sq_le_sq]
  constructor <;> intro h <;> nlinarith

theorem upper_nearer_iff {t a b : ℚ} (hab : a < b) : |t - b| ≤ |t - a| ↔ a + b ≤ 2 * t := by
  rw [← sq_le_sq]
  constructor <;> intro h <;> nlinarith

theorem Covers.above_div {m num den : Nat} (hden : 0 < den) (h : Covers m num den) :
    2 * (num / den : ℚ) ≤ units m + units (m + 1) ∧
      (2 * (num / den : ℚ) = units m + units (m + 1) → m % 2 = 0) := by
  have hpos : (0 : ℚ) < den := Nat.cast_pos.mpr hden
  rw [← mul_div_assoc, div_le_iff₀ hpos, div_eq_iff hpos.ne']
  exact ⟨by exact_mod_cast h.above, fun htie => h.aboveTie (by exact_mod_cast htie)⟩

theorem Covers.below_div {k num den : Nat} (hden : 0 < den) (h : Covers (k + 1) num den) :
    (units k + units (k + 1) : ℚ) ≤ 2 * (num / den : ℚ) ∧
      ((units k + units (k + 1) : ℚ) = 2 * (num / den : ℚ) → (k + 1) % 2 = 0) := by
  have hpos : (0 : ℚ) < den := Nat.cast_pos.mpr hden
  rw [← mul_div_assoc, le_div_iff₀ hpos, eq_div_iff hpos.ne']
  exact ⟨by exact_mod_cast h.below k rfl, fun htie => h.belowTie k rfl (by exact_mod_cast htie)⟩

/-- The point of a magnitude that covers a quotient, or that of infinity if it lies before it, is
the nearest of all points up to infinity. -/
theorem covers_nearest {m num den : Nat} (hden : 0 < den) (h : Covers m num den) {k : Nat}
    (hk : k ≤ infiniteMagnitude) :
    |(num / den : ℚ) - units (min m infiniteMagnitude)| ≤ |(num / den : ℚ) - units k| ∧
      (|(num / den : ℚ) - units k| = |(num / den : ℚ) - units (min m infiniteMagnitude)| →
        k ≠ min m infiniteMagnitude → min m infiniteMagnitude % 2 = 0) := by
  have hinfinite : infiniteMagnitude % 2 = 0 := by decide
  have hpoints : ∀ {i j : Nat}, i < j → (units i : ℚ) < units j := fun hij =>
    Nat.cast_lt.mpr (units_strictMono hij)
  have hpoints' : ∀ {i j : Nat}, i ≤ j → (units i : ℚ) ≤ units j := fun hij =>
    Nat.cast_le.mpr (units_strictMono.monotone hij)
  rcases Nat.lt_or_ge infiniteMagnitude m with hm | hm
  · obtain ⟨i, rfl⟩ : ∃ i, m = i + 1 := ⟨m - 1, by omega⟩
    obtain ⟨hpassed, -⟩ := h.below_div hden
    have hlast := hpoints' (Nat.lt_succ_iff.mp hm)
    have hnext := hpoints i.lt_succ_self
    rw [min_eq_right hm.le]
    rcases Nat.lt_or_eq_of_le hk with hlt | rfl
    · have hcloser := hpoints hlt
      exact ⟨(upper_nearer_iff hcloser).mpr (by linarith), fun _ _ => hinfinite⟩
    · exact ⟨le_rfl, fun _ _ => hinfinite⟩
  · rw [min_eq_left hm]
    rcases lt_trichotomy k m with hlt | rfl | hgt
    · obtain ⟨i, rfl⟩ : ∃ i, m = i + 1 := ⟨m - 1, by omega⟩
      obtain ⟨hbelow, heven⟩ := h.below_div hden
      have hle := hpoints' (Nat.lt_succ_iff.mp hlt)
      refine ⟨(upper_nearer_iff (hpoints hlt)).mpr (by linarith), fun htie _ => heven ?_⟩
      have hside := (lower_nearer_iff (hpoints hlt)).mp htie.le
      linarith
    · exact ⟨le_rfl, fun _ hne => absurd rfl hne⟩
    · obtain ⟨habove, heven⟩ := h.above_div hden
      have hle := hpoints' hgt
      refine ⟨(lower_nearer_iff (hpoints hgt)).mpr (by linarith), fun htie _ => heven ?_⟩
      have hside := (upper_nearer_iff (hpoints hgt)).mp htie.le
      linarith

/-- A number that is not negative lies nearer to a point than to its negative. -/
theorem nearer_signed {t : ℚ} (ht : 0 ≤ t) (i : Int) :
    |t - units i.natAbs| ≤ |t - signedUnits i| ∧
      (|t - signedUnits i| = |t - units i.natAbs| → signedUnits i = units i.natAbs ∨ t = 0) := by
  rcases i with n | n
  · exact ⟨le_rfl, fun _ => .inl rfl⟩
  · have hpoint : (0 : ℚ) ≤ units (n + 1) := Nat.cast_nonneg _
    have hfar : |t - signedUnits (Int.negSucc n)| = t + units (n + 1) := by
      rw [signedUnits, Int.cast_neg, sub_neg_eq_add, Int.cast_natCast]
      exact abs_of_nonneg (by linarith)
    rw [hfar, Int.natAbs_negSucc]
    refine ⟨abs_le.mpr ⟨by linarith, by linarith⟩, fun htie => .inr ?_⟩
    have hlt : (0 : ℚ) < units (n + 1) := by
      rw [← Nat.cast_zero, ← units_zero]
      exact Nat.cast_lt.mpr (units_strictMono n.succ_pos)
    rcases abs_cases (t - units (n + 1)) with ⟨h, -⟩ | ⟨h, -⟩ <;> linarith

theorem value_ofMagnitude {m : Nat} (hm : m ≤ infiniteMagnitude) :
    (ofMagnitude false m).value = units m / unitsPerOne := by
  rw [value_eq, rank_ofMagnitude hm]
  rfl

theorem rounds_of_units {t : ℚ} (ht : 0 ≤ t) {m : Nat} (hm : m ≤ infiniteMagnitude)
    (h : ∀ k ≤ infiniteMagnitude, |t - units m| ≤ |t - units k| ∧
      (|t - units k| = |t - units m| → k ≠ m → m % 2 = 0)) :
    Rounds (t / unitsPerOne) (ofMagnitude false m) := by
  have hpos : (0 : ℚ) < unitsPerOne := Nat.cast_pos.mpr unitsPerOne_pos
  have hvalue := value_ofMagnitude hm
  have hdistance : ∀ a : ℚ, |t / unitsPerOne - a / unitsPerOne| = |t - a| / unitsPerOne := fun a => by
    rw [← sub_div, abs_div, abs_of_pos hpos]
  refine ⟨isNaN_ofMagnitude hm, fun y hy => ?_, fun y hy htie hne => ?_⟩
  · obtain ⟨hnearest, -⟩ := h y.rank.natAbs (natAbs_rank_le hy)
    rw [hvalue, value_eq y, hdistance, hdistance, div_le_div_iff_of_pos_right hpos]
    exact hnearest.trans (nearer_signed ht y.rank).1
  · obtain ⟨hnearest, heven⟩ := h y.rank.natAbs (natAbs_rank_le hy)
    obtain ⟨hsigned, hsame⟩ := nearer_signed ht y.rank
    rw [hvalue, value_eq y, hdistance, hdistance, div_left_inj' hpos.ne'] at htie
    rw [hvalue, value_eq y, Ne, div_left_inj' hpos.ne'] at hne
    rw [magnitude_ofMagnitude hm]
    have hunsigned : |t - units y.rank.natAbs| = |t - units m| := by linarith
    rcases hsame (by linarith) with hpoint | rfl
    · refine heven hunsigned fun hk => hne ?_
      rw [hpoint, hk, Int.cast_natCast]
    · -- Only zero is nearest to zero.
      have hzero := (h 0 (Nat.zero_le _)).1
      have hm0 : units m = 0 := by
        simpa [units_zero] using hzero
      obtain rfl : m = 0 := units_strictMono.injective (hm0.trans units_zero.symm)
      rfl

/-! ## One value for each number -/

theorem Rounds.neg {q : ℚ} {x : Binary64} (h : Rounds q x) : Rounds (-q) x.neg := by
  have hdistance : ∀ {y : Binary64}, y.isNaN = false → |-q - y.value| = |q - y.neg.value| :=
    fun hy => by rw [value_neg hy, ← abs_neg, neg_sub, sub_neg_eq_add, sub_neg_eq_add, add_comm]
  have hself : |-q - x.neg.value| = |q - x.value| := by
    rw [value_neg h.number, neg_sub_neg, abs_sub_comm]
  refine ⟨isNaN_neg h.number, fun y hy => ?_, fun y hy htie hne => ?_⟩
  · rw [hself, hdistance hy]
    exact h.nearest y.neg (isNaN_neg hy)
  · rw [magnitude_neg h.number]
    rw [hself, hdistance hy] at htie
    refine h.even y.neg (isNaN_neg hy) htie fun hsame => hne ?_
    rw [value_neg h.number, ← hsame, value_neg hy, neg_neg]

/-- What is a double is rounded to itself. -/
theorem rounds_value {x : Binary64} (h : x.isNaN = false) : Rounds x.value x := by
  refine ⟨h, fun y _ => by rw [sub_self, abs_zero]; exact abs_nonneg _, fun y _ htie hne => ?_⟩
  rw [sub_self, abs_zero, abs_eq_zero, sub_eq_zero] at htie
  exact absurd htie.symm hne

/-- Between two even doubles there is an odd one, which is nearer than one of them. -/
theorem Rounds.value_le_of_rounds {q : ℚ} {x y : Binary64} (hx : Rounds q x) (hy : Rounds q y) :
    x.value ≤ y.value := by
  by_contra hlt
  have hlt : y.value < x.value := not_le.mp hlt
  have hsame : |q - y.value| = |q - x.value| :=
    le_antisymm (hy.nearest x hx.number) (hx.nearest y hy.number)
  have hxeven := hx.even y hy.number hsame hlt.ne
  have hyeven := hy.even x hx.number hsame.symm hlt.ne'
  rw [← natAbs_rank] at hxeven hyeven
  have hrank := value_lt_iff.mp hlt
  have hxbound := natAbs_rank_le hx.number
  have hybound := natAbs_rank_le hy.number
  obtain ⟨z, hz, hzrank⟩ := exists_rank_eq (r := y.rank + 1) (by omega)
  have hyz : y.value < z.value := value_lt_iff.mpr (by omega)
  have hzx : z.value < x.value := value_lt_iff.mpr (by omega)
  have hbelow := (lower_nearer_iff hyz).mp (hy.nearest z hz)
  have habove := (upper_nearer_iff hlt).mp hsame.ge
  linarith

theorem Rounds.value_unique {q : ℚ} {x y : Binary64} (hx : Rounds q x) (hy : Rounds q y) :
    x.value = y.value :=
  le_antisymm (hx.value_le_of_rounds hy) (hy.value_le_of_rounds hx)

/-- Rounding is monotone. -/
theorem Rounds.value_mono {q r : ℚ} {x y : Binary64} (hx : Rounds q x) (hy : Rounds r y)
    (hle : q ≤ r) : x.value ≤ y.value := by
  rcases hle.eq_or_lt with rfl | hlt
  · exact (hx.value_unique hy).le
  · by_contra hgt
    have hgt : y.value < x.value := not_le.mp hgt
    have habove := (upper_nearer_iff hgt).mp (hx.nearest y hy.number)
    have hbelow := (lower_nearer_iff hgt).mp (hy.nearest x hx.number)
    linarith

/-! ## Quotients, whole numbers and decimals -/

/-- The factor of a sign. -/
def signFactor (negative : Bool) : ℚ := if negative then -1 else 1

theorem rounds_ofMagnitude {negative : Bool} {q : ℚ} {m : Nat} (hm : m ≤ infiniteMagnitude)
    (h : Rounds q (ofMagnitude false m)) :
    Rounds (signFactor negative * q) (ofMagnitude negative m) := by
  cases negative with
  | false => simpa [signFactor] using h
  | true => simpa [signFactor, ofMagnitude_true hm] using h.neg

/-- Rounding a quotient is correct. -/
theorem rounds_ofRatio (negative : Bool) (num : Nat) {den : Nat} (hden : 0 < den) :
    Rounds (signFactor negative * (num / den)) (ofRatio negative num den) := by
  obtain ⟨m, hcovers, hnearest⟩ := exists_covers num hden
  rw [ofRatio, hnearest]
  refine rounds_ofMagnitude (min_le_right _ _) ?_
  have hpos : (unitsPerOne : ℚ) ≠ 0 := Nat.cast_ne_zero.mpr unitsPerOne_pos.ne'
  have hunits : (num / den : ℚ) = ((num * unitsPerOne : Nat) / den : ℚ) / unitsPerOne := by
    rw [Nat.cast_mul, mul_div_right_comm, mul_div_cancel_right₀ _ hpos]
  rw [hunits]
  exact rounds_of_units (by positivity) (min_le_right _ _) fun k hk => covers_nearest hden hcovers hk

/-- Rounding a whole number is correct. -/
theorem rounds_ofInt (n : Int) : Rounds n (ofInt n) := by
  have hsigned : signFactor (n < 0) * ((n.natAbs : Nat) / (1 : Nat) : ℚ) = n := by
    rw [Nat.cast_one, div_one, Nat.cast_natAbs, signFactor]
    rcases lt_or_ge n 0 with h | h
    · rw [decide_eq_true h, if_pos rfl, abs_of_neg h, Int.cast_neg, neg_one_mul, neg_neg]
    · rw [decide_eq_false (not_lt.mpr h), if_neg Bool.false_ne_true, abs_of_nonneg h, one_mul]
  rw [← hsigned]
  exact rounds_ofRatio _ _ Nat.one_pos

/-- What is at least infinity is rounded to it. -/
theorem rounds_infinity {q : ℚ} (h : infinity.value ≤ q) : Rounds q infinity := by
  have hle : ∀ y : Binary64, y.isNaN = false → y.value ≤ infinity.value := fun y hy => by
    rw [← not_lt, value_lt_iff, infinity, rank_ofMagnitude le_rfl, if_neg Bool.false_ne_true]
    have := natAbs_rank_le hy
    omega
  refine ⟨isNaN_ofMagnitude le_rfl, fun y hy => ?_, fun _ _ _ _ => by decide⟩
  rw [abs_of_nonneg (sub_nonneg.mpr h), abs_of_nonneg (sub_nonneg.mpr ((hle y hy).trans h))]
  linarith [hle y hy]

/-- What is at most half a unit is rounded to zero. -/
theorem rounds_zero {q : ℚ} (hq : 0 ≤ q) (h : 2 * (q * unitsPerOne) ≤ 1) :
    Rounds q (ofMagnitude false 0) := by
  have hpos : (unitsPerOne : ℚ) ≠ 0 := Nat.cast_ne_zero.mpr unitsPerOne_pos.ne'
  rw [← mul_div_cancel_right₀ q hpos]
  refine rounds_of_units (by positivity) (Nat.zero_le _) fun k _ => ⟨?_, fun _ _ => rfl⟩
  rcases Nat.eq_zero_or_pos k with rfl | hk
  · exact le_rfl
  · have hone : (1 : ℚ) ≤ units k := by
      have hlt := units_strictMono hk
      rw [units_zero] at hlt
      exact_mod_cast hlt
    rw [units_zero, Nat.cast_zero]
    exact (lower_nearer_iff (by linarith)).mpr (by linarith)

theorem value_infinity : infinity.value = 2 ^ (1024 : Int) := by
  have hsignificand : significandOf infiniteMagnitude = 2 ^ 52 := by decide
  have hexponent : exponentOf infiniteMagnitude = 972 := by decide
  rw [value, infinity, magnitude_ofMagnitude le_rfl, negative_ofMagnitude le_rfl,
    if_neg Bool.false_ne_true, hsignificand, hexponent, one_mul, Nat.cast_pow, Nat.cast_ofNat,
    ← zpow_natCast, ← zpow_add₀ two_ne_zero]
  rfl

/-- Powers of ten that are not formed are behind all doubles. -/
theorem infinity_le_of_far {exponent : Int} (h : 310 < exponent) :
    infinity.value ≤ 10 ^ exponent := by
  have hpowers : (2 : ℚ) ^ 1024 ≤ 10 ^ 311 := by
    have : 2 ^ 1024 ≤ 10 ^ 311 := by decide +kernel
    exact_mod_cast this
  rw [value_infinity]
  calc (2 : ℚ) ^ (1024 : Int) = 2 ^ 1024 := zpow_natCast 2 1024
    _ ≤ 10 ^ 311 := hpowers
    _ = 10 ^ (311 : Int) := (zpow_natCast 10 311).symm
    _ ≤ 10 ^ exponent := zpow_le_zpow_right₀ (by norm_num) (by omega)

/-- Decimals below `2 ^ -1080` are below half a unit. -/
theorem two_mul_units_le_of_small {digits n : Nat} (h : digits.log2 + 1 + 1075 ≤ 3 * n) :
    2 * (digits * unitsPerOne) ≤ 10 ^ n := by
  have hdigits : digits ≤ 2 ^ (digits.log2 + 1) := Nat.lt_log2_self.le
  calc 2 * (digits * unitsPerOne) ≤ 2 * (2 ^ (digits.log2 + 1) * unitsPerOne) :=
        Nat.mul_le_mul_left _ (Nat.mul_le_mul_right _ hdigits)
    _ = 2 ^ (digits.log2 + 1 + 1075) := by
        rw [two_pow_mul_unitsPerOne, ← Nat.pow_succ', Nat.add_assoc]
    _ ≤ 2 ^ (3 * n) := Nat.pow_le_pow_right Nat.two_pos h
    _ = 8 ^ n := Nat.pow_mul 2 3 n
    _ ≤ 10 ^ n := Nat.pow_le_pow_left (by decide) n

/-- Rounding a decimal is correct, also where the power of ten is not formed. -/
theorem rounds_ofDecimal (negative : Bool) (digits : Nat) (exponent : Int) :
    Rounds (signFactor negative * (digits * 10 ^ exponent)) (ofDecimal negative digits exponent) := by
  unfold ofDecimal
  split
  · rename_i hzero
    refine rounds_ofMagnitude (Nat.zero_le _) ?_
    rw [hzero, Nat.cast_zero, zero_mul]
    exact rounds_zero le_rfl (by simp)
  rename_i hdigits
  have hone : (1 : ℚ) ≤ digits := Nat.one_le_cast.mpr (Nat.one_le_iff_ne_zero.mpr hdigits)
  split
  · rename_i hfar
    refine rounds_ofMagnitude le_rfl (rounds_infinity ?_)
    exact (infinity_le_of_far hfar).trans (le_mul_of_one_le_left (by positivity) hone)
  split
  · rename_i hwhole
    obtain ⟨n, rfl⟩ := Int.eq_ofNat_of_zero_le hwhole
    have h := rounds_ofRatio negative (digits * Nat.pow 10 (n : Int).toNat) Nat.one_pos
    simpa [zpow_natCast] using h
  rename_i hneg
  obtain ⟨n, hn⟩ := Int.eq_ofNat_of_zero_le (show 0 ≤ -exponent by omega)
  obtain rfl : exponent = -n := by omega
  have hquotient : (digits * 10 ^ (-n : Int) : ℚ) = digits / (Nat.pow 10 n : Nat) := by
    rw [zpow_neg, zpow_natCast, div_eq_mul_inv, Nat.pow_eq, Nat.cast_pow, Nat.cast_ofNat]
  have hpower : 0 < Nat.pow 10 n := Nat.pow_pos (by decide)
  rw [hquotient, Int.neg_neg, Int.toNat_natCast]
  split
  · rename_i hsmall
    refine rounds_ofMagnitude (Nat.zero_le _) (rounds_zero (by positivity) ?_)
    have hle : ((2 * (digits * unitsPerOne) : Nat) : ℚ) ≤ (Nat.pow 10 n : Nat) :=
      Nat.cast_le.mpr (two_mul_units_le_of_small (by omega))
    rw [Nat.cast_mul, Nat.cast_mul, Nat.cast_ofNat] at hle
    rwa [div_mul_eq_mul_div, ← mul_div_assoc, div_le_one (Nat.cast_pos.mpr hpower)]
  · exact rounds_ofRatio negative digits hpower

end Binary64

/-- The number that a numeral stands for. -/
def Numeral.value (n : Numeral) : ℚ :=
  Binary64.signFactor n.negative * (n.digits * 10 ^ n.exponent)

/-- The double of a numeral is the nearest one. -/
theorem Numeral.rounds_toBinary64 (n : Numeral) : Binary64.Rounds n.value n.toBinary64 :=
  Binary64.rounds_ofDecimal n.negative n.digits n.exponent

end Rulebook
