/-
  Proofs/Number/Binary64.lean --- which doubles are numbers.

  Rounding gives a magnitude up to that of infinity, and so never a NaN, whatever is
  rounded.  Doubles other than NaN are comparable.
-/
import Rulebook.Number.Decimal
import Rulebook.Value

set_option autoImplicit false

namespace Rulebook

namespace Binary64

theorem toNat_bits_ofMagnitude {negative : Bool} {magnitude : Nat}
    (h : magnitude ≤ infiniteMagnitude) :
    (ofMagnitude negative magnitude).bits.toNat = magnitude + if negative then signWeight else 0 := by
  have hlt : magnitude < signWeight := Nat.lt_of_le_of_lt h (by decide)
  have hsign : (if negative then signWeight else 0) ≤ signWeight := by
    cases negative <;> decide
  have hdouble : signWeight + signWeight = UInt64.size := by decide
  exact UInt64.toNat_ofNat_of_lt' (by omega)

/-- A magnitude up to that of infinity is the magnitude of its double. -/
theorem magnitude_ofMagnitude {negative : Bool} {magnitude : Nat} (h : magnitude ≤ infiniteMagnitude) :
    (ofMagnitude negative magnitude).magnitude = magnitude := by
  have hlt : magnitude < signWeight := Nat.lt_of_le_of_lt h (by decide)
  rw [Binary64.magnitude, toNat_bits_ofMagnitude h]
  cases negative
  · exact Nat.mod_eq_of_lt hlt
  · rw [if_pos rfl, Nat.add_mod_right, Nat.mod_eq_of_lt hlt]

theorem negative_ofMagnitude {negative : Bool} {magnitude : Nat} (h : magnitude ≤ infiniteMagnitude) :
    (ofMagnitude negative magnitude).negative = negative := by
  have hlt : magnitude < signWeight := Nat.lt_of_le_of_lt h (by decide)
  rw [Binary64.negative, toNat_bits_ofMagnitude h]
  cases negative
  · exact decide_eq_false (Nat.not_le.mpr hlt)
  · exact decide_eq_true (Nat.le_add_left _ _)

theorem isNaN_ofMagnitude {negative : Bool} {magnitude : Nat} (h : magnitude ≤ infiniteMagnitude) :
    (ofMagnitude negative magnitude).isNaN = false := by
  rw [isNaN, magnitude_ofMagnitude h]
  exact decide_eq_false (Nat.not_lt.mpr h)

theorem nearest_le (num den : Nat) : nearest num den ≤ infiniteMagnitude := by
  unfold nearest
  split
  · exact Nat.zero_le _
  · exact Nat.min_le_right _ _

theorem isNaN_ofRatio (negative : Bool) (num den : Nat) : (ofRatio negative num den).isNaN = false :=
  isNaN_ofMagnitude (nearest_le num den)

theorem isNaN_ofInt (n : Int) : (ofInt n).isNaN = false := isNaN_ofRatio _ _ _

theorem isNaN_ofDecimal (negative : Bool) (digits : Nat) (exponent : Int) :
    (ofDecimal negative digits exponent).isNaN = false := by
  unfold ofDecimal
  split
  · exact isNaN_ofMagnitude (Nat.zero_le _)
  · split
    · exact isNaN_ofMagnitude (Nat.le_refl _)
    · split
      · exact isNaN_ofRatio _ _ _
      · split
        · exact isNaN_ofMagnitude (Nat.zero_le _)
        · exact isNaN_ofRatio _ _ _

theorem isNaN_of_isFinite {x : Binary64} (h : x.isFinite = true) : x.isNaN = false := by
  rw [isFinite, decide_eq_true_eq] at h
  rw [isNaN]
  exact decide_eq_false (Nat.not_lt.mpr (Nat.le_of_lt h))

theorem exists_compare? {x y : Binary64} (hx : x.isNaN = false) (hy : y.isNaN = false) :
    ∃ o, x.compare? y = some o := by
  simp [compare?, hx, hy]

end Binary64

/-- The value is a double that is not a number. -/
def Value.IsNaN : Value → Prop
  | .float x => x.isNaN = true
  | _ => False

end Rulebook
