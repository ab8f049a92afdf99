/-
  Number/Binary64.lean --- double-precision numbers in exact arithmetic.

  A number is held as its IEEE 754 bit pattern and read back as
  `± significand · 2 ^ exponent` with natural numbers.  Every operation is defined
  on that exact value: reading rounds one quotient of natural numbers to the
  nearest double, ties to even (`nearest`), and comparison orders the patterns
  themselves, whose magnitudes rise with the value they stand for.
-/
import Rulebook.Number.Rounding

set_option autoImplicit false

namespace Rulebook

/-- A double-precision number as its bit pattern: one sign bit, eleven exponent
bits and fifty-two fraction bits. -/
structure Binary64 where
  /-- The bit pattern. -/
  bits : UInt64
deriving DecidableEq, Repr, Inhabited

namespace Binary64

/-! ## The parts of a pattern -/

/-- The weight of the sign bit, `2 ^ 63`. -/
def signWeight : Nat := 0x8000000000000000

/-- The weight of the lowest exponent bit, `2 ^ 52`. -/
def binadeWeight : Nat := 0x10000000000000

/-- The pattern without its sign bit. -/
def magnitude (x : Binary64) : Nat := x.bits.toNat % signWeight

/-- The sign bit. -/
def negative (x : Binary64) : Bool := signWeight ≤ x.bits.toNat

/-- The magnitude of the two infinities; every magnitude above it is a NaN and
every one below it a finite number. -/
def infiniteMagnitude : Nat := 2047 * binadeWeight

/-- Not a number. -/
def isNaN (x : Binary64) : Bool := infiniteMagnitude < x.magnitude

/-- Neither infinite nor NaN. -/
def isFinite (x : Binary64) : Bool := x.magnitude < infiniteMagnitude

/-- Assemble a pattern from its sign and its magnitude. -/
def ofMagnitude (negative : Bool) (magnitude : Nat) : Binary64 :=
  ⟨UInt64.ofNat (magnitude + if negative then signWeight else 0)⟩

/-- The whole number `m` of a magnitude that stands for `m · 2 ^ exponentOf`. -/
def significandOf (magnitude : Nat) : Nat :=
  if magnitude / binadeWeight = 0 then magnitude else magnitude % binadeWeight + binadeWeight

/-- The power of two that scales the significand of a magnitude. -/
def exponentOf (magnitude : Nat) : Int :=
  if magnitude / binadeWeight = 0 then -1074 else (magnitude / binadeWeight : Nat) - 1075

/-- The absolute value of a finite number as an exact quotient. -/
def ratio (x : Binary64) : Nat × Nat :=
  let e := exponentOf x.magnitude
  if 0 ≤ e then (significandOf x.magnitude * Nat.pow 2 e.toNat, 1)
  else (significandOf x.magnitude, Nat.pow 2 (-e).toNat)

/-- Positive zero. -/
def zero : Binary64 := ofMagnitude false 0

/-- Positive infinity. -/
def infinity : Binary64 := ofMagnitude false infiniteMagnitude

/-- The NaN that arithmetic produces. -/
def nan : Binary64 := ofMagnitude false (infiniteMagnitude + binadeWeight / 2)

/-- The same number with the other sign. -/
def neg (x : Binary64) : Binary64 := ofMagnitude (!x.negative) x.magnitude

/-! ## Rounding -/

/-- The largest `k` with `2 ^ k ≤ num / den`, for a positive quotient. -/
def floorLog2 (num den : Nat) : Int :=
  let k : Int := (num.log2 : Int) - den.log2
  let reached := if 0 ≤ k then den * Nat.pow 2 k.toNat ≤ num else den ≤ num * Nat.pow 2 (-k).toNat
  if reached then k else k - 1

/-- The magnitude of the double nearest to `num / den`, a tie going to the even
significand.  A carry out of the significand lands in the next binade by itself,
since `(exponent + 1074) · binadeWeight + significand` is the magnitude in both. -/
def nearest (num den : Nat) : Nat :=
  if num = 0 then 0
  else
    let e : Int := max (floorLog2 num den - 52) (-1074)
    let significand :=
      if 0 ≤ e then Tie.toEven.round num (den * Nat.pow 2 e.toNat)
      else Tie.toEven.round (num * Nat.pow 2 (-e).toNat) den
    min ((e + 1074).toNat * binadeWeight + significand) infiniteMagnitude

/-- The double nearest to `± num / den`. -/
def ofRatio (negative : Bool) (num den : Nat) : Binary64 :=
  ofMagnitude negative (nearest num den)

/-- The double nearest to a whole number. -/
def ofInt (n : Int) : Binary64 := ofRatio (n < 0) n.natAbs 1

/-- The double nearest to `± digits · 10 ^ exponent`.  The two outer cases answer
for exponents so far out that the result is certain, without forming the power. -/
def ofDecimal (negative : Bool) (digits : Nat) (exponent : Int) : Binary64 :=
  if digits = 0 then ofMagnitude negative 0
  else if 310 < exponent then ofMagnitude negative infiniteMagnitude
  else if 0 ≤ exponent then ofRatio negative (digits * Nat.pow 10 exponent.toNat) 1
  else if (digits.log2 : Int) + 1 + 3 * exponent < -1080 then ofMagnitude negative 0
  else ofRatio negative digits (Nat.pow 10 (-exponent).toNat)

/-! ## Order and whole values -/

/-- A whole number that orders the numbers other than NaN: the magnitude, signed. -/
def rank (x : Binary64) : Int := if x.negative then -(x.magnitude : Int) else x.magnitude

/-- The order of two numbers; none if either is NaN.  The two zeros are equal. -/
def compare? (x y : Binary64) : Option Ordering :=
  if x.isNaN || y.isNaN then none else some (compare x.rank y.rank)

/-- The exact value, if it is a whole number. -/
def toInt? (x : Binary64) : Option Int :=
  if x.isFinite then
    let (num, den) := x.ratio
    if num % den = 0 then
      some (if x.negative then -((num / den : Nat) : Int) else ((num / den : Nat) : Int))
    else none
  else none

end Binary64

end Rulebook
