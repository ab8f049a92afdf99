/-
  Number/Shortest.lean --- the shortest decimal text of a double.

  `Binary64.shortest` finds the fewest decimal digits that read back as the same
  number, and of those the decimal nearest to it.  The search is on the grids of
  multiples of a power of ten, coarsest first: if a point of a grid reads back as
  the number, so does one of the two grid points beside the number, so only
  those two are tried.  A number halfway between the two has no nearest decimal:
  `1125899906842624.25` is as far from `….2` as from `….3`.  Which is taken then,
  and how the digits are written, is for a `DecimalLayout` to decide.
-/
import Rulebook.Number.Binary64

set_option autoImplicit false

namespace Rulebook

namespace Binary64

/-- A decimal number, `digits · 10 ^ exponent`. -/
structure Digits where
  /-- The digits, without a zero at the end. -/
  digits : Nat
  /-- The power of ten of the last digit. -/
  exponent : Int
deriving DecidableEq, Repr

/-- The reals that round to a double, as numerators over one denominator: the
number itself, the two ends, and whether the ends belong to it. -/
structure Interval where
  /-- The number. -/
  value : Nat
  /-- The midpoint to the double below. -/
  lower : Nat
  /-- The midpoint to the double above. -/
  upper : Nat
  /-- The common denominator. -/
  den : Nat
  /-- Whether the ends round to the number: a tie goes to the even significand. -/
  closed : Bool

/-- The interval of a magnitude.  Below a power of two the doubles lie twice as
dense, so the lower end is nearer there. -/
def interval (magnitude : Nat) : Interval :=
  let m := significandOf magnitude
  let e := exponentOf magnitude - 2
  let below := if m = binadeWeight && 2 * binadeWeight ≤ magnitude then 1 else 2
  let scale := if 0 ≤ e then Nat.pow 2 e.toNat else 1
  { value := 4 * m * scale
    lower := (4 * m - below) * scale
    upper := (4 * m + 2) * scale
    den := if 0 ≤ e then 1 else Nat.pow 2 (-e).toNat
    closed := m % 2 == 0 }

/-- Whether `num / den` is at least `10 ^ k`. -/
def reachesPower (num den : Nat) (k : Int) : Bool :=
  if 0 ≤ k then den * Nat.pow 10 k.toNat ≤ num else den ≤ num * Nat.pow 10 (-k).toNat

/-- The largest `k` with `10 ^ k ≤ num / den`, for a positive quotient.  The binary
logarithm gives it up to one, and the comparison settles which. -/
def floorLog10 (num den : Nat) : Int :=
  let guess := floorLog2 num den * 30103 / 100000
  if reachesPower num den (guess + 1) then guess + 1
  else if reachesPower num den guess then guess
  else guess - 1

/-- The multiple of `10 ^ k` that lies in the interval and is nearest to its
number, if one of the two beside the number does; if both do, they may be equally
near. -/
def Interval.onGrid? (i : Interval) (tie : Tie) (k : Int) : Option Nat :=
  let up := if 0 ≤ k then 1 else Nat.pow 10 (-k).toNat
  let unit := i.den * if 0 ≤ k then Nat.pow 10 k.toNat else 1
  let value := i.value * up
  let inside (c : Nat) : Bool :=
    if i.closed then i.lower * up ≤ c * unit && c * unit ≤ i.upper * up
    else i.lower * up < c * unit && c * unit < i.upper * up
  let c := value / unit
  match inside c, inside (c + 1) with
  | true, true => some (tie.round value unit)
  | true, false => some c
  | false, true => some (c + 1)
  | false, false => none

/-- Drop the zeros at the end of the digits, at most `fuel` of them. -/
def trimZeros : Nat → Nat → Int → Digits
  | 0, n, e => ⟨n, e⟩
  | fuel + 1, n, e => if n ≠ 0 && n % 10 == 0 then trimZeros fuel (n / 10) (e + 1) else ⟨n, e⟩

/-- The first grid that reads back, trying `fuel` of them from `10 ^ k` downwards. -/
def Interval.search (i : Interval) (tie : Tie) : Nat → Int → Digits
  | 0, k => ⟨i.value / i.den, k⟩
  | fuel + 1, k =>
    match i.onGrid? tie k with
    | some c => trimZeros 20 c k
    | none => i.search tie fuel (k - 1)

/-- The fewest digits that read back as the finite number, and of those the
nearest, which of two equally near ones as `tie` says.  Seventeen digits always
do. -/
def shortest (x : Binary64) (tie : Tie) : Digits :=
  if x.magnitude = 0 then ⟨0, 0⟩
  else
    let i := interval x.magnitude
    i.search tie 18 (floorLog10 i.value i.den)

end Binary64

/-! ## Writing the digits -/

/-- How a number is written. -/
structure DecimalLayout where
  /-- Which of two equally near decimals with the fewest digits is written. -/
  tie : Tie
  /-- The powers of ten of a leading digit that are written without an exponent;
  none if every number is. -/
  positional : Option (Int × Int)
  /-- What a whole number written without an exponent ends in. -/
  wholeEnd : String
  /-- The sign of an exponent that is not negative. -/
  exponentSign : String
  /-- The texts of NaN and of infinity. -/
  nan : String
  infinity : String

namespace DecimalLayout

/-- As many zeros. -/
def zeros (n : Nat) : String := String.ofList (List.replicate n '0')

/-- The digits around a decimal point. -/
def positionalText (layout : DecimalLayout) (digits : String) (exponent : Int) : String :=
  if 0 ≤ exponent then digits ++ zeros exponent.toNat ++ layout.wholeEnd
  else
    let places := (-exponent).toNat
    let count := digits.length
    if places < count then
      (digits.take (count - places)).toString ++ "." ++ (digits.drop (count - places)).toString
    else "0." ++ zeros (places - count) ++ digits

/-- One digit before the point, the others after it, and the exponent. -/
def scientificText (layout : DecimalLayout) (digits : String) (lead : Int) : String :=
  let mantissa :=
    if digits.length ≤ 1 then digits
    else (digits.take 1).toString ++ "." ++ (digits.drop 1).toString
  mantissa ++ "e" ++ (if 0 ≤ lead then layout.exponentSign else "") ++ toString lead

/-- The text of a number. -/
def text (layout : DecimalLayout) (x : Binary64) : String :=
  if x.isNaN then layout.nan
  else
    (if x.negative then "-" else "") ++
    if !x.isFinite then layout.infinity
    else
      let d := x.shortest layout.tie
      let digits := toString d.digits
      let lead := d.exponent + digits.length - 1
      let plain := match layout.positional with
        | none => true
        | some (low, high) => d.digits == 0 || (low ≤ lead && lead ≤ high)
      if plain then layout.positionalText digits d.exponent
      else layout.scientificText digits lead

end DecimalLayout

end Rulebook
