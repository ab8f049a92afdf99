/-
  Number/Decimal.lean --- numbers written in decimal.

  A numeral is a sign, a whole number of digits and a power of ten.  `Numeral.ofChars?`
  reads `[+-] digits [. digits] [e [+-] digits]`, where one of the two digit runs
  may be empty; the double it denotes is the nearest one.
-/
import Rulebook.Number.Binary64

set_option autoImplicit false

namespace Rulebook

/-- A decimal number: `± digits · 10 ^ exponent`. -/
structure Numeral where
  /-- Whether a minus sign stands before it. -/
  negative : Bool
  /-- All digits, those after the point included. -/
  digits : Nat
  /-- The power of ten that scales the digits. -/
  exponent : Int
deriving DecidableEq, Repr

namespace Decimal

/-- The value of a run of decimal digits. -/
def digitsValue (cs : List Char) : Nat :=
  cs.foldl (fun n c => 10 * n + (c.toNat - '0'.toNat)) 0

/-- An optional sign and what follows it. -/
def splitSign : List Char → Bool × List Char
  | '-' :: r => (true, r)
  | '+' :: r => (false, r)
  | r => (false, r)

/-- A whole number with an optional sign, and nothing else. -/
def int? (cs : List Char) : Option Int :=
  let (negative, digits) := splitSign cs
  if digits.isEmpty || !digits.all Char.isDigit then none
  else some (if negative then -(digitsValue digits : Int) else digitsValue digits)

end Decimal

namespace Numeral

open Decimal

/-- The exponent part at the end of a numeral; no text at all stands for zero. -/
def exponentPart? : List Char → Option Int
  | [] => some 0
  | c :: r => if c = 'e' || c = 'E' then int? r else none

/-- Read a numeral that is the whole text. -/
def ofChars? (cs : List Char) : Option Numeral :=
  let (negative, unsigned) := splitSign cs
  let whole := unsigned.takeWhile Char.isDigit
  let afterWhole := unsigned.dropWhile Char.isDigit
  let (fraction, rest) := match afterWhole with
    | '.' :: r => (r.takeWhile Char.isDigit, r.dropWhile Char.isDigit)
    | r => ([], r)
  if whole.isEmpty && fraction.isEmpty then none
  else
    (exponentPart? rest).map fun e =>
      { negative := negative
        digits := digitsValue (whole ++ fraction)
        exponent := e - fraction.length }

/-- The nearest double. -/
def toBinary64 (n : Numeral) : Binary64 := .ofDecimal n.negative n.digits n.exponent

end Numeral

end Rulebook
