/-
  Timestamp.lean --- points in time and their RFC 3339 texts.

  A point in time counts seconds in UTC.  A leap second is the second before it with
  more than a thousand million nanoseconds.  Reading is generous with blanks and
  digits; writing always uses UTC and three digits of a fraction at a time.
-/
import Rulebook.Number.Decimal
import Rulebook.Text.Blank

set_option autoImplicit false

namespace Rulebook

/-- A point in time. -/
structure Timestamp where
  /-- The seconds since the start of the year 1970 in UTC. -/
  seconds : Int
  /-- The nanoseconds; a thousand million more in a leap second. -/
  nanos : Nat
deriving DecidableEq, Repr, Inhabited

namespace Timestamp

/-! ## The calendar -/

/-- Whether a year has a 29th of February. -/
def isLeapYear (y : Int) : Bool := y % 4 == 0 && (y % 100 != 0 || y % 400 == 0)

/-- The number of days of a month. -/
def daysInMonth (y : Int) (m : Nat) : Nat :=
  if m = 2 then (if isLeapYear y then 29 else 28)
  else if m = 4 || m = 6 || m = 9 || m = 11 then 30 else 31

/-- The number of days from the start of 1970 to a date.  Years are counted from
March, so that the leap day is the last of its year. -/
def daysOfDate (y : Int) (m d : Nat) : Int :=
  let y := if m ≤ 2 then y - 1 else y
  let era := y.fdiv 400
  let yearOfEra := y - era * 400
  let monthFromMarch : Nat := (m + 9) % 12
  let dayOfYear : Int := ((153 * monthFromMarch + 2) / 5 + d - 1 : Nat)
  let dayOfEra := yearOfEra * 365 + yearOfEra.fdiv 4 - yearOfEra.fdiv 100 + dayOfYear
  era * 146097 + dayOfEra - 719468

/-- The date of a number of days since the start of 1970: year, month and day. -/
def dateOfDays (days : Int) : Int × Nat × Nat :=
  let z := days + 719468
  let era := z.fdiv 146097
  let dayOfEra := (z - era * 146097).toNat
  let yearOfEra := (dayOfEra - dayOfEra / 1460 + dayOfEra / 36524 - dayOfEra / 146096) / 365
  let dayOfYear := dayOfEra - (365 * yearOfEra + yearOfEra / 4 - yearOfEra / 100)
  let monthFromMarch := (5 * dayOfYear + 2) / 153
  let d := dayOfYear - (153 * monthFromMarch + 2) / 5 + 1
  let m := if monthFromMarch < 10 then monthFromMarch + 3 else monthFromMarch - 9
  ((yearOfEra : Int) + era * 400 + (if m ≤ 2 then 1 else 0), m, d)

/-- The first and the last year. -/
def firstYear : Int := -262143
def lastYear : Int := 262142

/-! ## Writing -/

/-- A number with zeros in front up to a width. -/
def padded (width n : Nat) : String :=
  let digits := toString n
  String.ofList (List.replicate (width - digits.length) '0') ++ digits

/-- The text of a year: four digits, and a sign where four digits do not do. -/
def yearText (y : Int) : String :=
  if 0 ≤ y && y ≤ 9999 then padded 4 y.toNat
  else (if y < 0 then "-" else "+") ++ padded 4 y.natAbs

/-- The text of a fraction of a second: no, three, six or nine digits. -/
def fractionText (nanos : Nat) : String :=
  if nanos = 0 then ""
  else if nanos % 1000000 = 0 then "." ++ padded 3 (nanos / 1000000)
  else if nanos % 1000 = 0 then "." ++ padded 6 (nanos / 1000)
  else "." ++ padded 9 nanos

/-- The text of a point in time, in UTC. -/
def text (t : Timestamp) : String :=
  let days := t.seconds.fdiv 86400
  let second := (t.seconds - days * 86400).toNat
  let (y, m, d) := dateOfDays days
  let leap := t.nanos / 1000000000
  yearText y ++ "-" ++ padded 2 m ++ "-" ++ padded 2 d ++ "T"
    ++ padded 2 (second / 3600) ++ ":" ++ padded 2 (second / 60 % 60) ++ ":"
    ++ padded 2 (second % 60 + leap) ++ fractionText (t.nanos % 1000000000) ++ "Z"

/-! ## Reading -/

/-- The text without blanks at its front. -/
def skip (s : List Char) : List Char := s.dropWhile Text.isBlank

/-- Read a number of one digit at least and `width` at most. -/
def digits? (width : Nat) (s : List Char) : Option (Nat × List Char) :=
  let ds := (s.take width).takeWhile Char.isDigit
  if ds.isEmpty then none else some (Decimal.digitsValue ds, s.drop ds.length)

/-- Read a given character. -/
def char? (c : Char) : List Char → Option (List Char)
  | d :: r => if c = d then some r else none
  | [] => none

/-- Read a number of two digits at most that lies in a range, blanks before it. -/
def part? (low high : Nat) (s : List Char) : Option (Nat × List Char) := do
  let (n, s) ← digits? 2 (skip s)
  if low ≤ n && n ≤ high then some (n, s) else none

/-- Read a year: four digits at most, or a sign and any number of digits. -/
def year? (s : List Char) : Option (Int × List Char) :=
  match skip s with
  | '-' :: r => (digits? r.length r).map fun (n, s) => (-(n : Int), s)
  | '+' :: r => (digits? r.length r).map fun (n, s) => ((n : Int), s)
  | r => (digits? 4 r).map fun (n, s) => ((n : Int), s)

/-- Read a date. -/
def date? (s : List Char) : Option ((Int × Nat × Nat) × List Char) := do
  let (y, s) ← year? s
  let s ← char? '-' (skip s)
  let (m, s) ← part? 1 12 s
  let s ← char? '-' (skip s)
  let (d, s) ← part? 1 31 s
  if firstYear ≤ y && y ≤ lastYear && d ≤ daysInMonth y m then some ((y, m, d), s) else none

/-- Read a fraction of a second, if there is one, as nanoseconds; digits after the
ninth are dropped. -/
def fraction? : List Char → Option (Nat × List Char)
  | '.' :: r => do
    let (n, s) ← digits? 9 r
    let count := r.length - s.length
    return (n * Nat.pow 10 (9 - count), s.dropWhile Char.isDigit)
  | s => some (0, s)

/-- Read a time of day as seconds and nanoseconds.  Second 60 is a leap second. -/
def time? (s : List Char) : Option ((Nat × Nat) × List Char) := do
  let (h, s) ← part? 0 23 s
  let s ← char? ':' (skip s)
  let (m, s) ← part? 0 59 s
  let s ← char? ':' (skip s)
  let (sec, s) ← part? 0 60 s
  let (nanos, s) ← fraction? s
  let clock := h * 3600 + m * 60
  return (if sec = 60 then (clock + 59, nanos + 1000000000) else (clock + sec, nanos), skip s)

/-- Read two digits. -/
def pair? : List Char → Option (Nat × List Char)
  | a :: b :: r =>
    if a.isDigit && b.isDigit then some (Decimal.digitsValue [a, b], r) else none
  | _ => none

/-- Read the distance from UTC in seconds: `Z`, `UTC`, or a sign, hours and minutes. -/
def offset? (s : List Char) : Option (Int × List Char) :=
  if ((s.take 3).map Char.toUpper) = ['U', 'T', 'C'] then some (0, s.drop 3)
  else
    match s with
    | [] => none
    | c :: r =>
      if c = 'Z' || c = 'z' then some (0, r)
      else if c = '+' || c = '-' || c = '−' then do
        let (h, r) ← pair? r
        let (m, r) ← pair? (r.dropWhile fun c => c = ':' || Text.isBlank c)
        let seconds : Int := (h * 3600 + m * 60 : Nat)
        if m ≤ 59 && seconds < 86400 then some (if c = '+' then seconds else -seconds, r) else none
      else none

/-- The point in time that a text names. -/
def ofText? (text : String) : Option Timestamp := do
  let ((y, m, d), s) ← date? text.toList
  let s ← match s with
    | c :: r => if c = 'T' || c = 't' || c = ' ' then some r else none
    | [] => none
  let ((second, nanos), s) ← time? s
  let (offset, s) ← offset? s
  let seconds := daysOfDate y m d * 86400 + second - offset
  let (year, _, _) := dateOfDays (seconds.fdiv 86400)
  if (skip s).isEmpty && firstYear ≤ year && year ≤ lastYear then some ⟨seconds, nanos⟩ else none

end Timestamp

end Rulebook
