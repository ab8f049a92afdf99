/-
  Json/Raw.lean --- reading JSON text.

  Reading has two steps.  `Raw.ofText?` follows the grammar and keeps everything as
  written: all members of an object, also repeated ones, and the digits of numbers.
  `Raw.toJson?` then gives the value, and refuses what the grammar allows but no
  value has: a number too large for a double, an escape that is half of a surrogate
  pair, and containers nested too deeply.  So a part of a text that nobody asks for
  is held to the grammar alone.
-/
import Rulebook.Json.Basic
import Rulebook.Number.Decimal

set_option autoImplicit false

namespace Rulebook.Json

/-! ## Numbers as written -/

/-- A number by its digits. -/
structure NumberText where
  /-- Whether a minus sign stands before it. -/
  negative : Bool
  /-- The digits before the point. -/
  whole : List Char
  /-- The digits after the point. -/
  fraction : List Char
  /-- The exponent part, if there is one: its sign and its digits. -/
  exponent : Option (Bool × List Char)

namespace NumberText

/-- The digits before the point as `digits · 10 ^ exponent`.  From the first digit
on that would not fit into 64 bits, digits only raise the exponent. -/
def takeWhole (digits : List Char) : Nat × Int :=
  let (n, e, _) := digits.foldl
    (fun (n, e, full) c =>
      let next := 10 * n + (c.toNat - '0'.toNat)
      if full || UInt64.size ≤ next then (n, e + 1, true) else (next, e, false))
    ((0 : Nat), (0 : Int), false)
  (n, e)

/-- The digits after the point added to those before it.  From the first digit on
that would not fit into 64 bits, digits are dropped. -/
def takeFraction (start : Nat × Int) (digits : List Char) : Nat × Int :=
  let (n, e, _) := digits.foldl
    (fun (n, e, full) c =>
      let next := 10 * n + (c.toNat - '0'.toNat)
      if full || UInt64.size ≤ next then (n, e, true) else (next, e - 1, false))
    (start.1, start.2, false)
  (n, e)

/-- The double nearest to the exact product or quotient of two finite ones. -/
def scaled (x power : Binary64) (up : Bool) : Binary64 :=
  let (a, b) := x.ratio
  let (c, d) := power.ratio
  if up then .ofRatio false (a * c) (b * d) else .ofRatio false (a * d) (b * c)

/-- The double nearest to a power of ten. -/
def power (k : Nat) : Binary64 := .ofDecimal false 1 k

/-- Divide by powers of ten of at most `10 ^ 308`, rounding after each. -/
def scaleDown : Nat → Binary64 → Nat → Binary64
  | 0, x, k => scaled x (power k) false
  | fuel + 1, x, k =>
    if k ≤ 308 then scaled x (power k) false
    else if x = .zero then x
    else scaleDown fuel (scaled x (power 308) false) (k - 308)

/-- The digits rounded to a double, then scaled by the double nearest to the power
of ten; none if that is past the largest double.  Three divisions take any digits
to zero, so the fuel is never used up. -/
def float? (digits : Nat) (exponent : Int) : Option Binary64 :=
  let x := Binary64.ofRatio false digits 1
  if exponent < 0 then some (scaleDown 4 x (min (-exponent).toNat 1300))
  else if digits = 0 then some x
  else if 308 < exponent then none
  else
    let y := scaled x (power exponent.toNat) true
    if y.isFinite then some y else none

/-- The number; none if it is past the largest double.  A text without point and
exponent is a whole number if it lies in one of the 64-bit ranges.  Minus zero is
a double. -/
def value? (n : NumberText) : Option JsonNumber :=
  let whole := takeWhole n.whole
  let sign (x : Binary64) : JsonNumber := .float (if n.negative then x.neg else x)
  match n.fraction, n.exponent with
  | [], none =>
    if whole.2 = 0 && !n.negative then some (.int whole.1)
    else if whole.2 = 0 && 0 < whole.1 && Int64.minValue.toInt ≤ -whole.1 then
      some (.int (-whole.1))
    else (float? whole.1 whole.2).map sign
  | fraction, exponent =>
    let digits := takeFraction whole fraction
    let shift : Int := match exponent with
      | none => 0
      | some (negative, ds) =>
        if negative then -(Decimal.digitsValue ds : Int) else Decimal.digitsValue ds
    (float? digits.1 (digits.2 + shift)).map sign

end NumberText

/-! ## Strings as written -/

/-- A piece of a string: a character, or a UTF-16 unit given by an escape. -/
inductive StringPiece
  | char (c : Char)
  | unit (n : Nat)

/-- Whether a unit is the first half of a surrogate pair. -/
def isHighSurrogate (n : Nat) : Bool := 0xD800 ≤ n && n ≤ 0xDBFF

/-- Whether a unit is the second half of a surrogate pair. -/
def isLowSurrogate (n : Nat) : Bool := 0xDC00 ≤ n && n ≤ 0xDFFF

/-- The characters of a string; none if half of a surrogate pair stands alone. -/
def pairUnits? : List StringPiece → Option (List Char)
  | [] => some []
  | .char c :: rest => (pairUnits? rest).map (c :: ·)
  | .unit h :: rest =>
    if isLowSurrogate h then none
    else if isHighSurrogate h then
      match rest with
      | .unit l :: rest =>
        if isLowSurrogate l then
          (pairUnits? rest).map (Char.ofNat (0x10000 + (h - 0xD800) * 0x400 + (l - 0xDC00)) :: ·)
        else none
      | _ => none
    else (pairUnits? rest).map (Char.ofNat h :: ·)

/-- The value of a hexadecimal digit. -/
def hexValue? (c : Char) : Option Nat :=
  if c.isDigit then some (c.toNat - '0'.toNat)
  else if 'a' ≤ c && c ≤ 'f' then some (c.toNat - 'a'.toNat + 10)
  else if 'A' ≤ c && c ≤ 'F' then some (c.toNat - 'A'.toNat + 10)
  else none

/-- The value of four hexadecimal digits. -/
def hexQuad? (a b c d : Char) : Option Nat := do
  let a ← hexValue? a
  let b ← hexValue? b
  let c ← hexValue? c
  let d ← hexValue? d
  return ((a * 16 + b) * 16 + c) * 16 + d

/-- The character that a one-letter escape stands for. -/
def shortEscape? : Char → Option Char
  | '\"' => some '\"'
  | '\\' => some '\\'
  | '/' => some '/'
  | 'b' => some '\x08'
  | 'f' => some '\x0c'
  | 'n' => some '\n'
  | 'r' => some '\r'
  | 't' => some '\t'
  | _ => none

/-- The pieces of a string up to its closing quotation mark, and what follows. -/
def pieces? : List Char → List StringPiece → Option (List StringPiece × List Char)
  | [], _ => none
  | '\"' :: r, acc => some (acc.reverse, r)
  | '\\' :: 'u' :: a :: b :: c :: d :: r, acc =>
    match hexQuad? a b c d with
    | some n => pieces? r (.unit n :: acc)
    | none => none
  | '\\' :: c :: r, acc =>
    match shortEscape? c with
    | some e => pieces? r (.char e :: acc)
    | none => none
  | c :: r, acc => if c.toNat < 0x20 || c = '\\' then none else pieces? r (.char c :: acc)

/-! ## Values as written -/

/-- A JSON text by its grammar.  A string is none if half of a surrogate pair
stands alone in it. -/
inductive Raw
  | null
  | bool (b : Bool)
  | number (n : NumberText)
  | string (s : Option String)
  | array (items : List Raw)
  | object (members : List (Option String × Raw))

namespace Raw

instance : Inhabited Raw := ⟨.null⟩

/-- A step of reading: what was read and what is left. -/
abbrev Step (α : Type) := List Char → Option (α × List Char)

/-- The text after the blanks at its front. -/
def skipBlanks (s : List Char) : List Char :=
  s.dropWhile fun c => c = ' ' || c = '\n' || c = '\t' || c = '\r'

/-- Read the rest of a string after its opening quotation mark. -/
def string? : Step (Option String) := fun s =>
  (pieces? s []).map fun (pieces, r) => ((pairUnits? pieces).map String.ofList, r)

/-- Read a fraction: nothing, or a point and at least one digit. -/
def fraction? : Step (List Char)
  | '.' :: r =>
    let digits := r.takeWhile Char.isDigit
    if digits.isEmpty then none else some (digits, r.dropWhile Char.isDigit)
  | s => some ([], s)

/-- Read an exponent part: nothing, or its letter, a sign or none, and at least
one digit. -/
def exponent? : Step (Option (Bool × List Char))
  | c :: r =>
    if c = 'e' || c = 'E' then
      let (negative, r) := Decimal.splitSign r
      let digits := r.takeWhile Char.isDigit
      if digits.isEmpty then none else some (some (negative, digits), r.dropWhile Char.isDigit)
    else some (none, c :: r)
  | [] => some (none, [])

/-- Read a number.  Only a lone zero may begin with the digit zero. -/
def number? : Step NumberText := fun s =>
  let (negative, s) := match s with
    | '-' :: r => (true, r)
    | s => (false, s)
  let whole := s.takeWhile Char.isDigit
  if whole.isEmpty || (whole.head? == some '0' && whole.length ≠ 1) then none
  else do
    let (fraction, s) ← fraction? (s.dropWhile Char.isDigit)
    let (exponent, s) ← exponent? s
    return ({ negative, whole, fraction, exponent }, s)

/-- Read items up to a closing character, the first of them at once and each other
one after a comma. -/
def items? {α : Type} (item : Step α) (close : Char) (s : List Char) :
    Option (List α × List Char) :=
  match item s with
  | none => none
  | some (a, r) =>
    match skipBlanks r with
    | [] => none
    | c :: r' =>
      if c = close then some ([a], r')
      else if c = ',' then
        if r'.length < s.length then (items? item close r').map fun (as, t) => (a :: as, t)
        else none
      else none
termination_by s.length

/-- Read a container after its opening character. -/
def container? {α : Type} (item : Step α) (close : Char) : Step (List α) := fun s =>
  match skipBlanks s with
  | [] => none
  | c :: r => if c = close then some ([], r) else items? item close (c :: r)

/-- Read a member of an object: a key, a colon and a value. -/
def member? (value : Step Raw) : Step (Option String × Raw) := fun s =>
  match skipBlanks s with
  | '\"' :: r =>
    match string? r with
    | none => none
    | some (key, r) =>
      match skipBlanks r with
      | ':' :: r => (value r).map fun (v, t) => ((key, v), t)
      | _ => none
  | _ => none

/-- Read a value.  A nested value is read from what is left, which is shorter. -/
def value? (s : List Char) : Option (Raw × List Char) :=
  let nested : Step Raw := fun r => if r.length < s.length then value? r else none
  match skipBlanks s with
  | 'n' :: 'u' :: 'l' :: 'l' :: r => some (.null, r)
  | 't' :: 'r' :: 'u' :: 'e' :: r => some (.bool true, r)
  | 'f' :: 'a' :: 'l' :: 's' :: 'e' :: r => some (.bool false, r)
  | '\"' :: r => (string? r).map fun (s, t) => (.string s, t)
  | '[' :: r => (container? nested ']' r).map fun (items, t) => (.array items, t)
  | '\x7b' :: r => (container? (member? nested) '\x7d' r).map fun (ms, t) => (.object ms, t)
  | r => (number? r).map fun (n, t) => (.number n, t)
termination_by s.length

/-- Read a text that is one value and nothing else. -/
def ofText? (s : String) : Option Raw :=
  match value? s.toList with
  | some (v, r) => if (skipBlanks r).isEmpty then some v else none
  | none => none

/-! ## Values -/

/-- How deeply containers may be nested. -/
def maxDepth : Nat := 127

mutual

/-- The value of a text whose containers are nested at most `depth` deep. -/
def toJson? (depth : Nat) : Raw → Option Json
  | .null => some .null
  | .bool b => some (.bool b)
  | .number n => n.value?.map .number
  | .string s => s.map .string
  | .array items => if depth = 0 then none else (itemsToJson? (depth - 1) items).map .array
  | .object members =>
    if depth = 0 then none
    else (membersToJson? (depth - 1) members).map fun ms => .object (Table.ofEntries ms)

/-- The values of the items of an array. -/
def itemsToJson? (depth : Nat) : List Raw → Option (List Json)
  | [] => some []
  | v :: rest => do return (← toJson? depth v) :: (← itemsToJson? depth rest)

/-- The members of an object as written. -/
def membersToJson? (depth : Nat) : List (Option String × Raw) → Option (List (String × Json))
  | [] => some []
  | (k, v) :: rest => do return (← k, ← toJson? depth v) :: (← membersToJson? depth rest)

end

end Raw

/-- The value of a JSON text.  Of a repeated key the first place and the last value
count. -/
def ofText? (s : String) : Option Json := (Raw.ofText? s).bind (Raw.toJson? Raw.maxDepth)

end Rulebook.Json
