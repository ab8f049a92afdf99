/-
  Value.lean --- the scalar values of facts and conditions.

  Two values are comparable if both are numbers, both are Booleans or both are
  texts.  A whole number meets a double as the double nearest to it.
-/
import Rulebook.Json.Basic

set_option autoImplicit false

namespace Rulebook

/-- A scalar value. -/
inductive Value
  | int (n : Int64)
  | float (x : Binary64)
  | bool (b : Bool)
  | string (s : String)
deriving DecidableEq, Repr, Inhabited

/-- A relation that a comparison asks for. -/
inductive Comparator
  | equal
  | different
  | greater
  | greaterOrEqual
  | less
  | lessOrEqual
deriving DecidableEq, Repr, Inhabited

namespace Comparator

/-- All relations. -/
def all : List Comparator :=
  [.equal, .different, .greater, .greaterOrEqual, .less, .lessOrEqual]

/-- How the relation is written. -/
def text : Comparator → String
  | .equal => "=="
  | .different => "!="
  | .greater => ">"
  | .greaterOrEqual => ">="
  | .less => "<"
  | .lessOrEqual => "<="

/-- Whether the relation holds of two values that stand in an order. -/
def holds : Comparator → Ordering → Bool
  | .equal, o => o == .eq
  | .different, o => o != .eq
  | .greater, o => o == .gt
  | .greaterOrEqual, o => o != .lt
  | .less, o => o == .lt
  | .lessOrEqual, o => o != .gt

end Comparator

namespace Value

/-- The name of the type of a value. -/
def typeName : Value → String
  | .int _ => "int"
  | .float _ => "float"
  | .bool _ => "bool"
  | .string _ => "string"

/-- Doubles as values: never with an exponent, and whole numbers without a point.
Of two equally near decimals the one further from zero is written. -/
def floatLayout : DecimalLayout where
  tie := .awayFromZero
  positional := none
  wholeEnd := ""
  exponentSign := ""
  nan := "NaN"
  infinity := "inf"

/-- The text of a value.  A text stands between quotation marks as it is. -/
def text : Value → String
  | .int n => toString n.toInt
  | .float x => floatLayout.text x
  | .bool b => if b then "true" else "false"
  | .string s => "\"" ++ s ++ "\""

/-! ## Order -/

/-- The double nearest to a 64-bit whole number. -/
def widen (n : Int64) : Binary64 := .ofInt n.toInt

/-- The order of two values; none if they are not comparable. -/
def order? : Value → Value → Option Ordering
  | .int a, .int b => some (compare a.toInt b.toInt)
  | .float a, .float b => a.compare? b
  | .int a, .float b => (widen a).compare? b
  | .float a, .int b => a.compare? (widen b)
  | .bool a, .bool b => some (compare a b)
  | .string a, .string b => some (compare a b)
  | _, _ => none

/-- Whether a relation holds of two values; none if they are not comparable. -/
def compare? (op : Comparator) (a b : Value) : Option Bool := (a.order? b).map op.holds

/-- Whether two values are of one type and equal; a NaN equals nothing. -/
def equals (a b : Value) : Bool := a.typeName == b.typeName && a.compare? .equal b == some true

/-! ## JSON -/

/-- The value as JSON; a double that is not finite has no number there. -/
def toJson : Value → Json
  | .int n => .number (.int n.toInt)
  | .float x => if x.isFinite then .number (.float x) else .null
  | .bool b => .bool b
  | .string s => .string s

/-- A whole number as a 64-bit value, if it is one. -/
def int64? (n : Int) : Option Int64 :=
  if Int64.minValue.toInt ≤ n && n ≤ Int64.maxValue.toInt then some (Int64.ofInt n) else none

/-- The value of a JSON number.  A whole number past the signed 64-bit range is
taken as a double. -/
def ofJsonNumber : JsonNumber → Value
  | .int n => match int64? n with
    | some i => .int i
    | none => .float (.ofInt n)
  | .float x => .float x

/-- The value of a JSON scalar; none for null and the containers. -/
def ofJson? : Json → Option Value
  | .bool b => some (.bool b)
  | .number n => some (ofJsonNumber n)
  | .string s => some (.string s)
  | _ => none

end Value

end Rulebook
