/-
  Json/Basic.lean --- JSON values.

  Objects keep the order of their members.  A number remembers whether it was a
  whole number or a double, since `30` and `30.0` are written differently.
-/
import Rulebook.Number.Shortest
import Rulebook.Table

set_option autoImplicit false

namespace Rulebook

/-- A JSON number: a whole number of the 64-bit ranges, or a double. -/
inductive JsonNumber
  | int (n : Int)
  | float (x : Binary64)
deriving DecidableEq, Repr

/-- A JSON value. -/
inductive Json
  | null
  | bool (b : Bool)
  | number (n : JsonNumber)
  | string (s : String)
  | array (items : List Json)
  | object (members : List (String × Json))

instance : Inhabited Json := ⟨.null⟩

namespace Json

/-- An object by its members. -/
abbrev Members := Table String Json

/-- The name of the kind of a value. -/
def kind : Json → String
  | .null => "null"
  | .bool _ => "bool"
  | .number _ => "number"
  | .string _ => "string"
  | .array _ => "array"
  | .object _ => "object"

/-! ## Equality -/

mutual

/-- Whether two values are the same, member order included. -/
def same : Json → Json → Bool
  | .null, .null => true
  | .bool a, .bool b => a == b
  | .number a, .number b => decide (a = b)
  | .string a, .string b => a == b
  | .array a, .array b => sameItems a b
  | .object a, .object b => sameMembers a b
  | _, _ => false

/-- Whether two lists of values are the same. -/
def sameItems : List Json → List Json → Bool
  | [], [] => true
  | a :: as, b :: bs => same a b && sameItems as bs
  | _, _ => false

/-- Whether two lists of members are the same. -/
def sameMembers : List (String × Json) → List (String × Json) → Bool
  | [], [] => true
  | (k, a) :: as, (l, b) :: bs => k == l && same a b && sameMembers as bs
  | _, _ => false

end

mutual

theorem same_iff : ∀ a b : Json, same a b = true ↔ a = b
  | .null, b => by cases b <;> simp [same]
  | .bool x, b => by cases b <;> simp [same]
  | .number x, b => by cases b <;> simp [same]
  | .string x, b => by cases b <;> simp [same]
  | .array x, b => by cases b <;> simp [same, sameItems_iff x]
  | .object x, b => by cases b <;> simp [same, sameMembers_iff x]

theorem sameItems_iff : ∀ a b : List Json, sameItems a b = true ↔ a = b
  | [], b => by cases b <;> simp [sameItems]
  | x :: xs, b => by cases b <;> simp [sameItems, same_iff x, sameItems_iff xs]

theorem sameMembers_iff : ∀ a b : List (String × Json), sameMembers a b = true ↔ a = b
  | [], b => by cases b <;> simp [sameMembers]
  | (k, x) :: xs, b => by
    cases b with
    | nil => simp [sameMembers]
    | cons entry rest =>
      obtain ⟨l, y⟩ := entry
      simp [sameMembers, same_iff x, sameMembers_iff xs, Prod.ext_iff]

end

instance : DecidableEq Json := fun a b => decidable_of_iff _ (same_iff a b)

/-! ## Compact text -/

/-- Doubles in JSON: whole numbers keep a zero behind the point, and the exponent
appears below `1e-5` and from `1e16` on.  Of two equally near decimals the one with
the even last digit is written.  What is not finite has no JSON number and is
written `null`. -/
def numberLayout : DecimalLayout where
  tie := .toEven
  positional := some (-5, 15)
  wholeEnd := ".0"
  exponentSign := "+"
  nan := "null"
  infinity := "null"

/-- The text of a number. -/
def numberText : JsonNumber → String
  | .int n => toString n
  | .float x => if x.isFinite then numberLayout.text x else "null"

/-- Two hexadecimal digits. -/
def hexPair (n : Nat) : List Char := [Nat.digitChar (n / 16), Nat.digitChar (n % 16)]

/-- How a character stands in a JSON string: the quotation mark, the backslash and
the control characters below the space are escaped. -/
def escapeChar (c : Char) : List Char :=
  if c = '\"' then ['\\', '\"']
  else if c = '\\' then ['\\', '\\']
  else if c = '\x08' then ['\\', 'b']
  else if c = '\x0c' then ['\\', 'f']
  else if c = '\n' then ['\\', 'n']
  else if c = '\r' then ['\\', 'r']
  else if c = '\t' then ['\\', 't']
  else if c.toNat < 0x20 then ['\\', 'u', '0', '0'] ++ hexPair c.toNat
  else [c]

/-- The text of a string. -/
def stringText (s : String) : String :=
  String.ofList ('\"' :: s.toList.flatMap escapeChar ++ ['\"'])

mutual

/-- The compact text of a value. -/
def text : Json → String
  | .null => "null"
  | .bool b => if b then "true" else "false"
  | .number n => numberText n
  | .string s => stringText s
  | .array items => "[" ++ ",".intercalate (itemTexts items) ++ "]"
  | .object members => "\x7b" ++ ",".intercalate (memberTexts members) ++ "\x7d"

/-- The texts of the items of an array. -/
def itemTexts : List Json → List String
  | [] => []
  | v :: rest => text v :: itemTexts rest

/-- The texts of the members of an object. -/
def memberTexts : List (String × Json) → List String
  | [] => []
  | (k, v) :: rest => (stringText k ++ ":" ++ text v) :: memberTexts rest

end

/-- The value of a member of an object; none for any other value. -/
def member? : Json → String → Option Json
  | .object members, k => Table.get? members k
  | _, _ => none

end Json

end Rulebook
