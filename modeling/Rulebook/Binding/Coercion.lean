/-
  Binding/Coercion.lean --- parameters as values of a declared type.

  Numbers and texts of numbers give numbers, if they are exact for a whole number
  and finite for a double; scalars give texts; the two words give Booleans.
-/
import Rulebook.Number.Decimal
import Rulebook.Shape.Basic
import Rulebook.Text.Blank
import Rulebook.Text.Quoted
import Rulebook.Value

set_option autoImplicit false

namespace Rulebook

/-- Why a parameter was not bound. -/
inductive BindProblem
  | nullValue
  | unknownType (name : String)
  | notAVariant (value : String) (variants : List String)
  | cannotConvert (kind : String) (type : FieldType)
deriving DecidableEq, Repr

/-- The message for a problem. -/
def BindProblem.message : BindProblem → String
  | .nullValue => "null value"
  | .unknownType name => "unknown type " ++ name
  | .notAVariant value variants =>
    Text.quoted value ++ " is not one of " ++ ", ".intercalate variants
  | .cannotConvert kind type => "cannot convert " ++ kind ++ " to " ++ type.text

namespace Coercion

/-- The double of a JSON number. -/
def numberToBinary64 : JsonNumber → Binary64
  | .int n => .ofInt n
  | .float x => x

/-- The double that a text writes. -/
def binary64OfChars? (cs : List Char) : Option Binary64 :=
  (Numeral.ofChars? cs).map Numeral.toBinary64

/-- A double that is a whole number of 64 bits, as such. -/
def integral? (x : Binary64) : Option Int64 := x.toInt?.bind Value.int64?

/-- A whole number. -/
def int? : Json → Option Int64
  | .number (.int n) => (Value.int64? n).orElse fun _ => integral? (.ofInt n)
  | .number (.float x) => integral? x
  | .string s =>
    let cs := Text.trimChars s.toList
    ((Decimal.int? cs).bind Value.int64?).orElse fun _ => (binary64OfChars? cs).bind integral?
  | _ => none

/-- A double. -/
def float? : Json → Option Binary64
  | .number n => some (numberToBinary64 n)
  | .string s => (binary64OfChars? (Text.trimChars s.toList)).filter (·.isFinite)
  | _ => none

/-- A Boolean. -/
def bool? : Json → Option Bool
  | .bool b => some b
  | .string s =>
    let word := Text.trim s
    if word = "true" then some true else if word = "false" then some false else none
  | _ => none

/-- A text. -/
def string? : Json → Option String
  | .string s => some s
  | .number n => some (Json.numberText n)
  | .bool b => some (if b then "true" else "false")
  | _ => none

/-- A parameter as a scalar of a declared type. -/
def scalar (type : FieldType) (raw : Json) : Except BindProblem Value :=
  let refused := BindProblem.cannotConvert raw.kind type
  let orRefuse (v : Option Value) : Except BindProblem Value :=
    match v with
    | some v => .ok v
    | none => .error refused
  if raw.kind = "null" then .error .nullValue
  else
    match type, raw with
    | .int, _ => orRefuse ((int? raw).map .int)
    | .float, _ => orRefuse ((float? raw).map .float)
    | .bool, _ => orRefuse ((bool? raw).map .bool)
    | .string, _ => orRefuse ((string? raw).map .string)
    | .enum variants, .string s =>
      if s ∈ variants then .ok (.string s) else .error (.notAVariant s variants)
    | _, _ => .error refused

/-- The value of a field that has no parameter: a zero of its type, or none for
enumerations and nested shapes. -/
def default? : FieldType → Option Value
  | .int => some (.int 0)
  | .float => some (.float .zero)
  | .bool => some (.bool false)
  | .string => some (.string "")
  | .enum _ => none
  | .shape _ => none

end Coercion

end Rulebook
