/-
  Json/Record.lean --- documents with named fields.

  A document is an object with the fields as its members, or an array with the values
  of the fields in their order.  Members that are no field are ignored, and a field
  may not be given twice.
-/
import Rulebook.Json.Raw

set_option autoImplicit false

namespace Rulebook.Json.Raw

/-- The members of an object that are fields; none if a field is given twice or a key
is malformed. -/
def fieldMembers? (names : List String) :
    List (Option String × Raw) → Option (Table String Raw)
  | [] => some []
  | (none, _) :: _ => none
  | (some key, v) :: rest => do
    let others ← fieldMembers? names rest
    if key ∈ names then (if Table.has others key then none else some ((key, v) :: others))
    else some others

/-- The values of the fields of a document. -/
def fields? (names : List String) : Raw → Option (Table String Raw)
  | .object members => fieldMembers? names members
  | .array items => if items.length ≤ names.length then some (names.zip items) else none
  | _ => none

/-- The value of a field that must be given. -/
def required? {α : Type} (read : Raw → Option α) (fields : Table String Raw) (name : String) :
    Option α :=
  (Table.get? fields name).bind read

/-- The value of a field that has a default. -/
def defaulted? {α : Type} (read : Raw → Option α) (default : α) (fields : Table String Raw)
    (name : String) : Option α :=
  match Table.get? fields name with
  | some v => read v
  | none => some default

/-- A value that may be null. -/
def nullable? {α : Type} (read : Raw → Option α) : Raw → Option (Option α)
  | .null => some none
  | v => (read v).map some

/-- A whole number below a limit. -/
def natural? (limit : Nat) : Raw → Option Nat
  | .number n =>
    match n.value? with
    | some (.int n) => if 0 ≤ n && n < limit then some n.toNat else none
    | _ => none
  | _ => none

/-- A number of 64 bits. -/
def uint64? (r : Raw) : Option UInt64 := (natural? UInt64.size r).map UInt64.ofNat

/-- A number of 32 bits. -/
def uint32? (r : Raw) : Option UInt32 := (natural? UInt32.size r).map UInt32.ofNat

/-- A number of 8 bits. -/
def uint8? (r : Raw) : Option UInt8 := (natural? UInt8.size r).map UInt8.ofNat

/-- A Boolean. -/
def boolean? : Raw → Option Bool
  | .bool b => some b
  | _ => none

/-- A text. -/
def text? : Raw → Option String
  | .string s => s
  | _ => none

/-- Any value inside a document. -/
def inner? (r : Raw) : Option Json := r.toJson? (maxDepth - 1)

/-- The members of an object inside a document. -/
def innerMembers? (r : Raw) : Option Members :=
  match inner? r with
  | some (.object ms) => some ms
  | _ => none

end Rulebook.Json.Raw
