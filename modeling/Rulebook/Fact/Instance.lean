/-
  Fact/Instance.lean --- typed facts.

  An instance holds values under field names, in the order of the names.  A value is
  a scalar or a nested instance.
-/
import Rulebook.Path
import Rulebook.Value

set_option autoImplicit false

namespace Rulebook

/-- The value of a field. -/
inductive FieldValue
  | scalar (value : Value)
  /-- A nested instance: its shape and its fields in the order of their names. -/
  | record (shape : String) (fields : List (String × FieldValue))

instance : Inhabited FieldValue := ⟨.scalar default⟩

/-- A fact of a declared shape. -/
structure Instance where
  /-- The name of the shape. -/
  shape : String
  /-- The fields that have a value, in the order of their names. -/
  fields : List (String × FieldValue)
deriving Inhabited

namespace Instance

/-- The fields with a value put under a name: in its place among the names, or
instead of the value that was there. -/
def setField : List (String × FieldValue) → String → FieldValue → List (String × FieldValue)
  | [], name, value => [(name, value)]
  | (other, old) :: rest, name, value =>
    if name = other then (name, value) :: rest
    else if name < other then (name, value) :: (other, old) :: rest
    else (other, old) :: setField rest name value

/-- The fields that result from setting values one after the other. -/
def fieldsOf (settings : List (String × FieldValue)) : List (String × FieldValue) :=
  settings.foldl (fun fields s => setField fields s.1 s.2) []

/-- An instance without fields. -/
def empty (shape : String) : Instance := ⟨shape, []⟩

/-- Set a field. -/
def set (i : Instance) (name : String) (value : FieldValue) : Instance :=
  { i with fields := setField i.fields name value }

/-- The value of a field. -/
def field? (i : Instance) (name : String) : Option FieldValue :=
  (i.fields.find? (·.1 = name)).map Prod.snd

/-- The scalar in a field. -/
def get? (i : Instance) (name : String) : Option Value :=
  match i.field? name with
  | some (.scalar v) => some v
  | _ => none

/-- The nested instance in a field. -/
def record? (i : Instance) (name : String) : Option Instance :=
  match i.field? name with
  | some (.record shape fields) => some ⟨shape, fields⟩
  | _ => none

/-- The scalar that segments lead to: every segment but the last names a nested
instance. -/
def getSegments? (i : Instance) : List String → Option Value
  | [] => none
  | [last] => i.get? last
  | segment :: rest => (i.record? segment).bind (getSegments? · rest)

/-- The scalar at a path. -/
def getPath? (i : Instance) (path : Path) : Option Value := i.getSegments? path.segments

end Instance

end Rulebook
