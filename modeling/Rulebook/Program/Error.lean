/-
  Program/Error.lean --- what can be wrong with a rule text.
-/
import Rulebook.Text.Quoted

set_option autoImplicit false

namespace Rulebook

/-- A defect of the packages of a rule text. -/
inductive Defect
  | undefinedReference (rule reference : String)
  /-- Rules that refer to one another in a circle; the first is also the last. -/
  | cycle (path : List String)
  | duplicateRule (name : String)
  | duplicateShape (name : String)
  | reservedShape (name : String)
  | duplicateField (shape field : String)
  | unknownType (shape field type : String)
  | undefinedField (rule field : String)
  | typeMismatch (rule field expected found : String)
  | unknownVariant (rule field variant : String)
deriving DecidableEq, Repr

/-- The message for a defect. -/
def Defect.message : Defect → String
  | .undefinedReference rule reference =>
    "undefined rule reference '" ++ reference ++ "' in rule '" ++ rule ++ "'"
  | .cycle path => "cyclic dependency detected: " ++ " -> ".intercalate path
  | .duplicateRule name => "duplicate rule name '" ++ name ++ "'"
  | .duplicateShape name => "duplicate fact type '" ++ name ++ "'"
  | .reservedShape name => "fact type name '" ++ name ++ "' is reserved"
  | .duplicateField shape field =>
    "duplicate field '" ++ field ++ "' in fact type '" ++ shape ++ "'"
  | .unknownType shape field type =>
    "unknown type '" ++ type ++ "' for field '" ++ field ++ "' in fact type '" ++ shape ++ "'"
  | .undefinedField rule field => "undefined field '" ++ field ++ "' in rule '" ++ rule ++ "'"
  | .typeMismatch rule field expected found =>
    "type mismatch in rule '" ++ rule ++ "': '" ++ field ++ "' is " ++ expected
      ++ ", compared with " ++ found
  | .unknownVariant rule field variant =>
    "unknown variant " ++ Text.quoted variant ++ " for '" ++ field ++ "' in rule '" ++ rule ++ "'"

/-- The messages of a text that was refused. -/
structure Diagnostics where
  /-- One message for each problem. -/
  messages : List String
deriving DecidableEq, Repr, Inhabited

/-- The messages, a line each. -/
def Diagnostics.text (d : Diagnostics) : String := "\n".intercalate d.messages

end Rulebook
