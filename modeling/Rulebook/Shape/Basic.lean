/-
  Shape/Basic.lean --- declared types of facts.
-/
set_option autoImplicit false

namespace Rulebook

/-- The type of a field. -/
inductive FieldType
  | int
  | float
  | bool
  | string
  /-- A text out of a list. -/
  | enum (variants : List String)
  /-- A nested fact of a declared shape. -/
  | shape (name : String)
deriving DecidableEq, Repr, Inhabited

namespace FieldType

/-- The type that a name stands for: a scalar type under one of its two names, and
otherwise the shape of that name. -/
def ofName (name : String) : FieldType :=
  if name = "int" || name = "long" then .int
  else if name = "float" || name = "double" then .float
  else if name = "bool" || name = "boolean" then .bool
  else if name = "string" || name = "String" then .string
  else .shape name

/-- The text of a type. -/
def text : FieldType → String
  | .int => "int"
  | .float => "float"
  | .bool => "bool"
  | .string => "string"
  | .enum variants => "enum(" ++ ", ".intercalate variants ++ ")"
  | .shape name => name

/-- Whether the values of the type are scalars. -/
def isScalar : FieldType → Bool
  | .shape _ => false
  | _ => true

end FieldType

/-- A field of a shape. -/
structure Field where
  /-- Its name, which may have dots. -/
  name : String
  /-- The type of its values. -/
  type : FieldType
deriving DecidableEq, Repr, Inhabited

/-- A declared type of facts. -/
structure Shape where
  /-- Its name, which may have dots. -/
  name : String
  /-- Its fields in the order of declaration. -/
  fields : List Field
deriving DecidableEq, Repr, Inhabited

namespace Shape

/-- The first field of a name. -/
def field? (s : Shape) (name : String) : Option Field := s.fields.find? (·.name = name)

end Shape

/-- The shapes of one package. -/
structure ShapeGroup where
  /-- The name of the package. -/
  package : String
  /-- Whether the package has rules. -/
  hasRules : Bool
  /-- Its shapes in the order of declaration. -/
  shapes : List Shape
deriving DecidableEq, Repr, Inhabited

namespace ShapeGroup

/-- The first shape of a name in a list of groups. -/
def findShape? (groups : List ShapeGroup) (name : String) : Option Shape :=
  (groups.flatMap (·.shapes)).find? (·.name = name)

/-- The group whose shapes are bound: the first one with rules. -/
def active? (groups : List ShapeGroup) : Option ShapeGroup := groups.find? (·.hasRules)

end ShapeGroup

end Rulebook
