/-
  Program/Check.lean --- the checks on the packages of a rule text.

  Every check reports all it finds, whatever the others found.  A path is resolved
  against the declared shapes segment by segment; paths below the two dynamic
  roots have no declared type.
-/
import Rulebook.Program.Error
import Rulebook.Source.Item
import Rulebook.Table

set_option autoImplicit false

namespace Rulebook

namespace Package

/-- The shapes of all packages. -/
def allShapes (packages : List Package) : List Shape := packages.flatMap (·.shapes)

/-- The rules of all packages. -/
def allRules (packages : List Package) : List Rule := packages.flatMap (·.rules)

end Package

/-- The roots of working memory that are always there and never declared. -/
def dynamicRoots : List String := ["params", "context"]

namespace Check

/-! ## Shapes -/

/-- The declared shapes by name.  Of two with one name the later counts, and a
reserved name declares nothing. -/
def declared (shapes : List Shape) : Table String Shape :=
  Table.ofEntries ((shapes.filter (·.name ∉ dynamicRoots)).map fun s => (s.name, s))

/-- The defects of the names of shapes, in the order of declaration. -/
def nameDefects (earlier : List String) : List Shape → List Defect
  | [] => []
  | s :: rest =>
    if s.name ∈ dynamicRoots then .reservedShape s.name :: nameDefects earlier rest
    else if s.name ∈ earlier then .duplicateShape s.name :: nameDefects earlier rest
    else nameDefects (s.name :: earlier) rest

/-- The defects of the fields of a shape, in the order of declaration. -/
def fieldDefects (shapes : Table String Shape) (shape : String) (earlier : List String) :
    List Field → List Defect
  | [] => []
  | f :: rest =>
    (if f.name ∈ earlier then [.duplicateField shape f.name] else [])
    ++ (match f.type with
      | .shape target => if shapes.has target then [] else [.unknownType shape f.name target]
      | _ => [])
    ++ fieldDefects shapes shape (f.name :: earlier) rest

/-- The defects of the fields of all declared shapes, by the names of the shapes. -/
def allFieldDefects (shapes : Table String Shape) : List Defect :=
  ((shapes.map Prod.snd).mergeSort fun a b => a.name ≤ b.name).flatMap fun s =>
    fieldDefects shapes s.name [] s.fields

/-! ## Names of rules -/

/-- The repeated names of rules. -/
def duplicateDefects (earlier : List String) : List Rule → List Defect
  | [] => []
  | r :: rest =>
    (if r.name ∈ earlier then [.duplicateRule r.name] else [])
    ++ duplicateDefects (r.name :: earlier) rest

/-- The references to names that no rule has. -/
def referenceDefects (rules : List Rule) : List Defect :=
  let names := rules.map (·.name)
  rules.flatMap fun r =>
    (r.condition.references.filter (· ∉ names)).map (.undefinedReference r.name)

/-! ## Paths -/

/-- What a path of a rule reads. -/
inductive PathType
  /-- A scalar field of a declared shape. -/
  | typed (type : FieldType)
  /-- Something that has no declared type. -/
  | untyped
  /-- Nothing that rules may read. -/
  | undefined
deriving DecidableEq, Repr

/-- What the segments behind a shape read: all but the last lead through nested
shapes to the shape of the last.  Behind a nested shape that is not declared
nothing is known. -/
def resolveIn (shapes : Table String Shape) (shape : Shape) : List String → PathType
  | [] => .undefined
  | [last] =>
    match shape.field? last with
    | some f => if f.type.isScalar then .typed f.type else .undefined
    | none => .undefined
  | segment :: rest =>
    match shape.field? segment with
    | some f =>
      match f.type with
      | .shape target =>
        match shapes.get? target with
        | some next => resolveIn shapes next rest
        | none => .untyped
      | _ => .undefined
    | none => .undefined

/-- What a path reads. -/
def resolve (shapes : Table String Shape) (path : Path) : PathType :=
  match path.segments with
  | [] => .undefined
  | first :: rest =>
    if first ∈ dynamicRoots then
      if rest.isEmpty then .undefined else .untyped
    else
      match shapes.get? first with
      | some shape => resolveIn shapes shape rest
      | none => .undefined

/-- The defect of comparing a field of a type with a literal, if there is one. -/
def literalDefect? (rule field : String) (type : FieldType) (literal : Value) : Option Defect :=
  match type, literal with
  | .int, .int _ | .int, .float _ | .float, .int _ | .float, .float _ => none
  | .bool, .bool _ => none
  | .string, .string _ => none
  | .enum variants, .string s => if s ∈ variants then none else some (.unknownVariant rule field s)
  | _, _ => some (.typeMismatch rule field type.text literal.typeName)

/-- The defect of a comparison, if there is one. -/
def comparisonDefect? (shapes : Table String Shape) (rule : String) (path : Path)
    (literal : Value) : Option Defect :=
  match resolve shapes path with
  | .typed type => literalDefect? rule path.text type literal
  | .untyped => none
  | .undefined => some (.undefinedField rule path.text)

/-- The defect of an action, if there is one. -/
def actionDefect? (shapes : Table String Shape) (rule : String) : Action → Option Defect
  | .set _ (.path path) =>
    if resolve shapes path = .undefined then some (.undefinedField rule path.text) else none
  | _ => none

/-- The defects of the paths of a rule: its comparisons, then its actions. -/
def pathDefects (shapes : Table String Shape) (r : Rule) : List Defect :=
  r.condition.comparisons.filterMap (fun (path, _, literal) =>
    comparisonDefect? shapes r.name path literal)
  ++ r.actions.filterMap (actionDefect? shapes r.name)

end Check

end Rulebook
