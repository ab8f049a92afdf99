/-
  Source/Item.lean --- reading whole rule texts.

  A text is a sequence of items: package lines, shape declarations and rules.
  Items before the first package line belong to the default package.  A package
  without items is dropped, except that a text without any items has the last
  package it opened.
-/
import Rulebook.Rule.Action
import Rulebook.Shape.Basic
import Rulebook.Source.Condition

set_option autoImplicit false

namespace Rulebook

/-- The shapes and rules written under one package line. -/
structure Package where
  /-- The name of the package. -/
  name : String
  /-- Its shapes in the order of declaration. -/
  shapes : List Shape
  /-- Its rules in the order of declaration. -/
  rules : List Rule
deriving DecidableEq, Repr, Inhabited

namespace Package

/-- The package of the items before the first package line. -/
def defaultName : String := "default"

/-- A package without items. -/
def empty (name : String) : Package := ⟨name, [], []⟩

/-- Whether a package has no items. -/
def isEmpty (p : Package) : Bool := p.shapes.isEmpty && p.rules.isEmpty

end Package

namespace Source

open Reader

/-! ## Actions -/

/-- Read a literal or else a path. -/
def operand : Reader Operand := do
  blanks
  expecting .operand <|
    (Operand.literal <$> value) <|> ((Operand.path ∘ Path.ofString) <$> identifier)

/-- Read a set action. -/
def setAction : Reader Action := do
  word "set".toList
  spaces
  let key ← expecting .resultKey (commit identifier)
  blanks
  commit (char '=')
  let operand ← commit operand
  return .set key operand

/-- Read a fail action. -/
def failAction : Reader Action := do
  word "fail".toList
  spaces
  let message ← expecting .failureMessage (commit stringLiteral)
  return .fail message

/-- Read a log action. -/
def logAction : Reader Action := do
  word "log".toList
  spaces
  let message ← expecting .logMessage (commit stringLiteral)
  return .log message

/-- Read an action. -/
def action : Reader Action := do
  blanks
  setAction <|> failAction <|> logAction

/-! ## Shapes -/

/-- Read a variant of an enumeration. -/
def variant : Reader String := do
  blanks
  let name ← identifier
  blanks
  return name

/-- Read variants with commas between them. -/
def variants : Reader (List String) := do
  let first ← variant
  let others ← many do char ','; variant
  return first :: others

/-- Read an enumeration type. -/
def enumType : Reader FieldType := do
  word "enum".toList
  blanks
  char '('
  let names ← expecting .enumVariants (commit variants)
  commit (char ')')
  return .enum names

/-- Read the type of a field. -/
def fieldType : Reader FieldType := do
  blanks
  expecting .fieldType <| enumType <|> (FieldType.ofName <$> identifier)

/-- Read a field. -/
def field : Reader Field := do
  blanks
  let name ← identifier
  blanks
  char ':'
  let type ← commit fieldType
  return { name, type }

/-! ## Items -/

/-- An item of a rule text. -/
inductive Item
  | package (name : String)
  | shape (shape : Shape)
  | rule (rule : Rule)
deriving DecidableEq, Repr

/-- Read a package line. -/
def packageItem : Reader Item := do
  blanks
  word "package".toList
  spaces
  let name ← expecting .packageName (commit identifier)
  return .package name

/-- Read a shape declaration. -/
def shapeItem : Reader Item := do
  blanks
  word "declare".toList
  spaces
  let name ← expecting .shapeName (commit identifier)
  let fields ← many field
  blanks
  expecting .fieldOrEnd (commit (word "end".toList))
  return .shape { name, fields }

/-- Read a priority, a whole number of 32 bits without sign. -/
def priority : Reader UInt32 := do
  blanks
  char '('
  blanks
  word "priority".toList
  blanks
  let n ← commit integer
  blanks
  commit (char ')')
  let number := n.toInt
  orReject (if 0 ≤ number && number < UInt32.size then some (UInt32.ofNat number.toNat) else none)

/-- Read the actions of a rule. -/
def consequence : Reader (List Action) := do
  blanks
  word "then".toList
  spacesOrLines
  expecting .action (commit (many1 action))

/-- Read a rule. -/
def ruleItem : Reader Item := do
  blanks
  word "rule".toList
  spaces
  let name ← expecting .ruleName (commit identifier)
  let priority ← optional priority
  blanks
  commit (char ':')
  let condition ← expecting .ruleBody (commit condition)
  let actions ← optional consequence
  return .rule { name, condition, priority, actions := actions.getD [] }

/-- Read an item. -/
def item : Reader Item := packageItem <|> shapeItem <|> ruleItem

/-! ## Packages -/

/-- The packages read so far: those that are closed, and the open one. -/
structure Grouping where
  /-- The closed packages, in order. -/
  closed : List Package
  /-- The package that items join. -/
  current : Package
deriving DecidableEq, Repr

namespace Grouping

/-- Nothing read yet. -/
def start : Grouping := ⟨[], .empty Package.defaultName⟩

/-- Take an item in.  A package line closes the open package and drops it if it is
empty. -/
def add (g : Grouping) : Item → Grouping
  | .package name =>
    { closed := if g.current.isEmpty then g.closed else g.closed ++ [g.current]
      current := .empty name }
  | .shape s => { g with current := { g.current with shapes := g.current.shapes ++ [s] } }
  | .rule r => { g with current := { g.current with rules := g.current.rules ++ [r] } }

/-- All packages. -/
def packages (g : Grouping) : List Package :=
  if g.current.isEmpty && !g.closed.isEmpty then g.closed else g.closed ++ [g.current]

end Grouping

/-- The packages of a sequence of items. -/
def group (items : List Item) : List Package := (items.foldl Grouping.add .start).packages

/-- Read a whole text. -/
def packages (s : List Char) : Except Failure (List Package) :=
  match many item s with
  | .error e => .error e
  | .ok (items, r) =>
    if (skipBlanks r).isEmpty then .ok (group items) else .error ⟨skipBlanks r, false, []⟩

end Source

end Rulebook
