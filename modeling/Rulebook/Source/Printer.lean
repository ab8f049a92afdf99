/-
  Source/Printer.lean --- the canonical text of packages.

  Every package has its line, every field and every action a line of its own, and
  conditions have parentheses around everything but a name.  So the text shows the
  whole structure, and reading it needs no precedence.  Doubles stand as in messages,
  where a whole one looks like a whole number: packages without doubles are the ones
  whose text says all.
-/
import Rulebook.Source.Item

set_option autoImplicit false

namespace Rulebook.Source

/-! ## Literals -/

/-- How a character stands between quotation marks. -/
def escapeChar (c : Char) : List Char :=
  if c = '\"' || c = '\\' then ['\\', c] else [c]

/-- A text between quotation marks. -/
def printString (s : String) : List Char := '\"' :: s.toList.flatMap escapeChar ++ ['\"']

/-- A literal. -/
def printValue : Value → List Char
  | .string s => printString s
  | v => v.text.toList

/-! ## Conditions and actions -/

/-- A condition. -/
def printCondition : Condition → List Char
  | .compare path op literal =>
    "(".toList ++ path.text.toList ++ " ".toList ++ op.text.toList ++ " ".toList
      ++ printValue literal ++ ")".toList
  | .rule name => name.toList
  | .and l r =>
    "(".toList ++ printCondition l ++ " AND ".toList ++ printCondition r ++ ")".toList
  | .or l r =>
    "(".toList ++ printCondition l ++ " OR ".toList ++ printCondition r ++ ")".toList
  | .not e => "(NOT ".toList ++ printCondition e ++ ")".toList

/-- An operand. -/
def printOperand : Operand → List Char
  | .literal v => printValue v
  | .path p => p.text.toList

/-- An action. -/
def printAction : Action → List Char
  | .set key operand => "set ".toList ++ key.toList ++ " = ".toList ++ printOperand operand
  | .fail message => "fail ".toList ++ printString message
  | .log message => "log ".toList ++ printString message

/-- A line for each action. -/
def printActions (actions : List Action) : List Char :=
  actions.flatMap fun a => "    ".toList ++ printAction a ++ ['\n']

/-! ## Items -/

/-- A line for a field. -/
def printField (f : Field) : List Char :=
  "  ".toList ++ f.name.toList ++ ": ".toList ++ f.type.text.toList ++ ['\n']

/-- A shape declaration. -/
def printShape (s : Shape) : List Char :=
  "declare ".toList ++ s.name.toList ++ ['\n'] ++ s.fields.flatMap printField ++ "end\n".toList

/-- A priority, if there is one. -/
def printPriority : Option UInt32 → List Char
  | some n => " (priority ".toList ++ (toString n.toNat).toList ++ ")".toList
  | none => []

/-- A rule.  Without actions it ends behind its condition. -/
def printRule (r : Rule) : List Char :=
  "rule ".toList ++ r.name.toList ++ printPriority r.priority ++ ":\n  ".toList
    ++ printCondition r.condition ++ ['\n']
    ++ (if r.actions.isEmpty then [] else "  then\n".toList ++ printActions r.actions)

/-- A package: its line, its shapes and its rules. -/
def printPackage (p : Package) : List Char :=
  "package ".toList ++ p.name.toList ++ ['\n'] ++ p.shapes.flatMap printShape
    ++ p.rules.flatMap printRule

/-- The canonical text of packages. -/
def print (packages : List Package) : List Char := packages.flatMap printPackage

end Rulebook.Source
