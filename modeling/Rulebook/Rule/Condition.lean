/-
  Rule/Condition.lean --- what a rule asks of the facts.
-/
import Rulebook.Path
import Rulebook.Value

set_option autoImplicit false

namespace Rulebook

/-- A condition over working memory and over the other rules. -/
inductive Condition
  /-- The value at a path stands in a relation to a literal. -/
  | compare (path : Path) (op : Comparator) (literal : Value)
  /-- Another rule holds. -/
  | rule (name : String)
  | and (left right : Condition)
  | or (left right : Condition)
  | not (inner : Condition)
deriving DecidableEq, Repr, Inhabited

namespace Condition

/-- The text of a condition, with parentheses around everything but a name. -/
def text : Condition → String
  | .compare path op literal => "(" ++ path.text ++ " " ++ op.text ++ " " ++ literal.text ++ ")"
  | .rule name => name
  | .and l r => "(" ++ l.text ++ " AND " ++ r.text ++ ")"
  | .or l r => "(" ++ l.text ++ " OR " ++ r.text ++ ")"
  | .not e => "(NOT " ++ e.text ++ ")"

/-- The rules that a condition names, from left to right, as often as it names them. -/
def references : Condition → List String
  | .compare .. => []
  | .rule name => [name]
  | .and l r => l.references ++ r.references
  | .or l r => l.references ++ r.references
  | .not e => e.references

/-- The comparisons of a condition, from left to right. -/
def comparisons : Condition → List (Path × Comparator × Value)
  | .compare path op literal => [(path, op, literal)]
  | .rule _ => []
  | .and l r => l.comparisons ++ r.comparisons
  | .or l r => l.comparisons ++ r.comparisons
  | .not e => e.comparisons

end Condition

end Rulebook
