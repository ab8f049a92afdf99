/-
  Source/Condition.lean --- reading conditions.

  `NOT` binds tighter than `AND`, and `AND` tighter than `OR`; both chain to the
  left.  A name with a comparison operator behind it is a path, and any other name a
  reference to a rule.
-/
import Rulebook.Rule.Condition
import Rulebook.Source.Token

set_option autoImplicit false

namespace Rulebook.Source

open Reader

/-- The comparison operator at the front of a text and what is left; the longer of
two operators is tried first. -/
def comparator? : List Char → Option (Comparator × List Char)
  | '>' :: '=' :: r => some (.greaterOrEqual, r)
  | '>' :: r => some (.greater, r)
  | '<' :: '=' :: r => some (.lessOrEqual, r)
  | '<' :: r => some (.less, r)
  | '=' :: '=' :: r => some (.equal, r)
  | '!' :: '=' :: r => some (.different, r)
  | _ => none

/-- Read a comparison or, if no operator follows the name, a reference. -/
def comparisonOrReference : Reader Condition := do
  let name ← identifier
  fun s =>
    match comparator? (skipBlanks s) with
    | some (op, r) => (Condition.compare (Path.ofString name) op <$> commit value) r
    | none => .ok (.rule name, s)

/-- Read a condition in parentheses, or a comparison or reference. -/
def primary (condition : Reader Condition) : Reader Condition := do
  blanks
  expecting .expression <|
    (do char '('; let e ← condition; blanks; char ')'; return e)
    <|> comparisonOrReference

/-- Read operands joined by a keyword, chained to the left. -/
def chain (upper lower : String) (join : Condition → Condition → Condition)
    (operand : Reader Condition) : Reader Condition := do
  let first ← operand
  let others ← many do blanks; keyword upper lower; commit operand
  return others.foldl join first

/-- Read alternatives whose smallest parts `unary` reads. -/
def disjunction (unary : Reader Condition) : Reader Condition := do
  blanks
  chain "OR" "or" .or (chain "AND" "and" .and unary)

/-- Read a negation or a primary.  Parts are read from what is left, which is
shorter. -/
def unary (s : List Char) : Except Failure (Condition × List Char) :=
  let inner : Reader Condition := fun r => if r.length < s.length then unary r else fail r
  (do
    blanks
    match ← optional (keyword "NOT" "not") with
    | some () => Condition.not <$> commit inner
    | none => primary (disjunction inner) : Reader Condition) s
termination_by s.length

/-- Read a condition. -/
def condition : Reader Condition := disjunction unary

end Rulebook.Source
