/-
  Rule/Action.lean --- what a rule that holds does, and the rule itself.
-/
import Rulebook.Rule.Condition
import Rulebook.Text.Quoted

set_option autoImplicit false

namespace Rulebook

/-- Where a set action takes its value from. -/
inductive Operand
  | literal (value : Value)
  | path (path : Path)
deriving DecidableEq, Repr, Inhabited

/-- An action on the result of a run. -/
inductive Action
  /-- Put a value under a key of the payload. -/
  | set (key : String) (operand : Operand)
  /-- Turn the result into a failure. -/
  | fail (message : String)
  /-- Hand a message to the logger. -/
  | log (message : String)
deriving DecidableEq, Repr, Inhabited

/-- The text of an operand. -/
def Operand.text : Operand → String
  | .literal v => v.text
  | .path p => p.text

/-- The text of an action. -/
def Action.text : Action → String
  | .set key operand => "set " ++ key ++ " = " ++ operand.text
  | .fail message => "fail " ++ Text.quoted message
  | .log message => "log " ++ Text.quoted message

/-- A named rule. -/
structure Rule where
  /-- The name by which other rules refer to it. -/
  name : String
  /-- When it holds. -/
  condition : Condition
  /-- Its place in the agenda; rules without one come last. -/
  priority : Option UInt32
  /-- What it does when it holds, in order. -/
  actions : List Action
deriving DecidableEq, Repr, Inhabited

end Rulebook
