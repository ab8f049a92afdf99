/-
  Service/Error.lean --- how rules are addressed, and what can go wrong with them.
-/
import Rulebook.Program.Error
import Rulebook.Store.Basic

set_option autoImplicit false

namespace Rulebook

/-- How a caller addresses a rule. -/
inductive RuleKey
  | id (id : RuleId)
  | name (name : String)
deriving DecidableEq, Repr

namespace RuleKey

/-- The text of a key in messages. -/
def text : RuleKey → String
  | .id number => "id " ++ number.text
  | .name given => "name '" ++ given ++ "'"

/-- The name of a key for the logger of a run. -/
def label : RuleKey → String
  | .id number => number.text
  | .name given => given

end RuleKey

/-- An error of the program cache or the rule service. -/
inductive RuleError
  /-- Malformed input. -/
  | invalid (reason : String)
  /-- Another rule has the name. -/
  | nameTaken (name : String)
  /-- A text to be saved does not compile. -/
  | rejected (diagnostics : Diagnostics)
  | notFound (key : RuleKey)
  /-- A stored text does not compile. -/
  | uncompilable (id : RuleId) (diagnostics : Diagnostics)
  /-- A run failed. -/
  | failed (reason : String)
  | store (error : StoreError)
deriving DecidableEq, Repr

namespace RuleError

/-- The message for an error. -/
def message : RuleError → String
  | .invalid reason => "invalid rule: " ++ reason
  | .nameTaken name => "rule name '" ++ name ++ "' is already taken"
  | .rejected diagnostics => "rule text does not compile:\n" ++ diagnostics.text
  | .notFound key => "rule not found: " ++ key.text
  | .uncompilable id diagnostics =>
    "rule " ++ id.text ++ " failed to compile:\n" ++ diagnostics.text
  | .failed reason => "rule execution failed: " ++ reason
  | .store error => error.message

/-- Whether a rule is not there. -/
def isNotFound : RuleError → Bool
  | .notFound _ => true
  | _ => false

end RuleError

end Rulebook
