/-
  Fact/Basic.lean --- what can be inserted into a session.
-/
import Rulebook.Fact.Instance

set_option autoImplicit false

namespace Rulebook

/-- The name under which a caller keeps the result that a session builds. -/
structure ResultHandle where
  /-- The name. -/
  name : String
deriving DecidableEq, Repr, Inhabited

/-- Something inserted into a session. -/
inductive Fact
  /-- A typed instance. -/
  | record (content : Instance)
  /-- The parameters of the request. -/
  | params (members : Json.Members)
  /-- Where actions put the result. -/
  | result (handle : ResultHandle)
  /-- Where log actions hand their messages, named for the rule that is run. -/
  | logger (rule : String)
  /-- The properties of the application. -/
  | context (properties : Json.Members)
  /-- Access to the stored rules. -/
  | store

/-- The name of the kind of a fact. -/
def Fact.kind : Fact → String
  | .record _ => "record"
  | .params _ => "params"
  | .result _ => "result"
  | .logger _ => "logger"
  | .context _ => "app_context"
  | .store => "store"

end Rulebook
