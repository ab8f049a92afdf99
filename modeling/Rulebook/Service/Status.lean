/-
  Service/Status.lean --- lines about a running service.
-/
import Rulebook.Config
import Rulebook.Service.Cache
import Rulebook.Text.Quoted

set_option autoImplicit false

namespace Rulebook

namespace Json

mutual

/-- A value with the kinds of its parts. -/
def inspect : Json → String
  | .null => "Null"
  | .bool b => "Bool(" ++ (if b then "true" else "false") ++ ")"
  | .number n => "Number(" ++ numberText n ++ ")"
  | .string s => "String(" ++ Text.quoted s ++ ")"
  | .array items => "Array [" ++ ", ".intercalate (inspectItems items) ++ "]"
  | .object members => "Object \x7b" ++ ", ".intercalate (inspectMembers members) ++ "\x7d"

/-- The items of an array with their kinds. -/
def inspectItems : List Json → List String
  | [] => []
  | v :: rest => inspect v :: inspectItems rest

/-- The members of an object with the kinds of their values. -/
def inspectMembers : List (String × Json) → List String
  | [] => []
  | (key, v) :: rest => (Text.quoted key ++ ": " ++ inspect v) :: inspectMembers rest

end

end Json

/-- A line about the settings. -/
def Config.text (c : Config) : String :=
  let flag (b : Bool) : String := if b then "true" else "false"
  "RuntimeConfig \x7b fire_timeout_ms: "
    ++ (match c.fireTimeoutMs with
      | some n => "Some(" ++ toString n.toNat ++ ")"
      | none => "None")
    ++ ", expose_failure_detail: " ++ flag c.exposeFailureDetail
    ++ ", verify_before_save: " ++ flag c.verifyBeforeSave
    ++ ", max_page_size: " ++ toString c.maxPageSize.toNat
    ++ ", context: \x7b" ++ ", ".intercalate (Json.inspectMembers c.context) ++ "\x7d \x7d"

namespace Cache

variable {π : Type}

/-- A line about the cache: how many programs and names it holds, and its epoch. -/
def text (c : Cache π) : String :=
  "ProgramCache \x7b programs: " ++ toString c.programs.length
    ++ ", names: " ++ toString c.names.length
    ++ ", epoch: " ++ toString c.epoch ++ ", .. \x7d"

/-- A line about executions over the cache. -/
def executionText (c : Cache π) (config : Config) : String :=
  "ExecutionRuntime \x7b cache: " ++ c.text ++ ", config: " ++ config.text ++ ", .. \x7d"

/-- A line about the mutations that keep the cache fresh. -/
def mutationText (c : Cache π) : String := "RuleService \x7b cache: " ++ c.text ++ ", .. \x7d"

end Cache

end Rulebook
