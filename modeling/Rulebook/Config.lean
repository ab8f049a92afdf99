/-
  Config.lean --- the settings of the runtime and the rule service.

  Every setting has a default, so a document may leave any of them out.
-/
import Rulebook.Json.Record

set_option autoImplicit false

namespace Rulebook

/-- The settings. -/
structure Config where
  /-- How many milliseconds a firing pass may take; none for any time. -/
  fireTimeoutMs : Option UInt64 := some 5000
  /-- Whether callers see why a run failed, instead of a general text. -/
  exposeFailureDetail : Bool := false
  /-- Whether a rule text must compile before it is stored. -/
  verifyBeforeSave : Bool := true
  /-- The largest page of a listing. -/
  maxPageSize : UInt32 := 100
  /-- The properties that rules see below `context`. -/
  context : Json.Members := []
deriving DecidableEq

/-- Why there are no settings. -/
inductive ConfigError
  /-- The file could not be read. -/
  | unreadable
  /-- The document is malformed. -/
  | malformed
deriving DecidableEq, Repr

namespace Config

/-- The settings where nothing is set. -/
def standard : Config := {}

/-- The names of the settings in a document, in their order. -/
def fieldNames : List String :=
  ["fire_timeout_ms", "expose_failure_detail", "verify_before_save", "max_page_size", "context"]

/-- The settings that a document gives. -/
def ofText? (text : String) : Option Config := do
  let fields ← (← Json.Raw.ofText? text).fields? fieldNames
  return {
    fireTimeoutMs := ← Json.Raw.defaulted? (Json.Raw.nullable? Json.Raw.uint64?)
      standard.fireTimeoutMs fields "fire_timeout_ms"
    exposeFailureDetail := ← Json.Raw.defaulted? Json.Raw.boolean?
      standard.exposeFailureDetail fields "expose_failure_detail"
    verifyBeforeSave := ← Json.Raw.defaulted? Json.Raw.boolean?
      standard.verifyBeforeSave fields "verify_before_save"
    maxPageSize := ← Json.Raw.defaulted? Json.Raw.uint32?
      standard.maxPageSize fields "max_page_size"
    context := ← Json.Raw.defaulted? Json.Raw.innerMembers?
      standard.context fields "context" }

/-- The settings that a file gives, where there is one. -/
def ofFile (contents : Option String) : Except ConfigError Config :=
  match contents with
  | none => .error .unreadable
  | some text =>
    match ofText? text with
    | some c => .ok c
    | none => .error .malformed

/-- The document of settings. -/
def toJson (c : Config) : Json :=
  .object [
    ("fire_timeout_ms", match c.fireTimeoutMs with
      | some n => .number (.int n.toNat)
      | none => .null),
    ("expose_failure_detail", .bool c.exposeFailureDetail),
    ("verify_before_save", .bool c.verifyBeforeSave),
    ("max_page_size", .number (.int c.maxPageSize.toNat)),
    ("context", .object c.context)]

end Config

end Rulebook
