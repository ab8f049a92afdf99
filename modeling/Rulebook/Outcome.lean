/-
  Outcome.lean --- the result of a run.

  Code 0 is a success and code 1 a failure with a message.  The payload that rules
  build is an object whose keys stand in the order of their first use.
-/
import Rulebook.Json.Basic

set_option autoImplicit false

namespace Rulebook

/-- The result of a run. -/
structure Outcome where
  /-- 0 for a success, 1 for a failure. -/
  code : UInt8
  /-- Why it failed. -/
  message : Option String
  /-- The payload. -/
  data : Option Json
deriving DecidableEq, Inhabited

namespace Outcome

/-- A success without payload. -/
def success : Outcome := ⟨0, none, none⟩

/-- A success with a payload. -/
def successWith (data : Json) : Outcome := ⟨0, none, some data⟩

/-- A failure. -/
def failure (message : String) : Outcome := ⟨1, some message, none⟩

/-- Whether it is a success. -/
def isSuccess (o : Outcome) : Bool := o.code == 0

/-- The members of the payload; none for a payload that is no object. -/
def members (o : Outcome) : Json.Members :=
  match o.data with
  | some (.object ms) => ms
  | _ => []

/-- Put a value into the payload, which becomes an object if it is none. -/
def put (o : Outcome) (key : String) (value : Json) : Outcome :=
  { o with data := some (.object (Table.put o.members key value)) }

/-- Turn into a failure; the payload stays. -/
def fail (o : Outcome) (message : String) : Outcome :=
  { o with code := 1, message := some message }

/-- The JSON document of a result; what is absent is left out. -/
def toJson (o : Outcome) : Json :=
  .object ([("code", Json.number (.int o.code.toNat))]
    ++ (match o.message with
      | some m => [("message", Json.string m)]
      | none => [])
    ++ (match o.data with
      | some d => [("data", d)]
      | none => []))

/-- A line about a result. -/
def text (o : Outcome) : String :=
  "code=" ++ toString o.code.toNat
    ++ (match o.message with
      | some m => ", message=" ++ m
      | none => "")
    ++ (match o.data with
      | some d => ", data=" ++ d.text
      | none => "")

end Outcome

end Rulebook
