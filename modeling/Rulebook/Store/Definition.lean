/-
  Store/Definition.lean --- stored rules and their documents.
-/
import Rulebook.Json.Record
import Rulebook.Outcome
import Rulebook.Timestamp

set_option autoImplicit false

namespace Rulebook

/-- The identifier that a store gives a rule. -/
structure RuleId where
  /-- The number. -/
  val : UInt64
deriving DecidableEq, Repr, Inhabited

/-- The number as text. -/
def RuleId.text (id : RuleId) : String := toString id.val.toNat

/-- A rule as it is stored. -/
structure Definition where
  /-- Given by the store when it is saved first. -/
  id : Option RuleId
  /-- The name, which no other stored rule has. -/
  name : String
  /-- What it is for. -/
  description : Option String
  /-- The text that is compiled. -/
  source : String
  /-- When it was saved first. -/
  createdAt : Option Timestamp
  /-- When it was saved last. -/
  updatedAt : Option Timestamp
deriving DecidableEq, Repr, Inhabited

/-- A stored rule in a listing. -/
structure Summary where
  /-- The identifier. -/
  id : RuleId
  /-- The name. -/
  name : String
  /-- What it is for. -/
  description : Option String
  /-- When it was saved first. -/
  createdAt : Option Timestamp
deriving DecidableEq, Repr, Inhabited

/-- A page of a listing. -/
structure Page where
  /-- The number of all matches. -/
  total : UInt64
  /-- The matches on this page. -/
  items : List Summary
deriving DecidableEq, Repr, Inhabited

/-- A rule that has not been saved. -/
def Definition.new (name source : String) : Definition := ⟨none, name, none, source, none, none⟩

/-- The rule in a listing; none before it is saved. -/
def Definition.summary? (d : Definition) : Option Summary :=
  d.id.map fun id => ⟨id, d.name, d.description, d.createdAt⟩

/-! ## Documents -/

namespace Json.Raw

/-- A rule identifier. -/
def ruleId? (r : Raw) : Option RuleId := (uint64? r).map RuleId.mk

/-- A point in time. -/
def timestamp? (r : Raw) : Option Timestamp := (text? r).bind Timestamp.ofText?

end Json.Raw

namespace Json

/-- The member of an optional text; left out if it is absent. -/
def textMember (name : String) : Option String → List (String × Json)
  | some s => [(name, .string s)]
  | none => []

/-- The member of an optional point in time; left out if it is absent. -/
def timeMember (name : String) (t : Option Timestamp) : List (String × Json) :=
  textMember name (t.map Timestamp.text)

/-- A rule identifier. -/
def ofRuleId (id : RuleId) : Json := .number (.int id.val.toNat)

end Json

namespace Definition

/-- The names of the fields in a document, in their order. -/
def fieldNames : List String :=
  ["id", "name", "description", "source", "created_at", "updated_at"]

/-- The definition in a document. -/
def ofRaw? (r : Json.Raw) : Option Definition := do
  let fields ← r.fields? fieldNames
  return {
    id := ← Json.Raw.defaulted? (Json.Raw.nullable? Json.Raw.ruleId?) none fields "id"
    name := ← Json.Raw.required? Json.Raw.text? fields "name"
    description :=
      ← Json.Raw.defaulted? (Json.Raw.nullable? Json.Raw.text?) none fields "description"
    source := ← Json.Raw.required? Json.Raw.text? fields "source"
    createdAt :=
      ← Json.Raw.defaulted? (Json.Raw.nullable? Json.Raw.timestamp?) none fields "created_at"
    updatedAt :=
      ← Json.Raw.defaulted? (Json.Raw.nullable? Json.Raw.timestamp?) none fields "updated_at" }

/-- The document of a definition. -/
def toJson (d : Definition) : Json :=
  .object ([("id", match d.id with
      | some id => Json.ofRuleId id
      | none => .null),
    ("name", .string d.name)]
    ++ Json.textMember "description" d.description
    ++ [("source", .string d.source)]
    ++ Json.timeMember "created_at" d.createdAt
    ++ Json.timeMember "updated_at" d.updatedAt)

end Definition

namespace Summary

/-- The names of the fields in a document, in their order. -/
def fieldNames : List String := ["id", "name", "description", "created_at"]

/-- The summary in a document. -/
def ofRaw? (r : Json.Raw) : Option Summary := do
  let fields ← r.fields? fieldNames
  return {
    id := ← Json.Raw.required? Json.Raw.ruleId? fields "id"
    name := ← Json.Raw.required? Json.Raw.text? fields "name"
    description :=
      ← Json.Raw.defaulted? (Json.Raw.nullable? Json.Raw.text?) none fields "description"
    createdAt :=
      ← Json.Raw.defaulted? (Json.Raw.nullable? Json.Raw.timestamp?) none fields "created_at" }

/-- The document of a summary. -/
def toJson (s : Summary) : Json :=
  .object ([("id", Json.ofRuleId s.id), ("name", .string s.name)]
    ++ Json.textMember "description" s.description
    ++ Json.timeMember "created_at" s.createdAt)

end Summary

namespace Page

/-- The names of the fields in a document, in their order. -/
def fieldNames : List String := ["total", "items"]

/-- The items of a page in a document. -/
def items? : Json.Raw → Option (List Summary)
  | .array items => items.mapM Summary.ofRaw?
  | _ => none

/-- The page in a document. -/
def ofRaw? (r : Json.Raw) : Option Page := do
  let fields ← r.fields? fieldNames
  return {
    total := ← Json.Raw.required? Json.Raw.uint64? fields "total"
    items := ← Json.Raw.required? items? fields "items" }

/-- The document of a page. -/
def toJson (p : Page) : Json :=
  .object [("total", .number (.int p.total.toNat)), ("items", .array (p.items.map Summary.toJson))]

end Page

namespace Outcome

/-- The names of the fields in a document, in their order. -/
def fieldNames : List String := ["code", "message", "data"]

/-- The result in a document. -/
def ofRaw? (r : Json.Raw) : Option Outcome := do
  let fields ← r.fields? fieldNames
  return {
    code := ← Json.Raw.required? Json.Raw.uint8? fields "code"
    message := ← Json.Raw.defaulted? (Json.Raw.nullable? Json.Raw.text?) none fields "message"
    data := ← Json.Raw.defaulted? (Json.Raw.nullable? Json.Raw.inner?) none fields "data" }

end Outcome

end Rulebook
