/-
  Store/Basic.lean --- keeping rules.

  A store gives a rule its identifier when it is saved first and keeps it under that
  until it is deleted.  Identifiers count upwards and are not given twice.
-/
import Rulebook.Store.Definition
import Rulebook.Table

set_option autoImplicit false

namespace Rulebook

/-- Why a store did not answer. -/
inductive StoreError
  /-- A rule to be replaced is not there. -/
  | missing (id : RuleId)
  /-- The store cannot be reached. -/
  | unavailable (reason : String)
deriving DecidableEq, Repr

/-- The message for an error. -/
def StoreError.message : StoreError → String
  | .missing id => "rule " ++ id.text ++ " does not exist"
  | .unavailable reason => "rule store unavailable: " ++ reason

/-- What a store can be asked. -/
class RuleStore (σ : Type) where
  /-- The rule with an identifier. -/
  findById : σ → RuleId → Except StoreError (Option Definition)
  /-- The rule with a name. -/
  findByName : σ → String → Except StoreError (Option Definition)
  /-- Insert a rule without identifier, or replace the one with its identifier. -/
  save : σ → Definition → Except StoreError (σ × RuleId)
  /-- Delete a rule, and give it back if it was there. -/
  delete : σ → RuleId → Except StoreError (σ × Option Definition)
  /-- Whether a rule has a name, the one with a given identifier apart. -/
  existsByName : σ → String → Option RuleId → Except StoreError Bool
  /-- A page of the rules whose names contain a text; pages are counted from one. -/
  page : σ → UInt32 → UInt32 → Option String → Except StoreError Page

/-- A store in memory. -/
structure MemoryStore where
  /-- The rules by their identifiers, which rise. -/
  rules : Table RuleId Definition
  /-- The identifier of the next rule. -/
  nextId : UInt64
deriving DecidableEq

namespace MemoryStore

/-- A store without rules. -/
def empty : MemoryStore := ⟨[], 1⟩

/-- The number of rules. -/
def size (s : MemoryStore) : Nat := s.rules.length

/-- The rules in the order of their identifiers. -/
def definitions (s : MemoryStore) : List Definition := s.rules.map Prod.snd

/-- The rule with an identifier. -/
def findById (s : MemoryStore) (id : RuleId) : Option Definition := s.rules.get? id

/-- The first rule with a name. -/
def findByName (s : MemoryStore) (name : String) : Option Definition :=
  s.definitions.find? (·.name = name)

/-- Rules with one under an identifier: in place of the one that stands there, or else
where its number belongs. -/
def place (rules : Table RuleId Definition) (id : RuleId) (d : Definition) :
    Table RuleId Definition :=
  if rules.has id then rules.put id d
  else
    rules.takeWhile (fun entry => entry.1.val < id.val)
      ++ (id, d) :: rules.dropWhile (fun entry => entry.1.val < id.val)

/-- Insert or replace a rule.  A replaced rule keeps its time of creation if it has
one. -/
def save (s : MemoryStore) (d : Definition) : Except StoreError (MemoryStore × RuleId) :=
  match d.id with
  | some id =>
    match s.rules.get? id with
    | none => .error (.missing id)
    | some existing =>
      let d := { d with createdAt := existing.createdAt.orElse fun _ => d.createdAt }
      .ok ({ s with rules := place s.rules id d }, id)
  | none =>
    let id : RuleId := ⟨s.nextId⟩
    .ok (⟨place s.rules id { d with id := some id }, s.nextId + 1⟩, id)

/-- Delete a rule. -/
def delete (s : MemoryStore) (id : RuleId) : MemoryStore × Option Definition :=
  ({ s with rules := s.rules.erase id }, s.rules.get? id)

/-- Whether a rule has a name, the one with a given identifier apart. -/
def existsByName (s : MemoryStore) (name : String) (excluding : Option RuleId) : Bool :=
  s.definitions.any fun d => d.name = name && (excluding.isNone || d.id ≠ excluding)

/-- Whether some part of a list is a given list. -/
def hasPart (part : List Char) : List Char → Bool
  | [] => part.isEmpty
  | c :: rest => part.isPrefixOf (c :: rest) || hasPart part rest

/-- Whether a text contains another. -/
def containsText (text part : String) : Bool := hasPart part.toList text.toList

/-- The rules whose names contain a text, if one is given. -/
def matching (s : MemoryStore) (filter : Option String) : List Definition :=
  s.definitions.filter fun d =>
    match filter with
    | some part => containsText d.name part
    | none => true

/-- A page of the matching rules. -/
def page (s : MemoryStore) (number size : UInt32) (filter : Option String) : Page :=
  let found := s.matching filter
  { total := UInt64.ofNat found.length
    items := ((found.drop ((number.toNat - 1) * size.toNat)).take size.toNat).filterMap
      Definition.summary? }

end MemoryStore

instance : RuleStore MemoryStore where
  findById s id := .ok (s.findById id)
  findByName s name := .ok (s.findByName name)
  save := MemoryStore.save
  delete s id := .ok (s.delete id)
  existsByName s name excluding := .ok (s.existsByName name excluding)
  page s number size filter := .ok (s.page number size filter)

end Rulebook
