/-
  Fact/Memory.lean --- working memory.

  Working memory maps paths to scalars.  Facts are flattened into writes, one for
  each scalar.  A path and a continuation of it cannot both have a value: a write
  displaces what lies on the way to its path and what lies below it.
-/
import Rulebook.Fact.Instance

set_option autoImplicit false

namespace Rulebook

/-- A write to working memory. -/
abbrev Write := Path × Value

namespace Write

mutual

/-- The writes of a JSON value below a path, in the order of the text.  Members are
found by their keys and items by their positions; null writes nothing. -/
def ofJson (path : Path) : Json → List Write
  | .null => []
  | .bool b => [(path, .bool b)]
  | .number n => [(path, Value.ofJsonNumber n)]
  | .string s => [(path, .string s)]
  | .array items => ofItems path 0 items
  | .object members => ofMembers path members

/-- The writes of items from a position on. -/
def ofItems (path : Path) (position : Nat) : List Json → List Write
  | [] => []
  | v :: rest => ofJson (path.child (toString position)) v ++ ofItems path (position + 1) rest

/-- The writes of members. -/
def ofMembers (path : Path) : List (String × Json) → List Write
  | [] => []
  | (key, v) :: rest => ofJson (path.child key) v ++ ofMembers path rest

end

mutual

/-- The writes of a field. -/
def ofFieldValue (path : Path) : FieldValue → List Write
  | .scalar v => [(path, v)]
  | .record _ fields => ofFields path fields

/-- The writes of fields, in their order. -/
def ofFields (path : Path) : List (String × FieldValue) → List Write
  | [] => []
  | (name, v) :: rest => ofFieldValue (path.child name) v ++ ofFields path rest

end

/-- The writes of an instance, below the name of its shape. -/
def ofInstance (i : Instance) : List Write := ofFields (Path.ofString i.shape) i.fields

end Write

/-- Working memory: the writes that are in force. -/
structure Memory where
  /-- The paths that have a value. -/
  cells : List Write
deriving DecidableEq, Repr, Inhabited

namespace Memory

/-- No value at all. -/
def empty : Memory := ⟨[]⟩

/-- Write a value at a path. -/
def insert (m : Memory) (path : Path) (value : Value) : Memory :=
  ⟨m.cells.filter (fun (p, _) => !p.isWithin path && !path.isWithin p) ++ [(path, value)]⟩

/-- Make writes one after the other. -/
def write (m : Memory) (writes : List Write) : Memory :=
  writes.foldl (fun m w => m.insert w.1 w.2) m

/-- The value at a path. -/
def get? (m : Memory) (path : Path) : Option Value :=
  (m.cells.find? (·.1 = path)).map Prod.snd

end Memory

end Rulebook
