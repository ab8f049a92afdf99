/-
  Proofs/Fact/Calls.lean --- what calls leave in working memory.

  Working memory takes values at texts, JSON values and typed facts.  Each call is a list
  of writes at texts: the scalars of a value or a fact, each at the names that lead to it,
  joined with dots (`Call.log`).  Only then the texts are split at every dot, so dots in
  names count like dots between names (`Path.ofString_joined`).

  Whatever the calls, a lookup sees the write in force at the segments of its text
  (`get?_perform_iff`), in working memory and in tables in tables alike.
-/
import Rulebook.Proofs.Fact.Instance
import Rulebook.Proofs.Fact.Memory
import Rulebook.Proofs.Fact.Nested

set_option autoImplicit false

namespace Rulebook

/-! ## Joined names -/

namespace Path

/-- A text with names after it, each after a dot. -/
def joined (root : String) (names : List String) : String :=
  names.foldl (fun path name => path ++ "." ++ name) root

theorem splitDots_append_dot (as bs : List Char) :
    splitDots (as ++ '.' :: bs) = splitDots as ++ splitDots bs := by
  induction as with
  | nil => rfl
  | cons c rest ih =>
      rw [List.cons_append, splitDots, splitDots, ih]
      split
      · rfl
      · obtain ⟨first, more, hsplit⟩ := List.exists_cons_of_ne_nil (splitDots_ne_nil rest)
        rw [hsplit]
        rfl

theorem ofString_append_dot (path name : String) :
    ofString (path ++ "." ++ name) = (ofString path).child name := by
  have hchars : (path ++ "." ++ name).toList = path.toList ++ '.' :: name.toList := by simp
  rw [ofString, hchars, splitDots_append_dot, List.map_append]
  rfl

/-- Splitting undoes joining, and takes dots in names for dots between names. -/
theorem ofString_joined (root : String) (names : List String) :
    ofString (joined root names) = (ofString root).descend names := by
  induction names generalizing root with
  | nil => rfl
  | cons name rest ih =>
      rw [joined, List.foldl_cons, ← joined, ih, ofString_append_dot]
      rfl

end Path

/-! ## Scalars and where they stand -/

/-- A scalar with the names that lead to it. -/
abbrev Leaf := List String × Value

namespace Leaf

/-- The scalar seen from one level further out. -/
def under (name : String) (leaf : Leaf) : Leaf := (name :: leaf.1, leaf.2)

/-- The write of a scalar below a path. -/
def write (path : Path) (leaf : Leaf) : Write := (path.descend leaf.1, leaf.2)

mutual

/-- The scalars of a JSON value in the order of the text.  Null is none. -/
def ofJson : Json → List Leaf
  | .null => []
  | .bool b => [([], .bool b)]
  | .number n => [([], Value.ofJsonNumber n)]
  | .string s => [([], .string s)]
  | .array items => ofItems 0 items
  | .object members => ofMembers members

/-- The scalars of items from a position on. -/
def ofItems (position : Nat) : List Json → List Leaf
  | [] => []
  | v :: rest => (ofJson v).map (under (toString position)) ++ ofItems (position + 1) rest

/-- The scalars of members. -/
def ofMembers : List (String × Json) → List Leaf
  | [] => []
  | (key, v) :: rest => (ofJson v).map (under key) ++ ofMembers rest

end

mutual

/-- The scalars of a field. -/
def ofFieldValue : FieldValue → List Leaf
  | .scalar v => [([], v)]
  | .record _ fields => ofFields fields

/-- The scalars of fields, in their order. -/
def ofFields : List (String × FieldValue) → List Leaf
  | [] => []
  | (name, v) :: rest => (ofFieldValue v).map (under name) ++ ofFields rest

end

end Leaf

/-! ## Writes are scalars below a path -/

namespace Write

open Leaf (write)

mutual

theorem ofJson_eq (path : Path) : ∀ json : Json,
    ofJson path json = (Leaf.ofJson json).map (write path)
  | .null | .bool _ | .number _ | .string _ => rfl
  | .array items => ofItems_eq path 0 items
  | .object members => ofMembers_eq path members

theorem ofItems_eq (path : Path) (position : Nat) : ∀ items : List Json,
    ofItems path position items = (Leaf.ofItems position items).map (write path)
  | [] => rfl
  | v :: rest => by
      rw [ofItems, Leaf.ofItems, List.map_append, List.map_map, ofJson_eq, ofItems_eq]
      rfl

theorem ofMembers_eq (path : Path) : ∀ members : List (String × Json),
    ofMembers path members = (Leaf.ofMembers members).map (write path)
  | [] => rfl
  | (key, v) :: rest => by
      rw [ofMembers, Leaf.ofMembers, List.map_append, List.map_map, ofJson_eq, ofMembers_eq]
      rfl

end

mutual

theorem ofFieldValue_eq (path : Path) : ∀ value : FieldValue,
    ofFieldValue path value = (Leaf.ofFieldValue value).map (write path)
  | .scalar _ => rfl
  | .record _ fields => ofFields_eq path fields

theorem ofFields_eq (path : Path) : ∀ fields : List (String × FieldValue),
    ofFields path fields = (Leaf.ofFields fields).map (write path)
  | [] => rfl
  | (name, v) :: rest => by
      rw [ofFields, Leaf.ofFields, List.map_append, List.map_map, ofFieldValue_eq, ofFields_eq]
      rfl

end

end Write

/-! ## Calls -/

namespace Memory

/-- A call that puts something into working memory.  The fields of a typed fact stand in
the order of their names. -/
inductive Call
  | insert (path : String) (value : Value)
  | json (root : String) (content : Json)
  | record (content : Instance) (ordered : content.Ordered)

namespace Call

/-- The writes of a call, at texts. -/
def log : Call → List (String × Value)
  | .insert path value => [(path, value)]
  | .json root content => (Leaf.ofJson content).map fun leaf => (Path.joined root leaf.1, leaf.2)
  | .record content _ =>
    (Leaf.ofFields content.fields).map fun leaf => (Path.joined content.shape leaf.1, leaf.2)

/-- The writes of a call, at the segments of their texts. -/
def writes (call : Call) : List Write := call.log.map fun w => (Path.ofString w.1, w.2)

end Call

/-- Working memory after a call. -/
def perform (m : Memory) : Call → Memory
  | .insert path value => m.insert (Path.ofString path) value
  | .json root content => m.write (Write.ofJson (Path.ofString root) content)
  | .record content _ => m.write (Write.ofInstance content)

/-- Joining the names of scalars and splitting the texts gives their paths. -/
theorem split_joined (root : String) (leaves : List Leaf) :
    (leaves.map fun leaf => (Path.joined root leaf.1, leaf.2)).map
        (fun w => (Path.ofString w.1, w.2)) = leaves.map (Leaf.write (Path.ofString root)) := by
  rw [List.map_map]
  refine List.map_congr_left fun leaf _ => ?_
  rw [Leaf.write, ← Path.ofString_joined]
  rfl

/-- A call is its writes. -/
theorem perform_eq (m : Memory) (call : Call) : m.perform call = m.write call.writes := by
  cases call with
  | insert path value => rfl
  | json root content => rw [perform, Write.ofJson_eq, ← split_joined]; rfl
  | record content _ => rw [perform, Write.ofInstance, Write.ofFields_eq, ← split_joined]; rfl

theorem foldl_perform (m : Memory) (calls : List Call) :
    calls.foldl perform m = m.write (calls.flatMap Call.writes) := by
  induction calls generalizing m with
  | nil => rfl
  | cons call rest ih =>
      rw [List.foldl_cons, ih, perform_eq, List.flatMap_cons]
      exact List.foldl_append.symm

theorem segments_of_mem_writes {calls : List Call} {w : Write}
    (hw : w ∈ calls.flatMap Call.writes) : w.1.segments ≠ [] := by
  obtain ⟨call, -, hw⟩ := List.mem_flatMap.mp hw
  obtain ⟨texted, -, rfl⟩ := List.mem_map.mp hw
  exact Path.segments_ofString_ne_nil texted.1

/-- **The last write wins, and displaces.**  After any calls on an empty working memory, a
lookup gives a value just if the value was written at the segments of its text and nothing
later was written there, at a strict prefix of them or at a strict continuation of them.
Tables in tables, which make those displacements along the way, give the same. -/
theorem get?_perform_iff (calls : List Call) (query : String) (v : Value) :
    ((calls.foldl perform empty).get? (Path.ofString query) = some v ↔
      Write.InForce (calls.flatMap Call.writes) (Path.ofString query) v) ∧
    Slots.get? (Slots.ofLog (calls.flatMap Call.writes)) (Path.ofString query).segments =
      (calls.foldl perform empty).get? (Path.ofString query) := by
  have hlog : ∀ w ∈ calls.flatMap Call.writes, w.1.segments ≠ [] :=
    fun _ => segments_of_mem_writes
  have hquery := Path.segments_ofString_ne_nil query
  rw [foldl_perform]
  exact ⟨get?_write_iff hlog hquery, Slots.get?_ofLog hlog hquery⟩

/-- A subtree displaces a value and a value a subtree, and dots in a key are dots of the
path. -/
example :
    let calls : List Call := [.insert "user" (.int 1),
      .json "user" (.object [("home.city", .string "Lima"), ("tags", .array [.null, .bool true])]),
      .insert "user.tags" (.int 2)]
    let m := calls.foldl perform empty
    m.get? (Path.ofString "user") = none ∧
      m.get? (Path.ofString "user.home.city") = some (.string "Lima") ∧
      m.get? (Path.ofString "user.tags.1") = none := by
  decide +kernel

end Memory

end Rulebook
