/-
  Proofs/Fact/Nested.lean --- working memory as tables in tables.

  A fact can be kept as a tree: each segment of a path leads to a value or to a further
  table.  Writing makes the tables on the way, and puts a table where a value was; putting
  a value drops the table that was there.  So a write displaces what is on the way to its
  path and what is below it, as it does in working memory, and what is read from tables in
  tables is what is read from working memory (`get?_ofLog`).
-/
import Rulebook.Proofs.Fact.LastWrite
import Rulebook.Table

set_option autoImplicit false

namespace Rulebook

/-- What a segment leads to. -/
inductive Slot
  | leaf (value : Value)
  /-- The slots of the segments that go on. -/
  | nested (slots : List (String × Slot))

/-- The slots that go on from a slot: none from a value. -/
def Slot.inner : Slot → List (String × Slot)
  | .leaf _ => []
  | .nested slots => slots

/-- The slots of first segments. -/
abbrev Slots := Table String Slot

namespace Slots

/-- The slots below a segment: none if it leads to a value, or nowhere. -/
def below (slots : Slots) (segment : String) : Slots :=
  match Table.get? slots segment with
  | some slot => slot.inner
  | none => []

/-- Write a value where segments lead. -/
def insert (slots : Slots) (value : Value) : List String → Slots
  | [] => slots
  | [last] => Table.put slots last (.leaf value)
  | segment :: rest => Table.put slots segment (.nested (insert (below slots segment) value rest))

/-- The value where segments lead. -/
def get? (slots : Slots) : List String → Option Value
  | [] => none
  | [last] =>
    match Table.get? slots last with
    | some (.leaf value) => some value
    | _ => none
  | segment :: rest => get? (below slots segment) rest

/-- The tables after writes, from empty ones. -/
def ofLog (log : List Write) : Slots :=
  log.foldl (fun slots w => insert slots w.2 w.1.segments) []

variable {slots : Slots} {segment first : String} {slot : Slot} {v : Value}

/-! ## One table -/

theorem below_put : below (Table.put slots segment slot) first =
    if segment = first then slot.inner else below slots first := by
  rw [below, Table.get?_put]
  by_cases h : segment = first
  · simp [h]
  · simp [h, below]

theorem get?_cons (slots : Slots) (first next : String) (more : List String) :
    get? slots (first :: next :: more) = get? (below slots first) (next :: more) := rfl

theorem insert_cons (slots : Slots) (v : Value) (segment next : String) (rest : List String) :
    insert slots v (segment :: next :: rest) =
      Table.put slots segment (.nested (insert (below slots segment) v (next :: rest))) := rfl

theorem get?_empty (q : List String) : get? [] q = none := by
  induction q with
  | nil => rfl
  | cons first more ih =>
      cases more with
      | nil => rfl
      | cons next more => exact ih

theorem get?_put_of_ne (h : segment ≠ first) (more : List String) :
    get? (Table.put slots segment slot) (first :: more) = get? slots (first :: more) := by
  cases more with
  | nil => rw [get?, get?, Table.get?_put, if_neg h]
  | cons next more => rw [get?_cons, get?_cons, below_put, if_neg h]

/-- A write touches the slot of its first segment alone. -/
theorem insert_eq_put (slots : Slots) (v : Value) (segment : String) (rest : List String) :
    ∃ slot, insert slots v (segment :: rest) = Table.put slots segment slot := by
  cases rest with
  | nil => exact ⟨_, rfl⟩
  | cons next rest => exact ⟨_, rfl⟩

/-! ## What a write does -/

/-- A write puts its value at its path, takes away what is on the way there and below, and
leaves the rest. -/
theorem get?_insert {p q : List String} (hp : p ≠ []) (hq : q ≠ []) (slots : Slots) (v : Value) :
    get? (insert slots v p) q =
      if p = q then some v else if p <+: q ∨ q <+: p then none else get? slots q := by
  -- along the path of the write, one table further down at each segment
  induction p generalizing slots q with
  | nil => exact absurd rfl hp
  | cons segment rest ih =>
      obtain ⟨first, more, rfl⟩ := List.exists_cons_of_ne_nil hq
      by_cases hfirst : segment = first
      · subst hfirst
        cases rest with
        | nil =>
            cases more with
            | nil => simp [insert, get?, Table.get?_put]
            -- the value stands where the table below it was
            | cons next more => simp [insert, get?_cons, below_put, Slot.inner, get?_empty]
        | cons other rest =>
            cases more with
            -- a table stands where the value was
            | nil => simp [insert_cons, get?, Table.get?_put]
            | cons next more =>
                rw [insert_cons, get?_cons, below_put, if_pos rfl, Slot.inner,
                  ih (List.cons_ne_nil _ _) (List.cons_ne_nil _ _), get?_cons]
                simp
      · obtain ⟨slot, hslot⟩ := insert_eq_put slots v segment rest
        rw [hslot, get?_put_of_ne hfirst]
        simp [hfirst, Ne.symm hfirst]

theorem recorded : Write.Recorded ([] : Slots) (fun slots p v => insert slots v p.segments)
    (fun slots q => get? slots q.segments) where
  none_of_empty q := get?_empty q.segments
  insert slots p v q hp hq := by
    rw [get?_insert hp hq]
    by_cases hpq : p = q
    · simp [hpq]
    · have hsegments : p.segments ≠ q.segments := fun h => hpq (congrArg Path.mk h)
      simp [hpq, hsegments, Path.Displaces]

/-- **Tables in tables are working memory.**  After the same writes both have the same
value at every path. -/
theorem get?_ofLog {log : List Write} (hlog : ∀ w ∈ log, w.1.segments ≠ []) {q : Path}
    (hq : q.segments ≠ []) :
    get? (ofLog log) q.segments = (Memory.empty.write log).get? q :=
  Option.ext fun _ => (recorded.get?_iff hlog hq).trans (Memory.get?_write_iff hlog hq).symm

end Slots

end Rulebook
