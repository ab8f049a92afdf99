/-
  Table.lean --- keyed tables that keep the order of first insertion.

  A table is its list of entries.  Putting a value under a key that is already there
  replaces the value and keeps the place; a new key goes to the end.
-/
set_option autoImplicit false

namespace Rulebook

/-- Entries in the order in which their keys were first put. -/
abbrev Table (κ α : Type) := List (κ × α)

namespace Table

variable {κ α : Type} [DecidableEq κ]

/-- The value under a key. -/
def get? (t : Table κ α) (k : κ) : Option α :=
  match t with
  | [] => none
  | (k', v) :: rest => if k' = k then some v else get? rest k

/-- Whether a key has a value. -/
def has (t : Table κ α) (k : κ) : Bool := (get? t k).isSome

/-- The table with `v` under `k`. -/
def put (t : Table κ α) (k : κ) (v : α) : Table κ α :=
  match t with
  | [] => [(k, v)]
  | (k', v') :: rest => if k' = k then (k, v) :: rest else (k', v') :: put rest k v

/-- The table without `k`. -/
def erase (t : Table κ α) (k : κ) : Table κ α := t.filter fun entry => entry.1 ≠ k

/-- The keys in order. -/
def keys (t : Table κ α) : List κ := t.map Prod.fst

/-- The table that results from putting the entries one after the other. -/
def ofEntries (entries : List (κ × α)) : Table κ α :=
  entries.foldl (fun t entry => put t entry.1 entry.2) []

/-! ## What a lookup sees -/

@[simp] theorem get?_nil (k : κ) : get? ([] : Table κ α) k = none := rfl

theorem get?_put (t : Table κ α) (k q : κ) (v : α) :
    get? (put t k v) q = if k = q then some v else get? t q := by
  induction t with
  | nil => simp [put, get?]
  | cons entry rest ih =>
    obtain ⟨k', v'⟩ := entry
    by_cases h : k' = k
    · subst h; simp [put, get?]; split <;> simp_all
    · simp only [put, h, if_false, get?, ih]
      by_cases hq : k' = q
      · subst hq; simp [Ne.symm h]
      · simp [hq]

theorem get?_erase (t : Table κ α) (k q : κ) :
    get? (erase t k) q = if k = q then none else get? t q := by
  induction t with
  | nil => simp [erase]
  | cons entry rest ih =>
    obtain ⟨k', v'⟩ := entry
    simp only [erase] at ih
    by_cases h : k' = k
    · subst h
      simp only [erase, List.filter_cons, ne_eq, not_true_eq_false, decide_false,
        Bool.false_eq_true, if_false, ih, get?]
      split <;> simp_all
    · simp only [erase, List.filter_cons, ne_eq, h, not_false_eq_true, decide_true, if_true,
        get?, ih]
      by_cases hq : k' = q
      · subst hq; simp [Ne.symm h]
      · simp [hq]

end Table

end Rulebook
