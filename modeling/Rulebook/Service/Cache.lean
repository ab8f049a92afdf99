/-
  Service/Cache.lean --- compiled programs by rule.

  The cache holds programs by identifier and an index from names to identifiers.
  Every invalidation raises the epoch, which tells a lookup by name whether it may
  record what it found; it also raises the generation of its rule, which tells a
  lookup in the middle of a compilation that its program may be outdated.
  Generations are kept only while there is such a lookup: it takes part in the flight
  of its rule, and of the lookups in one flight one at a time holds its lock.

  Epochs and generations are counted without an end here.  Counters of 64 bits count the
  same as long as there are fewer than `2 ^ 64` invalidations, and that is assumed.

  Each operation here is one atomic section: no other operation comes between its
  reading and its writing.
-/
import Rulebook.Service.Error

set_option autoImplicit false

namespace Rulebook

/-- A program with the number of the compilation that it came from: two programs
with one number are the same instance. -/
structure Compiled (π : Type) where
  /-- The number of the compilation. -/
  serial : Nat
  /-- The program. -/
  program : π
deriving DecidableEq, Repr

/-- The lookups of one rule that miss. -/
structure Flight where
  /-- How many lookups take part. -/
  holders : Nat
  /-- Whether one of them holds the lock. -/
  locked : Bool
deriving DecidableEq, Repr

/-- The program cache. -/
structure Cache (π : Type) where
  /-- The programs. -/
  programs : Table RuleId (Compiled π)
  /-- The index of names. -/
  names : Table String RuleId
  /-- How often rules with a flight were invalidated, assumed to be fewer than `2 ^ 64`
  times. -/
  generations : Table RuleId Nat
  /-- How often any rule was invalidated, assumed to be fewer than `2 ^ 64` times. -/
  epoch : Nat
  /-- The flights. -/
  flights : Table RuleId Flight

namespace Cache

variable {π : Type}

/-- A cache without programs. -/
def empty : Cache π := ⟨[], [], [], 0, []⟩

/-! ## Programs -/

/-- The program of a rule. -/
def program? (c : Cache π) (id : RuleId) : Option (Compiled π) := c.programs.get? id

/-- The generation of a rule; zero if none is kept. -/
def generation (c : Cache π) (id : RuleId) : Nat := (c.generations.get? id).getD 0

/-- Keep a program that was compiled since a generation; none if the rule was
invalidated in between. -/
def keep? (c : Cache π) (id : RuleId) (generation : Nat) (p : Compiled π) : Option (Cache π) :=
  if c.generation id = generation then some { c with programs := c.programs.put id p } else none

/-- Forget the program of a rule and the names that lead to it. -/
def invalidate (c : Cache π) (id : RuleId) : Cache π where
  programs := c.programs.erase id
  names := c.names.filter fun entry => entry.2 ≠ id
  generations :=
    if c.flights.has id then c.generations.put id (c.generation id + 1)
    else c.generations.erase id
  epoch := c.epoch + 1
  flights := c.flights

/-! ## Names -/

/-- The identifier that a name leads to. -/
def idOf? (c : Cache π) (name : String) : Option RuleId := c.names.get? name

/-- Record where a name leads, unless a rule was invalidated since an epoch or the
name leads somewhere already. -/
def recordName (c : Cache π) (name : String) (epoch : Nat) (id : RuleId) : Cache π :=
  if c.epoch = epoch && !c.names.has name then { c with names := c.names.put name id } else c

/-! ## Flights -/

/-- Take part in the flight of a rule. -/
def join (c : Cache π) (id : RuleId) : Cache π :=
  let f := (c.flights.get? id).getD ⟨0, false⟩
  { c with flights := c.flights.put id { f with holders := f.holders + 1 } }

/-- Take the lock of a flight; none while another lookup holds it. -/
def acquire? (c : Cache π) (id : RuleId) : Option (Cache π) :=
  match c.flights.get? id with
  | some f =>
    if f.locked then none
    else some { c with flights := c.flights.put id { f with locked := true } }
  | none => none

/-- Give the lock of a flight back. -/
def release (c : Cache π) (id : RuleId) : Cache π :=
  match c.flights.get? id with
  | some f => { c with flights := c.flights.put id { f with locked := false } }
  | none => c

/-- Leave the flight of a rule.  With its last lookup the flight ends. -/
def leave (c : Cache π) (id : RuleId) : Cache π :=
  match c.flights.get? id with
  | some f =>
    if f.holders ≤ 1 then { c with flights := c.flights.erase id }
    else { c with flights := c.flights.put id { f with holders := f.holders - 1 } }
  | none => c

end Cache

end Rulebook
