/-
  Service/Lookup.lean --- finding the program of a rule.

  A lookup is a sequence of atomic steps, and other operations may come between any
  two of them; so what a lookup remembers from one step to the next is part of
  its phase.  A miss takes part in the flight of its rule and, holding the lock of
  the flight, reads the text and compiles it; if the rule was invalidated in
  between, it starts over.
-/
import Rulebook.Config
import Rulebook.Engine
import Rulebook.Service.Cache
import Rulebook.Text.Blank

set_option autoImplicit false

namespace Rulebook

/-- What operations share: the stored rules, the cache, how many programs were
compiled into it, and whether a mutation is going on. -/
structure Shared (σ π : Type) where
  /-- The store. -/
  store : σ
  /-- The cache. -/
  cache : Cache π
  /-- The number of compilations that lookups completed. -/
  compilations : Nat
  /-- Whether a mutation holds the lock of mutations. -/
  mutating : Bool

/-- Nothing cached, and no operation going on. -/
def Shared.start {σ π : Type} (store : σ) : Shared σ π := ⟨store, .empty, 0, false⟩

/-- What the service is set up with. -/
structure Deployment (π σ : Type) where
  /-- The engine. -/
  engine : Engine π σ
  /-- The settings. -/
  config : Config

/-- A lookup by the step that comes next. -/
inductive Lookup (π : Type)
  /-- Look the name up in the index. -/
  | byName (name : String)
  /-- The index does not have the name: note the epoch. -/
  | noteEpoch (name : String)
  /-- Ask the store for the name. -/
  | findName (name : String) (epoch : Nat)
  /-- Record where the name leads. -/
  | recordName (name : String) (epoch : Nat) (id : RuleId)
  /-- Look for a cached program. -/
  | byId (id : RuleId)
  /-- There is none: take part in the flight. -/
  | join (id : RuleId)
  /-- Wait for the lock of the flight. -/
  | acquire (id : RuleId)
  /-- Look for a program that was cached in the meantime, and note the generation. -/
  | check (id : RuleId)
  /-- Ask the store for the rule. -/
  | read (id : RuleId) (generation : Nat)
  /-- Compile the text of the rule. -/
  | compile (id : RuleId) (generation : Nat) (rule : Definition)
  /-- Keep the program, unless the generation has changed. -/
  | keep (id : RuleId) (generation : Nat) (program : Compiled π)
  /-- Give the lock of the flight back. -/
  | release (id : RuleId) (answer : Except RuleError (Compiled π))
  /-- Leave the flight. -/
  | leave (id : RuleId) (answer : Except RuleError (Compiled π))
  /-- The answer is there. -/
  | done (answer : Except RuleError (Compiled π))

namespace Lookup

variable {σ π τ : Type} [RuleStore σ]

/-- The lookup of a rule. -/
def start : RuleKey → Lookup π
  | .id id => .byId id
  | .name name => .byName name

/-- The text of a rule that can be compiled: one that is there and is not blank. -/
def compilable? (found : Option Definition) : Option Definition :=
  found.filter fun d => !Text.isBlankText d.source

/-- The next step of a lookup; none if it has its answer or has to wait. -/
def step (d : Deployment π τ) (w : Shared σ π) : Lookup π → Option (Shared σ π × Lookup π)
  | .byName name =>
    match w.cache.idOf? name with
    | some id => some (w, .byId id)
    | none => some (w, .noteEpoch name)
  | .noteEpoch name => some (w, .findName name w.cache.epoch)
  | .findName name epoch =>
    match RuleStore.findByName w.store name with
    | .error e => some (w, .done (.error (.store e)))
    | .ok found =>
      match found.bind (·.id) with
      | some id => some (w, .recordName name epoch id)
      | none => some (w, .done (.error (.notFound (.name name))))
  | .recordName name epoch id =>
    some ({ w with cache := w.cache.recordName name epoch id }, .byId id)
  | .byId id =>
    match w.cache.program? id with
    | some p => some (w, .done (.ok p))
    | none => some (w, .join id)
  | .join id => some ({ w with cache := w.cache.join id }, .acquire id)
  | .acquire id => (w.cache.acquire? id).map fun cache => ({ w with cache }, .check id)
  | .check id =>
    match w.cache.program? id with
    | some p => some (w, .release id (.ok p))
    | none => some (w, .read id (w.cache.generation id))
  | .read id generation =>
    match RuleStore.findById w.store id with
    | .error e => some (w, .release id (.error (.store e)))
    | .ok found =>
      match compilable? found with
      | some rule => some (w, .compile id generation rule)
      | none => some (w, .release id (.error (.notFound (.id id))))
  | .compile id generation rule =>
    match d.engine.compile rule.source with
    | .error diagnostics => some (w, .release id (.error (.uncompilable id diagnostics)))
    | .ok program =>
      some ({ w with compilations := w.compilations + 1 },
        .keep id generation ⟨w.compilations, program⟩)
  | .keep id generation p =>
    match w.cache.keep? id generation p with
    | some cache => some ({ w with cache }, .release id (.ok p))
    | none => some (w, .check id)
  | .release id answer => some ({ w with cache := w.cache.release id }, .leave id answer)
  | .leave id answer => some ({ w with cache := w.cache.leave id }, .done answer)
  | .done _ => none

/-- The answer of a lookup that is done. -/
def answer? : Lookup π → Option (Except RuleError (Compiled π))
  | .done answer => some answer
  | _ => none

/-- Up to `n` steps without another operation in between. -/
def advance (d : Deployment π τ) : Nat → Shared σ π → Lookup π → Shared σ π × Lookup π
  | 0, w, l => (w, l)
  | n + 1, w, l =>
    match l.step d w with
    | some (w, l) => advance d n w l
    | none => (w, l)

/-- As many steps as a lookup takes if nothing comes in between: four for the name,
and at most eight from there. -/
def maxSteps : Nat := 13

/-- A lookup without another operation in between; no answer if it waits for a lock
that another operation holds. -/
def run (d : Deployment π τ) (w : Shared σ π) (key : RuleKey) :
    Shared σ π × Option (Except RuleError (Compiled π)) :=
  let (w, l) := advance d maxSteps w (start key)
  (w, l.answer?)

end Lookup

end Rulebook
