/-
  Proofs/Service/Facade.lean --- what callers ask for, with a cache and without.

  `Facade` does what callers ask for as the service does it, one command after the other.
  `Uncached` does the same over the stored rules alone: it finds a rule by going through
  them, compiles its text and runs the program, each time anew.  It has no cache, no locks
  and no steps.
-/
import Rulebook.Proofs.Store.Memory
import Rulebook.Service.Execution

set_option autoImplicit false

namespace Rulebook

/-- What a caller asks for. -/
inductive Command
  | save (draft : Definition) (now : Timestamp)
  | delete (id : RuleId)
  /-- Find the program of a rule. -/
  | find (key : RuleKey)
  /-- Drop what is cached of a rule. -/
  | invalidate (id : RuleId)
  | execute (key : RuleKey) (params : Json.Members)

/-- What a caller is told. -/
inductive Reply (π : Type)
  | saved (answer : Except RuleError RuleId)
  | deleted (answer : Except RuleError Definition)
  | found (answer : Except RuleError π)
  | invalidated
  | executed (outcome : Outcome)

/-! ## With a cache -/

namespace Facade

variable {π τ : Type}

/-- Do what a caller asks for; no reply if an operation waits for a lock. -/
def perform (d : Deployment π τ) (w : Shared MemoryStore π) :
    Command → Shared MemoryStore π × Option (Reply π)
  | .save draft now =>
    let (w, answer) := Saving.run d now w draft
    (w, answer.map .saved)
  | .delete id =>
    let (w, answer) := Deleting.run w id
    (w, answer.map .deleted)
  | .find key =>
    let (w, answer) := Lookup.run d w key
    (w, answer.map fun found => .found (found.map (·.program)))
  | .invalidate id => ({ w with cache := w.cache.invalidate id }, some .invalidated)
  | .execute key params =>
    let (w, run) := Execution.execute d w key params
    (w, run.map fun run => .executed (Execution.respond d.config run.answer))

/-- Do what callers ask for, one after the other. -/
def performAll (d : Deployment π τ) :
    Shared MemoryStore π → List Command → Shared MemoryStore π × List (Option (Reply π))
  | w, [] => (w, [])
  | w, command :: rest =>
    let (w, reply) := perform d w command
    let (w, replies) := performAll d w rest
    (w, reply :: replies)

end Facade

/-! ## Without a cache -/

namespace Uncached

variable {π τ : Type}

/-- The first stored rule that a key addresses, with the identifier under which it
stands. -/
def entry? (s : MemoryStore) : RuleKey → Option (RuleId × Definition)
  | .id id => s.rules.find? (·.1 = id)
  | .name name => s.rules.find? (·.2.name = name)

/-- The program of a rule, compiled from the text that is stored now. -/
def program (d : Deployment π τ) (s : MemoryStore) (key : RuleKey) : Except RuleError π :=
  match entry? s key with
  | none => .error (.notFound key)
  | some (id, rule) => (d.engine.compile rule.source).mapError (.uncompilable id)

/-- What an execution answers: the result of a run over a fresh session, or a failure. -/
def outcome (d : Deployment π τ) (s : MemoryStore) (key : RuleKey) (params : Json.Members) :
    Outcome :=
  Execution.respond d.config <|
    match program d s key with
    | .ok p => (Execution.run d key.label p params).answer
    | .error e => .error e

/-- Check that a text compiles, if the settings ask for it. -/
def verify (d : Deployment π τ) (source : String) : Except RuleError Unit :=
  if d.config.verifyBeforeSave then
    (d.engine.compile source).mapError .rejected |>.map fun _ => ()
  else .ok ()

/-- The rule that a draft replaces; none if the draft is for a new rule. -/
def replaced (s : MemoryStore) (draft : Definition) : Except RuleError (Option Definition) :=
  match draft.id with
  | none => .ok none
  | some id =>
    match s.findById id with
    | none => .error (.notFound (.id id))
    | some existing => .ok (some existing)

/-- Write a draft in place of a rule, unless another rule has its name. -/
def write (s : MemoryStore) (draft : Definition) (existing : Option Definition)
    (now : Timestamp) : Except RuleError (MemoryStore × RuleId) :=
  if s.existsByName draft.name draft.id then .error (.nameTaken draft.name)
  else (s.save (draft.stamp existing now)).mapError .store

/-- The stored rules after a save, and the identifier of the saved rule. -/
def save (d : Deployment π τ) (s : MemoryStore) (draft : Definition) (now : Timestamp) :
    Except RuleError (MemoryStore × RuleId) := do
  let draft ← draft.normalize
  verify d draft.source
  let existing ← replaced s draft
  write s draft existing now

/-- The stored rules after a deletion, and the deleted rule. -/
def delete (s : MemoryStore) (id : RuleId) : Except RuleError (MemoryStore × Definition) :=
  match s.findById id with
  | none => .error (.notFound (.id id))
  | some rule => .ok ((s.delete id).1, rule)

/-- The stored rules after a mutation, which are as before if it fails. -/
def stored {α : Type} (s : MemoryStore) : Except RuleError (MemoryStore × α) → MemoryStore
  | .ok (t, _) => t
  | .error _ => s

/-- Do what a caller asks for. -/
def perform (d : Deployment π τ) (s : MemoryStore) : Command → MemoryStore × Reply π
  | .save draft now =>
    (stored s (save d s draft now), .saved ((save d s draft now).map Prod.snd))
  | .delete id => (stored s (delete s id), .deleted ((delete s id).map Prod.snd))
  | .find key => (s, .found (program d s key))
  | .invalidate _ => (s, .invalidated)
  | .execute key params => (s, .executed (outcome d s key params))

/-- Do what callers ask for, one after the other. -/
def performAll (d : Deployment π τ) : MemoryStore → List Command → MemoryStore × List (Reply π)
  | s, [] => (s, [])
  | s, command :: rest =>
    let (s, reply) := perform d s command
    let (s, replies) := performAll d s rest
    (s, reply :: replies)

end Uncached

end Rulebook
