/-
  Service/Mutation.lean --- saving and deleting rules.

  Mutations follow one another: each holds the lock of mutations from before its
  first look at the store until its invalidation is done, so that no execution that
  starts after a mutation returned sees an older text.  Whatever goes wrong, goes
  wrong before the store has changed.
-/
import Rulebook.Config
import Rulebook.Service.Lookup
import Rulebook.Text.Quoted

set_option autoImplicit false

namespace Rulebook

/-! ## Drafts -/

namespace Definition

/-- A character of a rule name. -/
def isNameChar (c : Char) : Bool := c.isAlphanum || c = '_'

/-- Whether a text can be the name of a rule: 4 to 10 letters, digits or underscores. -/
def isName (name : String) : Bool :=
  let cs := name.toList
  4 ≤ cs.length && cs.length ≤ 10 && cs.all isNameChar

/-- Check a name. -/
def validateName (name : String) : Except RuleError Unit :=
  if isName name then .ok ()
  else .error (.invalid ("rule name " ++ Text.quoted name
    ++ " must be 4-10 letters, digits or underscores"))

/-- A draft as it will be stored: its name is trimmed and valid, its text is not
blank, and its description is trimmed and not empty. -/
def normalize (d : Definition) : Except RuleError Definition :=
  let name := Text.trim d.name
  match validateName name with
  | .error e => .error e
  | .ok () =>
    if Text.isBlankText d.source then .error (.invalid "rule text must not be empty")
    else
      .ok { d with
        name
        description := (d.description.map Text.trim).filter fun s => !s.isEmpty }

/-- A draft with its times: a rule that was there before keeps its time of creation. -/
def stamp (d : Definition) (existing : Option Definition) (now : Timestamp) : Definition :=
  { d with
    createdAt := (existing.bind (·.createdAt)).orElse fun _ => some now
    updatedAt := some now }

end Definition

/-! ## Saving -/

/-- A save by the step that comes next. -/
inductive Saving
  /-- Bring the draft into its stored form. -/
  | normalize (draft : Definition)
  /-- Check that the text compiles. -/
  | verify (draft : Definition)
  /-- Wait for the lock of mutations. -/
  | lock (draft : Definition)
  /-- Ask the store for the rule that is replaced. -/
  | find (draft : Definition) (id : RuleId)
  /-- Ask the store whether another rule has the name. -/
  | checkName (draft : Definition) (existing : Option Definition)
  /-- Write to the store. -/
  | write (draft : Definition) (existing : Option Definition)
  /-- Invalidate what the cache holds. -/
  | invalidate (id : RuleId)
  /-- Give the lock back. -/
  | unlock (answer : Except RuleError RuleId)
  /-- The answer is there. -/
  | done (answer : Except RuleError RuleId)

namespace Saving

variable {σ π τ : Type} [RuleStore σ]

/-- The next step of a save; none if it has its answer or has to wait. -/
def step (d : Deployment π τ) (now : Timestamp) (w : Shared σ π) :
    Saving → Option (Shared σ π × Saving)
  | .normalize draft =>
    match draft.normalize with
    | .error e => some (w, .done (.error e))
    | .ok draft => some (w, if d.config.verifyBeforeSave then .verify draft else .lock draft)
  | .verify draft =>
    match d.engine.compile draft.source with
    | .error diagnostics => some (w, .done (.error (.rejected diagnostics)))
    | .ok _ => some (w, .lock draft)
  | .lock draft =>
    if w.mutating then none
    else
      some ({ w with mutating := true },
        match draft.id with
        | some id => .find draft id
        | none => .checkName draft none)
  | .find draft id =>
    match RuleStore.findById w.store id with
    | .error e => some (w, .unlock (.error (.store e)))
    | .ok none => some (w, .unlock (.error (.notFound (.id id))))
    | .ok (some existing) => some (w, .checkName draft (some existing))
  | .checkName draft existing =>
    match RuleStore.existsByName w.store draft.name draft.id with
    | .error e => some (w, .unlock (.error (.store e)))
    | .ok true => some (w, .unlock (.error (.nameTaken draft.name)))
    | .ok false => some (w, .write draft existing)
  | .write draft existing =>
    match RuleStore.save w.store (draft.stamp existing now) with
    | .error e => some (w, .unlock (.error (.store e)))
    | .ok (store, id) => some ({ w with store }, .invalidate id)
  | .invalidate id => some ({ w with cache := w.cache.invalidate id }, .unlock (.ok id))
  | .unlock answer => some ({ w with mutating := false }, .done answer)
  | .done _ => none

/-- The answer of a save that is done. -/
def answer? : Saving → Option (Except RuleError RuleId)
  | .done answer => some answer
  | _ => none

/-- Up to `n` steps without another operation in between. -/
def advance (d : Deployment π τ) (now : Timestamp) :
    Nat → Shared σ π → Saving → Shared σ π × Saving
  | 0, w, s => (w, s)
  | n + 1, w, s =>
    match s.step d now w with
    | some (w, s) => advance d now n w s
    | none => (w, s)

/-- As many steps as a save takes. -/
def maxSteps : Nat := 8

/-- A save without another operation in between; no answer if another mutation is
going on. -/
def run (d : Deployment π τ) (now : Timestamp) (w : Shared σ π) (draft : Definition) :
    Shared σ π × Option (Except RuleError RuleId) :=
  let (w, s) := advance d now maxSteps w (.normalize draft)
  (w, s.answer?)

end Saving

/-! ## Deleting -/

/-- A deletion by the step that comes next. -/
inductive Deleting
  /-- Wait for the lock of mutations. -/
  | lock (id : RuleId)
  /-- Ask the store for the rule. -/
  | find (id : RuleId)
  /-- Delete it from the store. -/
  | remove (id : RuleId) (existing : Definition)
  /-- Invalidate what the cache holds. -/
  | invalidate (id : RuleId) (removed : Definition)
  /-- Give the lock back. -/
  | unlock (answer : Except RuleError Definition)
  /-- The answer is there. -/
  | done (answer : Except RuleError Definition)

namespace Deleting

variable {σ π : Type} [RuleStore σ]

/-- The next step of a deletion; none if it has its answer or has to wait. -/
def step (w : Shared σ π) : Deleting → Option (Shared σ π × Deleting)
  | .lock id => if w.mutating then none else some ({ w with mutating := true }, .find id)
  | .find id =>
    match RuleStore.findById w.store id with
    | .error e => some (w, .unlock (.error (.store e)))
    | .ok none => some (w, .unlock (.error (.notFound (.id id))))
    | .ok (some existing) => some (w, .remove id existing)
  | .remove id existing =>
    match RuleStore.delete w.store id with
    | .error e => some (w, .unlock (.error (.store e)))
    | .ok (store, removed) => some ({ w with store }, .invalidate id (removed.getD existing))
  | .invalidate id removed =>
    some ({ w with cache := w.cache.invalidate id }, .unlock (.ok removed))
  | .unlock answer => some ({ w with mutating := false }, .done answer)
  | .done _ => none

/-- The answer of a deletion that is done. -/
def answer? : Deleting → Option (Except RuleError Definition)
  | .done answer => some answer
  | _ => none

/-- Up to `n` steps without another operation in between. -/
def advance : Nat → Shared σ π → Deleting → Shared σ π × Deleting
  | 0, w, s => (w, s)
  | n + 1, w, s =>
    match s.step w with
    | some (w, s) => advance n w s
    | none => (w, s)

/-- As many steps as a deletion takes. -/
def maxSteps : Nat := 5

/-- A deletion without another operation in between; no answer if another mutation
is going on. -/
def run (w : Shared σ π) (id : RuleId) : Shared σ π × Option (Except RuleError Definition) :=
  let (w, s) := advance maxSteps w (.lock id)
  (w, s.answer?)

end Deleting

end Rulebook
